import Mathlib
import ScriptMachine.Proofs.Literal
import ScriptMachine.Proofs.Machine.ControlFlow
import ScriptMachine.Proofs.Machine.Yield
import ScriptMachine.Proofs.Script.Site

/-!
# Compiled expressions compute their values

The code of an expression yields what the expression evaluates to. The proof goes along the expression
with the code that is drafted for it; instructions and offsets come in only through `Carries`, which
the layout of a script provides for the code of each of its sites.
-/

namespace ScriptMachine

open Compilation

/-- From a position on, the program has the instructions of drafted code; only those without a target
matter here. The place of a position is where its instruction is in the code. -/
def Program.Carries (program : Program) (place : Nat → Nat) (position : Nat) (code : Code) : Prop :=
  ∀ (k : Nat) (op : Opcode) (first : UInt32), code[k]? = some (.op ⟨op, first, 0⟩) →
    op.hasTarget = false → ∃ i ∈ program.instructions, i.op = op ∧
      (1 ≤ op.operandCount → i.first = first) ∧ i.offset = place (position + k) ∧
      i.nextOffset = place (position + k + 1)

namespace Program

variable {program : Program} {place : Nat → Nat} {position : Nat} {before after : Code}

theorem Carries.front (h : program.Carries place position (before ++ after)) :
    program.Carries place position before := by
  intro k op first hitem htarget
  obtain ⟨hk, -⟩ := List.getElem?_eq_some_iff.mp hitem
  exact h k op first (by rwa [List.getElem?_append_left hk]) htarget

theorem Carries.back (h : program.Carries place position (before ++ after)) :
    program.Carries place (position + before.length) after := by
  intro k op first hitem htarget
  have hmoved := h (before.length + k) op first
    (by rwa [List.getElem?_append_right (Nat.le_add_right _ _), Nat.add_sub_cancel_left]) htarget
  rwa [← Nat.add_assoc] at hmoved

theorem Carries.single {op : Opcode} {first : UInt32}
    (h : program.Carries place position [.op ⟨op, first, 0⟩]) (htarget : op.hasTarget = false) :
    ∃ i ∈ program.instructions, i.op = op ∧ (1 ≤ op.operandCount → i.first = first) ∧
      i.offset = place position ∧ i.nextOffset = place (position + 1) :=
  h 0 op first rfl htarget

end Program

/-! ### Single instructions of expressions -/

namespace Machine

variable {program : Program} {env : Environment} {validate : Bool} {place : Nat → Nat} {position : Nat}
  {pool : ConstantPool} {names : List String} {locals : String → Value} {base m : Machine}

theorem yields_constant {index : Nat} {value : Value} (hprogram : program.constants = pool.values)
    (hsound : pool.Sound) (hget : pool.get? index = some value)
    (hcode : program.Carries place position [.withOperand .pushValue index])
    (hholds : m.stack.Holds names locals) (hroom : m.stack.depth < m.stack.capacity) :
    Yields program env validate m (place position) 1 (place (position + 1)) m (.ok value) := by
  obtain ⟨i, hi, hop, hfirst, hoffset, hnext⟩ := hcode.single rfl
  have hindex := ConstantPool.lt_size_of_get? hget
  have hsize := hsound.size_le
  have hmax : maxOffset = 0x3fffffff := rfl
  have hconstant : program.constants[i.first.toNat]? = some value := by
    rw [hfirst (by decide), UInt32.toNat_ofNat', Nat.mod_eq_of_lt (by omega), hprogram]
    exact hget
  rw [← hoffset, ← hnext]
  exact (performs_pushValue hop hconstant hroom).yields (.refl m) (Program.fetch_of_mem hi) hholds hroom

theorem yields_local {slot : Nat} {name : String} (hname : names[slot]? = some name)
    (hlength : names.length ≤ 510)
    (hcode : program.Carries place position [.withOperand .loadLocal slot])
    (hholds : m.stack.Holds names locals) (hroom : m.stack.depth < m.stack.capacity) :
    Yields program env validate m (place position) 1 (place (position + 1)) m (.ok (locals name)) := by
  obtain ⟨i, hi, hop, hfirst, hoffset, hnext⟩ := hcode.single rfl
  obtain ⟨hslot, -⟩ := List.getElem?_eq_some_iff.mp hname
  have hread : names[i.first.toNat]? = some name := by
    rw [hfirst (by decide), UInt32.toNat_ofNat', Nat.mod_eq_of_lt (by omega)]
    exact hname
  rw [← hoffset, ← hnext]
  exact (performs_loadLocal hop hholds hread hroom).yields (.refl m) (Program.fetch_of_mem hi) hholds hroom

/-- An operation without operands in the code yields the result that it is shown to have. -/
theorem yields_plain {op : Opcode} {result : Except Fault Value}
    (hcode : program.Carries place position [.plain op]) (htarget : op.hasTarget = false)
    (hresult : ∀ i : Instruction, i.op = op → Performs program env i m base.stack.depth result)
    (habove : Above base m) (hholds : base.stack.Holds names locals)
    (hroom : base.stack.depth < base.stack.capacity) :
    Yields program env validate base (place position) 1 (place (position + 1)) m result := by
  obtain ⟨i, hi, hop, -, hoffset, hnext⟩ := hcode.single htarget
  rw [← hoffset, ← hnext]
  exact (hresult i hop).yields habove (Program.fetch_of_mem hi) hholds hroom

theorem yields_unary (op : UnaryOp) {x : Value} (hcode : program.Carries place position [.plain op.opcode])
    (hinner : base.Pushes x m) (hholds : base.stack.Holds names locals)
    (hroom : base.stack.depth < base.stack.capacity) :
    Yields program env validate base (place position) 1 (place (position + 1)) m (op.apply x) := by
  refine yields_plain hcode (by cases op <;> rfl) (fun i hop => ?_) hinner.toAbove hholds hroom
  rw [← hinner.top]
  exact performs_unary op hop hinner.depth (hinner.capacity ▸ hroom)

theorem yields_arrayLength {x : Value} (hcode : program.Carries place position [.plain .arrayLength])
    (hinner : base.Pushes x m) (hholds : base.stack.Holds names locals)
    (hroom : base.stack.depth < base.stack.capacity) :
    Yields program env validate base (place position) 1 (place (position + 1)) m x.count := by
  refine yields_plain hcode rfl (fun i hop => ?_) hinner.toAbove hholds hroom
  rw [← hinner.top]
  exact performs_arrayLength hop hinner.depth (hinner.capacity ▸ hroom)

/-- The right operand was computed first, so the left one is on top. -/
theorem yields_binary (op : BinaryOp) {mid : Machine} {x y : Value}
    (hcode : program.Carries place position [.plain op.opcode]) (hright : base.Pushes y mid)
    (hleft : mid.Pushes x m) (hholds : base.stack.Holds names locals)
    (hroom : base.stack.depth < base.stack.capacity) :
    Yields program env validate base (place position) 1 (place (position + 1)) m (op.apply x y) := by
  have hdepth := hright.depth
  have habove := hright.toAbove.trans hleft.toAbove
  refine yields_plain hcode (by cases op <;> rfl) (fun i hop => ?_) habove hholds hroom
  have htop : Slots.read m.stack.slots (base.stack.depth + 1) = x := hdepth ▸ hleft.top
  have hbelow : Slots.read m.stack.slots base.stack.depth = y :=
    (hleft.below _ (by omega)).trans hright.top
  rw [← htop, ← hbelow]
  exact performs_binary op hop (by rw [hleft.depth, hdepth]) (habove.capacity ▸ hroom)

end Machine

namespace Expression

open Machine

variable {program : Program} {env : Environment} {validate : Bool} {place : Nat → Nat}
  {pool : ConstantPool} {names : List String} {locals : String → Value}

theorem drafted_length {l : Bool} {p : Nat} {span : Span} {n : Node} {c d : Compilation} {code : Code}
    (h : Drafted l p (.node (.call span "len" [n])) c code d) :
    ∃ inner, Drafted l p (.node n) c inner d ∧ code = inner ++ [.plain .arrayLength] := by
  cases h with
  | literal hn => cases hn
  | call hname => cases hname
  | intrinsic hname harguments =>
    cases hname
    cases harguments with
    | nodesCons hinner hnil =>
      cases hnil
      exact ⟨_, hinner, by rw [List.append_nil]⟩

/-- The code of an expression yields its value or its fault. -/
theorem yields (e : Expression) {l : Bool} {p : Nat} {c d : Compilation} {code : Code}
    (hprogram : program.constants = pool.values) (hsound : pool.Sound) (hlength : names.length ≤ 510)
    (hdrafted : Drafted l p (.node e.node) c code d) (hgrows : d.constants.Grows pool)
    (hlocals : d.locals <+: names) (hcode : program.Carries place p code) {m : Machine}
    (hholds : m.stack.Holds names locals) (hroom : m.stack.depth + e.waiting < m.stack.capacity) :
    Yields program env validate m (place p) code.length (place (p + code.length)) m
      (e.evaluate (m.memory program) locals) := by
  -- The base is generalized with the position: the left operand runs on a machine that already has the
  -- right one.
  induction e generalizing l p c d code m with
  | number span value =>
    cases hdrafted with
    | literal hn hinsert =>
      cases hn
      have hget := hgrows.get? (ConstantPool.get?_insert? rfl hinsert)
      exact yields_constant hprogram hsound hget hcode hholds hroom
  | bool span value =>
    cases hdrafted with
    | literal hn hinsert =>
      cases hn
      have hget := hgrows.get? (ConstantPool.get?_insert? rfl hinsert)
      exact yields_constant hprogram hsound hget hcode hholds hroom
  | text span value =>
    cases hdrafted with
    | literal hn hinsert =>
      cases hn
      obtain ⟨v, hget, hfind⟩ := ConstantPool.find?_insertText? m.heap hinsert hgrows hsound
      have hliteral : (m.memory program).literal value = v := by
        rw [Memory.literal, Machine.memory, hprogram, hfind]
        rfl
      rw [evaluate, hliteral]
      exact yields_constant hprogram hsound hget hcode hholds hroom
  | read span name =>
    cases hdrafted with
    | literal hn => cases hn
    | read hslot =>
      obtain ⟨-, hname⟩ := findLocal_ok hslot
      obtain ⟨more, rfl⟩ := hlocals
      obtain ⟨hlt, -⟩ := List.getElem?_eq_some_iff.mp hname
      rw [← List.getElem?_append_left hlt] at hname
      exact yields_local hname hlength hcode hholds hroom
  | unary span op inner ih =>
    cases hdrafted with
    | literal hn => cases hn
    | unary hinner =>
      have hfirst := ih hinner hgrows hlocals hcode.front hholds hroom
      rw [List.length_append, ← Nat.add_assoc]
      exact hfirst.bind fun x m₁ hm₁ => yields_unary op hcode.back hm₁ hholds (by omega)
  | binary span op left right ihleft ihright =>
    cases hdrafted with
    | literal hn => cases hn
    | binary hright hleft =>
      rename_i second _ first
      simp only [waiting] at hroom
      have hsecond := ihright hright (hleft.grows.constants.trans hgrows)
        (hleft.grows.locals.trans hlocals) hcode.front.front hholds (by omega)
      rw [List.append_assoc] at hcode
      have hend : p + (second ++ first ++ [Item.plain op.opcode]).length
          = p + second.length + first.length + 1 := by
        simp only [List.length_append, List.length_cons, List.length_nil]
        omega
      rw [hend, List.append_assoc, List.length_append, List.length_append]
      refine hsecond.bind fun y m₁ hm₁ => ?_
      have hdepth := hm₁.depth
      have hcapacity := hm₁.capacity
      have hfirst := ihleft hleft hgrows hlocals hcode.back.front (hm₁.holds hholds) (by omega)
      have hmemory : m₁.memory program = m.memory program := by rw [memory, hm₁.heap, memory]
      rw [hmemory] at hfirst
      exact hfirst.bind fun x m₂ hm₂ => yields_binary op hcode.back.back hm₁ hm₂ hholds (by omega)
  | length span inner ih =>
    obtain ⟨code, hinner, rfl⟩ := drafted_length hdrafted
    have hfirst := ih hinner hgrows hlocals hcode.front hholds hroom
    rw [List.length_append, ← Nat.add_assoc]
    exact hfirst.bind fun x m₁ hm₁ => yields_arrayLength hcode.back hm₁ hholds (by omega)

/-- The constant of a text literal reads as the text. -/
theorem text?_literal (e : Expression) {l : Bool} {p : Nat} {c d : Compilation} {code : Code}
    (hsound : pool.Sound) (hdrafted : Drafted l p (.node e.node) c code d)
    (hgrows : d.constants.Grows pool) (heap : Heap) :
    ∀ text ∈ e.texts, Memory.text? ⟨pool.values, heap⟩ (Memory.literal ⟨pool.values, heap⟩ text)
      = some text := by
  induction e generalizing l p c d code with
  | number | bool | read => simp [texts]
  | text span value =>
    intro text htext
    cases List.mem_singleton.mp htext
    cases hdrafted with
    | literal hn hinsert =>
      cases hn
      obtain ⟨v, -, hfind⟩ := ConstantPool.find?_insertText? heap hinsert hgrows hsound
      have hreads := Array.find?_some hfind
      rw [Memory.literal, hfind]
      exact eq_of_beq hreads
  | unary span op inner ih =>
    cases hdrafted with
    | literal hn => cases hn
    | unary hinner => exact ih hinner hgrows
  | binary span op left right ihleft ihright =>
    cases hdrafted with
    | literal hn => cases hn
    | binary hright hleft =>
      intro text htext
      rcases List.mem_append.mp htext with hmem | hmem
      · exact ihleft hleft hgrows text hmem
      · exact ihright hright (hleft.grows.constants.trans hgrows) text hmem
  | length span inner ih =>
    obtain ⟨_, hinner, -⟩ := drafted_length hdrafted
    exact ih hinner hgrows

end Expression

/-! ### The code of sites -/

namespace Compilation

open Machine

variable {root : Node} {program : Program} {c : Compilation} {segments : List Segment} {linked : Linked}

theorem Layout.getElem?_instructions (h : Layout root program c segments linked) {position : Nat}
    {draft : Draft} (hdraft : (c.entryDraft :: c.code.map c.settle)[position]? = some draft) :
    program.instructions[position]? = some (linked.placed position draft) := by
  rw [Program.instructions, h.code, Linked.walk_eq_mapIdx h.link, List.getElem?_mapIdx]
  simp [hdraft]

theorem Layout.nextOffset_placed (h : Layout root program c segments linked) {position : Nat}
    {draft : Draft} (hdraft : (c.entryDraft :: c.code.map c.settle)[position]? = some draft) :
    (linked.placed position draft).nextOffset = linked.offsets.getD (position + 1) 0 :=
  Linked.nextOffset_placed h.link (by simpa using hdraft)

/-- Code that stands in the code of the script stands in the program. -/
theorem Layout.carries (h : Layout root program c segments linked) {position : Nat} {code : Code}
    (hstands : Stands position code 1 c.code) :
    program.Carries (fun k => linked.offsets.getD k 0) position code := by
  intro k op first hitem htarget
  have hcode := hstands.getElem? hitem (by simp)
  obtain ⟨before, -, -, hposition, -, -⟩ := hstands
  have hdraft : (c.entryDraft :: c.code.map c.settle)[position + k]? = some ⟨op, first, 0⟩ := by
    rw [show position + k = position - 1 + k + 1 by omega, List.getElem?_cons_succ, List.getElem?_map,
      hcode]
    rfl
  have hi := h.getElem?_instructions hdraft
  exact ⟨_, List.mem_of_getElem? hi, rfl, fun hcount => Linked.first_placed _ _ _ _ hcount htarget, rfl,
    h.nextOffset_placed hdraft⟩

/-- Every expression inside a function of a script that compiles has its own code in the program. A
run that comes to the first instruction of this code, with the locals of the function in the current
frame, with room on the stack and with enough cycles left, comes to the instruction right behind it
with the value of the expression on top of an unchanged machine, or fails as the evaluation does. -/
theorem compiled_expression_evaluates {c : Compilation} {root : Node} {program : Program}
    (hc : Prepared c) (hcompile : c.compile root = .ok program) (e : Expression) :
    (∀ span name parameters body, .function span name parameters body ∈ root.topLevel →
      (Part.node body).Contains (.node e.node) →
      ∃ names t, Site c root names t ∧ t.part = .node e.node) ∧
    ∀ names t, Site c root names t → t.part = .node e.node →
      ∃ code d first next, t.generate = .ok code d ∧
        program.instructions[t.position]? = some first ∧
        program.instructions[t.position + code.length]? = some next ∧
        ∀ (env : Environment) (validate : Bool) (locals : String → Value) (m : Machine),
          m.stack.Holds names locals → m.stack.depth + e.waiting < m.stack.capacity →
          (∀ text ∈ e.texts,
            (m.memory program).text? ((m.memory program).literal text) = some text) ∧
          Yields program env validate m first.offset code.length next.offset m
            (e.evaluate (m.memory program) locals) := by
  refine ⟨fun span name parameters body hfunction hinside =>
    exists_site hc hcompile hfunction hinside, fun names t hsite hpart => ?_⟩
  obtain ⟨code, d, hdrafted, hstands, hlt, hextends, hlocals, hlength⟩ := hsite.stands hc hcompile
  obtain ⟨segments, linked, hlayout⟩ := exists_layout hc hcompile
  have hgenerate := hdrafted.generate
  rw [hpart] at hdrafted
  have hinstruction (k : Nat) (hk : k < 1 + (declaration c root).code.length) :
      ∃ i, program.instructions[k]? = some i ∧ i.offset = linked.offsets.getD k 0 := by
    have hk' : k < ((declaration c root).entryDraft
        :: (declaration c root).code.map (declaration c root).settle).length := by
      rw [List.length_cons, List.length_map]
      omega
    exact ⟨_, hlayout.getElem?_instructions (List.getElem?_eq_getElem hk'), rfl⟩
  obtain ⟨first, hfirst, hplace⟩ := hinstruction t.position (by omega)
  obtain ⟨next, hnext, hplace'⟩ := hinstruction (t.position + code.length) hlt
  refine ⟨code, d, first, next, hgenerate, hfirst, hnext, fun env validate locals m hholds hroom => ?_⟩
  have hsound := hlayout.laid.constants
  refine ⟨?_, ?_⟩
  · rw [memory, hlayout.constants]
    exact e.text?_literal hsound hdrafted hextends.constants m.heap
  · rw [hplace, hplace']
    exact e.yields hlayout.constants hsound hlength hdrafted hextends.constants hlocals
      (hlayout.carries hstands) hholds hroom

/-- Whether the flag is off and the text is "ab". -/
def pickExpression : Expression :=
  .binary {} .and (.unary {} .not (.read {} "flag"))
    (.binary {} .equal (.text {} "ab") (.read {} "x"))

def pickBody : Node :=
  .result {} (some pickExpression.node)

def pickScript : Node :=
  .block {} [.function {} "pick" ["x", "flag"] pickBody]

/-- A machine inside a call of the function, with the array of the text and a flag. -/
def pickMachine (flag : Value) : Machine where
  stack := ⟨#[.frame ⟨-1, 2, 0⟩, .array (.constant 0) 2, flag, .nothing, .nothing], 3, some 0⟩
  heap := default

theorem compiles_pickScript : ∃ program, ({} : Compilation).compile pickScript = .ok program ∧
    program.constants = #[.char 'a', .char 'b', .array (.constant 0) 2] := by
  have hconstants : (({} : Compilation).compile pickScript).toOption.map Program.constants
      = some #[.char 'a', .char 'b', .array (.constant 0) 2] := by cbv
  cases hcompile : ({} : Compilation).compile pickScript with
  | ok program =>
    rw [hcompile] at hconstants
    exact ⟨program, rfl, Option.some.inj hconstants⟩
  | error e =>
    rw [hcompile] at hconstants
    cases hconstants

def Task.drafted? (t : Task) : Option (Code × List String) :=
  match t.generate with
  | .ok code d => some (code, d.locals)
  | .error _ _ => none

/-- A part of the first function of a script, with the locals that the body of the function has in
the end. -/
theorem site_of_drafted {c : Compilation} {root : Node} {span : Span} {name : String}
    {parameters names : List String} {body : Node} {rest : List Node} {t : Task}
    (hroot : root.topLevel = .function span name parameters body :: rest)
    (hlocals : (bodyTask c [] name parameters body).drafted?.map Prod.snd = some names)
    (hcalls : Relation.ReflTransGen Task.Calls (bodyTask c [] name parameters body) t) :
    Site c root names t := by
  cases hbody : (bodyTask c [] name parameters body).generate with
  | ok code d =>
    rw [Task.drafted?, hbody] at hlocals
    have hfirst : root.topLevel = [] ++ .function span name parameters body :: rest := hroot
    have hsite : Site c root d.locals t := .inside hfirst hbody hcalls
    rwa [show d.locals = names from Option.some.inj hlocals] at hsite
  | error e d =>
    rw [Task.drafted?, hbody] at hlocals
    cases hlocals

theorem site_pickScript : Site {} pickScript ["x", "flag"]
    ⟨false, 2, .node pickExpression.node, entering {} "pick" ["x", "flag"]⟩ :=
  site_of_drafted rfl (by cbv) (.single .result)

theorem holds_pickMachine (flag : Value) : (pickMachine flag).stack.Holds ["x", "flag"]
    fun name => if name = "x" then .array (.constant 0) 2 else flag := by
  refine ⟨0, ⟨-1, 2, 0⟩, rfl, rfl, rfl, Nat.lt_succ_self 2, fun k name hname => ?_⟩
  match k, hname with
  | 0, rfl => rfl
  | 1, rfl => rfl

/-- The run leaves true if the flag is off, and stops at the flag if that is no bool. -/
theorem compiled_expression_evaluates_sample : ∃ program first next,
    ({} : Compilation).compile pickScript = .ok program ∧
    program.instructions[2]? = some first ∧ program.instructions[8]? = some next ∧ ∀ env,
      (∃ m', (pickMachine (.bool false)).Pushes (.bool true) m' ∧ ∀ limit rest,
        runFor program env false limit (6 + rest) first.offset (pickMachine (.bool false))
          = runFor program env false limit rest next.offset m') ∧
      ∃ m', ∀ limit rest,
        runFor program env false limit (6 + rest) first.offset (pickMachine .nothing)
          = .error (.typeMismatch .not "bool" "none") m' := by
  obtain ⟨program, hcompile, hconstants⟩ := compiles_pickScript
  obtain ⟨code, d, first, next, hcode, hfirst, hnext, hruns⟩ :=
    (compiled_expression_evaluates .start hcompile pickExpression).2 _ _ site_pickScript rfl
  have hlength : (Task.drafted? ⟨false, 2, .node pickExpression.node,
      entering {} "pick" ["x", "flag"]⟩).map (·.1.length) = some 6 := by cbv
  rw [Task.drafted?, hcode] at hlength
  rw [show code.length = 6 from Option.some.inj hlength] at hnext hruns
  have hmemory (flag : Value) : (pickMachine flag).memory program
      = ⟨#[.char 'a', .char 'b', .array (.constant 0) 2], default⟩ := by
    rw [memory, hconstants]
    rfl
  refine ⟨program, first, next, hcompile, hfirst, hnext, fun env => ?_⟩
  have hoff := (hruns env false _ _ (holds_pickMachine (.bool false)) (by decide)).2
  have hwrong := (hruns env false _ _ (holds_pickMachine .nothing) (by decide)).2
  rw [hmemory] at hoff hwrong
  have hvalue : pickExpression.evaluate ⟨#[.char 'a', .char 'b', .array (.constant 0) 2], default⟩
      (fun name => if name = "x" then .array (.constant 0) 2 else .bool false) = .ok (.bool true) := by
    cbv
  have hfault : pickExpression.evaluate ⟨#[.char 'a', .char 'b', .array (.constant 0) 2], default⟩
      (fun name => if name = "x" then .array (.constant 0) 2 else .nothing)
      = .error (.typeMismatch .not "bool" "none") := by
    cbv
  rw [hvalue] at hoff
  rw [hfault] at hwrong
  obtain ⟨failed, m', hfails⟩ := hwrong
  exact ⟨hoff, m', hfails⟩

end Compilation

end ScriptMachine
