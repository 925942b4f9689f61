import Mathlib
import ScriptMachine.Proofs.Machine.Steering
import ScriptMachine.Proofs.Script.Expression

/-!
# Compiled code with its jumps

The code that a part of a script gets stands at its own positions of the program, and a jump in it leads
to the place of the position that it names. What is said of a run through compiled code speaks of
positions; the place of a position is where its instruction begins.
-/

namespace ScriptMachine

open Compilation

namespace Program

/-- Where the instruction at a position begins; behind the last one the code ends. -/
def place (program : Program) (position : Nat) : Nat :=
  ((program.instructions[position]?).map Instruction.offset).getD program.code.size

/-- From a position on, the program has the instructions of drafted code. A target is the place of the
position that the draft names. -/
def Renders (program : Program) (position : Nat) (code : Code) : Prop :=
  ∀ (k : Nat) (draft : Draft), code[k]? = some (.op draft) →
    ∃ i, program.instructions[position + k]? = some i ∧ i.op = draft.op ∧
      i.nextOffset = program.place (position + k + 1) ∧
      (1 ≤ draft.op.operandCount → draft.op.hasTarget = false → i.first = draft.first) ∧
      (draft.op.hasTarget = true → draft.first.toNat < program.instructions.length →
        i.first.toNat = program.place draft.first.toNat)

variable {program : Program} {position : Nat} {before after code : Code} {op : Opcode}
  {item : Item} {i : Instruction}

theorem place_eq (h : program.instructions[position]? = some i) : program.place position = i.offset := by
  rw [place, h]
  rfl

theorem place_lt (h : position < program.instructions.length) :
    program.place position < program.code.size := by
  rw [place_eq (List.getElem?_eq_getElem h)]
  exact offset_lt_size (List.getElem_mem h)

theorem Renders.front (h : program.Renders position (before ++ after)) : program.Renders position before := by
  intro k draft hitem
  obtain ⟨hk, -⟩ := List.getElem?_eq_some_iff.mp hitem
  exact h k draft (by rwa [List.getElem?_append_left hk])

theorem Renders.back (h : program.Renders position (before ++ after)) :
    program.Renders (position + before.length) after := by
  intro k draft hitem
  have hmoved := h (before.length + k) draft
    (by rwa [List.getElem?_append_right (Nat.le_add_right _ _), Nat.add_sub_cancel_left])
  rwa [← Nat.add_assoc] at hmoved

theorem Renders.tail (h : program.Renders position (item :: code)) :
    program.Renders (position + 1) code := by
  have hsplit : program.Renders position ([item] ++ code) := h
  exact hsplit.back

def Has (program : Program) (op : Opcode) (position : Nat) : Prop :=
  ∃ i ∈ program.instructions, i.op = op ∧ i.offset = program.place position ∧
    i.nextOffset = program.place (position + 1)

/-- The instruction at a position has an operation and a plain number as its operand. -/
def Takes (program : Program) (op : Opcode) (position operand : Nat) : Prop :=
  ∃ i ∈ program.instructions, i.op = op ∧ i.offset = program.place position ∧
    i.nextOffset = program.place (position + 1) ∧ i.first.toNat = operand

/-- The instruction at a position has another position as its target. -/
def Leads (program : Program) (op : Opcode) (position target : Nat) : Prop :=
  ∃ i ∈ program.instructions, i.op = op ∧ i.offset = program.place position ∧
    i.nextOffset = program.place (position + 1) ∧ i.first.toNat = program.place target ∧
    program.place target < program.code.size

theorem Renders.has (h : program.Renders position (.plain op :: code)) : program.Has op position := by
  obtain ⟨i, hi, hop, hnext, -⟩ := h 0 _ rfl
  exact ⟨i, List.mem_of_getElem? hi, hop, (place_eq hi).symm, hnext⟩

theorem Renders.takes {operand : Nat} (h : program.Renders position (.withOperand op operand :: code))
    (hcount : 1 ≤ op.operandCount) (htarget : op.hasTarget = false) (hlt : operand < 0x100000000) :
    program.Takes op position operand := by
  obtain ⟨i, hi, hop, hnext, hfirst, -⟩ := h 0 _ rfl
  refine ⟨i, List.mem_of_getElem? hi, hop, (place_eq hi).symm, hnext, ?_⟩
  rw [hfirst hcount htarget, UInt32.toNat_ofNat']
  exact Nat.mod_eq_of_lt hlt

theorem Renders.leads {target : Nat} (h : program.Renders position (.withOperand op target :: code))
    (hop : op.hasTarget = true) (hlt : target < program.instructions.length)
    (hsize : program.instructions.length < 0x100000000) : program.Leads op position target := by
  obtain ⟨i, hi, hi', hnext, -, hfirst⟩ := h 0 _ rfl
  have htarget : (UInt32.ofNat target).toNat = target := by
    rw [UInt32.toNat_ofNat']
    exact Nat.mod_eq_of_lt (Nat.lt_trans hlt hsize)
  refine ⟨i, List.mem_of_getElem? hi, hi', (place_eq hi).symm, hnext, ?_, place_lt hlt⟩
  rw [hfirst hop (by rwa [htarget]), htarget]

theorem Renders.carries (h : program.Renders position code) :
    program.Carries program.place position code := by
  intro k op first hitem htarget
  obtain ⟨i, hi, hop, hnext, hfirst, -⟩ := h k _ hitem
  exact ⟨i, List.mem_of_getElem? hi, hop, fun hcount => hfirst hcount htarget, (place_eq hi).symm, hnext⟩

end Program

namespace Compilation

variable {c final : Compilation} {root : Node} {program : Program} {segments : List Segment}
  {linked : Linked} {names : List String} {t : Task} {position : Nat} {code : Code}

theorem Layout.length_instructions (h : Layout root program final segments linked) :
    program.instructions.length = 1 + final.code.length := by
  rw [Program.instructions, h.code, Linked.walk_eq_mapIdx h.link]
  simp [Nat.add_comm]

theorem Layout.length_lt (h : Layout root program final segments linked) :
    program.instructions.length < 0x100000000 := by
  have hsize := Assembly.size_lt h.link
  rw [h.length_instructions]
  simpa [Nat.add_comm] using hsize

theorem Layout.place_eq (h : Layout root program final segments linked)
    (hposition : position < program.instructions.length) :
    program.place position = linked.offsets.getD position 0 := by
  rw [h.length_instructions] at hposition
  have hdraft : position < (final.entryDraft :: final.code.map final.settle).length := by
    rw [List.length_cons, List.length_map]
    omega
  rw [Program.place_eq (h.getElem?_instructions (List.getElem?_eq_getElem hdraft))]
  rfl

/-- Code that stands in the code of the script, with more behind it, is in the program with its jumps. -/
theorem Layout.renders (h : Layout root program final segments linked)
    (hstands : Stands position code 1 final.code)
    (hlt : position + code.length < program.instructions.length) : program.Renders position code := by
  intro k draft hitem
  have hcode := hstands.getElem? hitem (by simp)
  obtain ⟨before, -, -, hposition, -, -⟩ := hstands
  obtain ⟨hk, -⟩ := List.getElem?_eq_some_iff.mp hitem
  have hdraft : (final.entryDraft :: final.code.map final.settle)[position + k]? = some draft := by
    rw [show position + k = position - 1 + k + 1 by omega, List.getElem?_cons_succ, List.getElem?_map,
      hcode]
    rfl
  refine ⟨_, h.getElem?_instructions hdraft, rfl, ?_, fun hcount htarget => ?_, fun htarget hin => ?_⟩
  · rw [h.nextOffset_placed hdraft, h.place_eq (by omega)]
  · obtain ⟨op, first, second⟩ := draft
    exact Linked.first_placed linked _ first second hcount htarget
  · obtain ⟨op, first, second⟩ := draft
    have hplaced := Linked.target_placed h.link (position + k) second htarget first.toNat_lt
    rw [UInt32.ofNat_toNat] at hplaced
    rw [hplaced, h.place_eq hin]

/-- The code that a part of a function gets takes the positions from one up to another. -/
def Spans (c : Compilation) (root : Node) (names : List String) (part : Part) (start stop : Nat) : Prop :=
  ∃ t code d, Site c root names t ∧ t.part = part ∧ t.position = start ∧ t.generate = .ok code d ∧
    stop = start + code.length

theorem Spans.start_le {part : Part} {start stop : Nat} (h : Spans c root names part start stop) :
    start ≤ stop := by
  obtain ⟨_, code, _, _, _, _, _, rfl⟩ := h
  exact Nat.le_add_right _ _

theorem Site.tail {t' : Task} (h : Site c root names t) (hcall : t.Calls t') : Site c root names t' := by
  obtain ⟨hroot, hbody, hcalls⟩ := h
  exact .inside hroot hbody (hcalls.tail hcall)

theorem Site.spans (h : Site c root names t) {d : Compilation}
    (hdrafted : Drafted t.inLoop t.position t.part t.state code d) :
    Spans c root names t.part t.position (t.position + code.length) :=
  ⟨t, code, d, h, rfl, rfl, hdrafted.generate, rfl⟩

/-- What is known of the code of a site: it is in the program with more behind it, and its locals and
constants are among those of the function and of the program. -/
structure Sited (program : Program) (names : List String) (position : Nat) (code : Code)
    (d : Compilation) : Prop where
  renders : program.Renders position code
  lt : position + code.length < program.instructions.length
  length_lt : program.instructions.length < 0x100000000
  locals : d.locals <+: names
  names_le : names.length ≤ 510
  constants : ∃ pool : ConstantPool, pool.Sound ∧ d.constants.Grows pool ∧ program.constants = pool.values

theorem Site.sited (h : Site c root names t) (hc : Prepared c) (hcompile : c.compile root = .ok program) :
    ∃ code d, Drafted t.inLoop t.position t.part t.state code d ∧
      Sited program names t.position code d := by
  obtain ⟨code, d, hdrafted, hstands, hlt, hextends, hlocals, hlength⟩ := h.stands hc hcompile
  obtain ⟨segments, linked, hlayout⟩ := exists_layout hc hcompile
  rw [← hlayout.length_instructions] at hlt
  exact ⟨code, d, hdrafted, hlayout.renders hstands hlt, hlt, hlayout.length_lt, hlocals, hlength,
    _, hlayout.laid.constants, hextends.constants, hlayout.constants⟩

end Compilation

/-! ### Runs through expressions -/

def Item.IsStraight (item : Item) : Prop :=
  ∃ op first, item = .op ⟨op, first, 0⟩ ∧ op.isStraight = true

theorem isStraight_withOperand {op : Opcode} (operand : Nat) (hop : op.isStraight = true) :
    (Item.withOperand op operand).IsStraight :=
  ⟨op, _, rfl, hop⟩

theorem isStraight_plain {op : Opcode} (hop : op.isStraight = true) : (Item.plain op).IsStraight :=
  ⟨op, 0, rfl, hop⟩

theorem Opcode.hasTarget_of_isStraight {op : Opcode} (h : op.isStraight = true) : op.hasTarget = false := by
  cases op <;> first | rfl | cases h

theorem Expression.isStraight (e : Expression) {l : Bool} {p : Nat} {c d : Compilation} {code : Code}
    (hdrafted : Drafted l p (.node e.node) c code d) : ∀ item ∈ code, item.IsStraight := by
  induction e generalizing l p c d code with
  | number | bool | text =>
    cases hdrafted with
    | literal hn hinsert =>
      intro item hitem
      cases List.mem_singleton.mp hitem
      exact isStraight_withOperand _ rfl
  | read span name =>
    cases hdrafted with
    | literal hn => cases hn
    | read hslot =>
      intro item hitem
      cases List.mem_singleton.mp hitem
      exact isStraight_withOperand _ rfl
  | unary span op inner ih =>
    cases hdrafted with
    | literal hn => cases hn
    | unary hinner =>
      intro item hitem
      rcases List.mem_append.mp hitem with hmem | hmem
      · exact ih hinner item hmem
      · cases List.mem_singleton.mp hmem
        exact isStraight_plain (by cases op <;> rfl)
  | binary span op left right ihleft ihright =>
    cases hdrafted with
    | literal hn => cases hn
    | binary hright hleft =>
      intro item hitem
      simp only [List.mem_append, List.mem_singleton] at hitem
      rcases hitem with (hmem | hmem) | rfl
      · exact ihright hright item hmem
      · exact ihleft hleft item hmem
      · exact isStraight_plain (by cases op <;> rfl)
  | length span inner ih =>
    obtain ⟨code, hinner, rfl⟩ := drafted_length hdrafted
    intro item hitem
    rcases List.mem_append.mp hitem with hmem | hmem
    · exact ih hinner item hmem
    · cases List.mem_singleton.mp hmem
      exact isStraight_plain rfl

namespace Machine

variable {program : Program} {env : Environment} {validate : Bool} {m : Machine}

/-- The places of the instructions from one position up to another. -/
def placesFrom (program : Program) (start stop : Nat) : List Nat :=
  (List.range' start (stop - start)).map program.place

theorem placesFrom_self (program : Program) (position : Nat) : placesFrom program position position = [] := by
  rw [placesFrom, Nat.sub_self]
  rfl

theorem placesFrom_succ {start stop : Nat} (h : start < stop) :
    placesFrom program start stop = program.place start :: placesFrom program (start + 1) stop := by
  rw [placesFrom, placesFrom, show stop - start = stop - (start + 1) + 1 by omega, List.range'_succ,
    List.map_cons]

theorem placesFrom_snoc {start stop : Nat} (h : start ≤ stop) :
    placesFrom program start (stop + 1) = placesFrom program start stop ++ [program.place stop] := by
  rw [placesFrom, placesFrom, show stop + 1 - start = stop - start + 1 by omega, List.range'_concat,
    List.map_append, Nat.one_mul, Nat.add_sub_cancel' h]
  rfl

/-- A run through straight code passes its places in order, or fails. -/
theorem passes_straight {position : Nat} {code : Code} (env : Environment) (validate : Bool)
    (hcode : program.Carries program.place position code) (hstraight : ∀ item ∈ code, item.IsStraight)
    (m : Machine) :
    (∃ n, Passes program env validate (placesFrom program position (position + code.length))
      (program.place position) m (program.place (position + code.length)) n) ∨
    ∃ fault n, ∀ limit rest,
      runFor program env validate limit (code.length + rest) (program.place position) m = .error fault n := by
  induction code generalizing position m with
  | nil => exact .inl ⟨m, by rw [List.length_nil, Nat.add_zero, placesFrom_self]; exact .here⟩
  | cons item code ih =>
    obtain ⟨op, first, rfl, hop⟩ := hstraight item (List.mem_cons_self ..)
    obtain ⟨i, hi, hi', -, hoffset, hnext⟩ :=
      hcode 0 op first rfl (Opcode.hasTarget_of_isStraight hop)
    rw [Nat.add_zero] at hoffset hnext
    have hend : position + (Item.op ⟨op, first, 0⟩ :: code).length = position + 1 + code.length := by
      rw [List.length_cons]
      omega
    cases hcycle : cycle program env validate (program.place position) m with
    | error fault n =>
      refine .inr ⟨fault, n, fun limit rest => ?_⟩
      rw [List.length_cons, Nat.add_right_comm, runFor_succ, hcycle]
    | ok decision n =>
      have hgoes : decision = .goOn (program.place (position + 1)) := by
        rw [← hoffset] at hcycle
        rw [← hnext]
        exact cycle_straight hi (hi' ▸ hop) hcycle
      subst hgoes
      have hsplit : program.Carries program.place position ([.op ⟨op, first, 0⟩] ++ code) := hcode
      rcases ih hsplit.back (fun other hother => hstraight other (List.mem_cons_of_mem _ hother)) n with
        ⟨o, hpasses⟩ | ⟨fault, o, hfails⟩
      · refine .inl ⟨o, ?_⟩
        rw [hend, placesFrom_succ (by omega)]
        exact .next hcycle hpasses
      · refine .inr ⟨fault, o, fun limit rest => ?_⟩
        rw [List.length_cons, Nat.add_right_comm, runFor_succ, hcycle]
        exact hfails limit rest

/-- Straight code that yields a value is passed from its first place to its last. -/
theorem Yields.passes {position next : Nat} {code : Code} {base : Machine} {value : Value}
    (h : Yields program env validate base (program.place position) code.length next m (.ok value))
    (hcode : program.Carries program.place position code) (hstraight : ∀ item ∈ code, item.IsStraight) :
    ∃ n, base.Pushes value n ∧
      Passes program env validate (placesFrom program position (position + code.length))
        (program.place position) m (program.place (position + code.length)) n := by
  obtain ⟨n, hpushes, hrun⟩ := h
  have hlength : (placesFrom program position (position + code.length)).length = code.length := by
    simp [placesFrom]
  rcases passes_straight env validate hcode hstraight m with
    ⟨o, hpasses⟩ | ⟨fault, o, hfails⟩
  · -- With no cycles left both descriptions of the run end on the machine that they have come to.
    have hstop := hpasses.runFor_eq 0 0
    rw [hlength, hrun] at hstop
    cases hstop
    exact ⟨n, hpushes, hpasses⟩
  · -- A run that fails does so for every limit alike, so it does not fail for want of cycles.
    have hzero := (hrun 0 0).symm.trans (hfails 0 0)
    have hone := (hrun 1 0).symm.trans (hfails 1 0)
    cases hzero
    cases hone

end Machine

namespace Compilation

open Machine

variable {c : Compilation} {root : Node} {program : Program} {env : Environment} {validate : Bool}
  {m : Machine} {names : List String} {locals : String → Value}

/-- The code of an expression with a value is passed from its first place to its last, and leaves the
value on the stack. -/
theorem Spans.evaluates {e : Expression} {start stop : Nat} {value : Value}
    (h : Spans c root names (.node e.node) start stop) (hc : Prepared c)
    (hcompile : c.compile root = .ok program) (hholds : m.stack.Holds names locals)
    (hroom : m.stack.depth + e.waiting < m.stack.capacity)
    (hvalue : e.evaluate (m.memory program) locals = .ok value) :
    ∃ n, m.Pushes value n ∧
      Passes program env validate (placesFrom program start stop) (program.place start) m
        (program.place stop) n := by
  obtain ⟨t, code, d, hsite, hpart, rfl, hgenerate, rfl⟩ := h
  obtain ⟨code', d', hdrafted, hsited⟩ := hsite.sited hc hcompile
  cases hgenerate.symm.trans hdrafted.generate
  rw [hpart] at hdrafted
  obtain ⟨pool, hsound, hgrows, hconstants⟩ := hsited.constants
  have hcarries := hsited.renders.carries
  have hyields : Yields program env validate m _ _ _ m _ := e.yields hconstants hsound hsited.names_le
    hdrafted hgrows hsited.locals hcarries hholds hroom
  rw [hvalue] at hyields
  exact hyields.passes hcarries (e.isStraight hdrafted)

end Compilation

end ScriptMachine
