import Mathlib
import ScriptMachine.Proofs.Script.Growth

/-!
# The rules of code generation

A compilation that ends without faults has drafted every node by one of the rules below. The rules
say which code a node gets at a position and in which state they leave the compilation; they are the
only way in which the rest of the theory looks into `Compilation.node`.
-/

namespace ScriptMachine

namespace Compilation

open Outcome

/-- What the code of a rule is for: one node, nodes whose values stay on the stack, or statements. -/
inductive Part where
  | node (n : Node)
  | nodes (list : List Node)
  | statements (list : List Node)

abbrev Insertion := ConstantPool → Option (Nat × ConstantPool)

/-- The literals, each with the way its constant is added. -/
inductive Literal : Node → Insertion → Prop where
  | number (span : Span) (value : Number) : Literal (.number span value) (·.insert? (.number value))
  | bool (span : Span) (value : Bool) : Literal (.bool span value) (·.insert? (.bool value))
  | text (span : Span) (value : String) : Literal (.text span value) (·.insertText? value)

/-- The constant that holds the number of elements of an array literal. -/
def countValue (elements : List Node) : Value :=
  .number (.ofLength (.ofNat elements.length))

/-- The code of a statement with what it leaves on the stack dropped. -/
def dropResult (c : Compilation) (n : Node) (code : Code) : Code :=
  if c.leavesResult n then code ++ [.plain .pop1] else code

/-- Which code a part gets at a position, and the state that this leaves. -/
inductive Drafted : Bool → Nat → Part → Compilation → Code → Compilation → Prop where
  | literal {l p n insert c index pool} (hn : Literal n insert)
      (hinsert : insert c.constants = some (index, pool)) :
      Drafted l p (.node n) c [.withOperand .pushValue index] { c with constants := pool }
  | read {l p span name c slot} (hslot : findLocal span name c = .ok slot c) :
      Drafted l p (.node (.read span name)) c [.withOperand .loadLocal slot] c
  | declare {l p span name c slot c'} (hslot : declareLocal name c = .ok slot c') :
      Drafted l p (.node (.declare span name)) c [] c'
  | array {l p span elements c code d index pool} (helements : Drafted l p (.nodes elements) c code d)
      (hinsert : d.constants.insert? (countValue elements) = some (index, pool)) :
      Drafted l p (.node (.array span elements)) c
        (code ++ [.withOperand .pushValue index, .plain .makeArray]) { d with constants := pool }
  | block {l p span items c code c'} (hitems : Drafted l p (.statements items) c code c') :
      Drafted l p (.node (.block span items)) c code c'
  | lastBranch {l p span condition body next c test d code c'}
      (htest : Drafted l p (.node condition) c test d)
      (hbody : Drafted l (p + test.length + 1) (.node body) d code c')
      (hnext : continues next = false) :
      Drafted l p (.node (.branch span condition body next)) c
        (test ++ .withOperand .jumpIfFalse (p + test.length + 1 + code.length) :: code) c'
  | branch {l p span condition body next c test d code e rest c'}
      (htest : Drafted l p (.node condition) c test d)
      (hbody : Drafted l (p + test.length + 1) (.node body) d code e)
      (hnext : continues (some next) = true)
      (hrest : Drafted l (p + test.length + 1 + code.length + 1) (.node next) e rest c') :
      Drafted l p (.node (.branch span condition body (some next))) c
        (test ++ .withOperand .jumpIfFalse (p + test.length + 1 + code.length + 1) :: code
          ++ .withOperand .jump (p + test.length + 1 + code.length + 1 + rest.length) :: rest) c'
  | forEach {l p span name collection body c elements d slot e code c'}
      (helements : Drafted l p (.node collection) c elements d)
      (hslot : declareLocal name d = .ok slot e)
      (hbody : Drafted true (p + elements.length + 1 + 2) (.node body) e code c') :
      Drafted l p (.node (.forEach span name collection body)) c
        (elements
          ++ [.plain .makeIter, .withOperand .iterNext (p + elements.length + 1 + 2 + code.length + 1),
            .withOperand .storeLocal slot]
          ++ code.map (·.leaveTo (p + elements.length + 1 + 2 + code.length + 1))
          ++ [.withOperand .jump (p + elements.length + 1)]) c'
  | binary {l p span op left right c second d first c'}
      (hright : Drafted l p (.node right) c second d)
      (hleft : Drafted l (p + second.length) (.node left) d first c') :
      Drafted l p (.node (.binary span op left right)) c (second ++ first ++ [.plain op.opcode]) c'
  | unary {l p span op inner c code c'} (hinner : Drafted l p (.node inner) c code c') :
      Drafted l p (.node (.unary span op inner)) c (code ++ [.plain op.opcode]) c'
  | assign {l p span target value c code d slot c'} (hvalue : Drafted l p (.node value) c code d)
      (hslot : targetSlot target d = .ok slot c') :
      Drafted l p (.node (.assign span target value)) c (code ++ [.withOperand .storeLocal slot]) c'
  | resultValue {l p span value c code c'} (hvalue : Drafted l p (.node value) c code c') :
      Drafted l p (.node (.result span (some value))) c (code ++ [.plain .returnValue]) c'
  | resultNothing {l p span c} : Drafted l p (.node (.result span none)) c [.plain .returnNothing] c
  | leave {p span c} : Drafted true p (.node (.leave span)) c [.plain .pop1, .leave] c
  | intrinsic {l p span name arguments c op code c'}
      (hname : intrinsic? name = some (arguments.length, op))
      (harguments : Drafted l p (.nodes arguments) c code c') :
      Drafted l p (.node (.call span name arguments)) c (code ++ [.plain op]) c'
  | call {l p span name arguments c code d item c'} (hname : intrinsic? name = none)
      (harguments : Drafted l p (.nodes arguments) c code d)
      (hitem : callItem span name arguments.length d = .ok item c') :
      Drafted l p (.node (.call span name arguments)) c (code ++ [item]) c'
  | nodesNil {l p c} : Drafted l p (.nodes []) c [] c
  | nodesCons {l p first rest c code d more c'} (hfirst : Drafted l p (.node first) c code d)
      (hrest : Drafted l (p + code.length) (.nodes rest) d more c') :
      Drafted l p (.nodes (first :: rest)) c (code ++ more) c'
  | statementsNil {l p c} : Drafted l p (.statements []) c [] c
  | statementsCons {l p first rest c code d more c'} (hfirst : Drafted l p (.node first) c code d)
      (hrest : Drafted l (p + (d.dropResult first code).length) (.statements rest) d more c') :
      Drafted l p (.statements (first :: rest)) c (d.dropResult first code ++ more) c'

/-! ### Every compilation without faults follows the rules -/

theorem recover_eq_ok {action : Action Code} {c c' : Compilation} {code : Code}
    (h : recover action c = .ok code c') (herrors : c'.errors = []) : action c = .ok code c' := by
  unfold recover at h
  cases haction : action c with
  | ok result d =>
    simp only [haction] at h
    exact h
  | error e d =>
    simp only [haction] at h
    cases h
    simp [report] at herrors

theorem drafted_of_pushConstant {l : Bool} {p : Nat} {n : Node} {span : Span} {insert : Insertion}
    {c c' : Compilation} {code : Code} (hn : Literal n insert)
    (h : pushConstant span insert c = .ok code c') (herrors : c'.errors = []) :
    c.errors = [] ∧ Drafted l p (.node n) c code c' := by
  obtain ⟨index, pool, hinsert, rfl, rfl⟩ := pushConstant_eq_ok.mp h
  exact ⟨herrors, .literal hn hinsert⟩

mutual

theorem drafted_of_node (n : Node) {l : Bool} {p : Nat} {c c' : Compilation} {code : Code}
    (h : node l p n c = .ok code c') (herrors : c'.errors = []) :
    c.errors = [] ∧ Drafted l p (.node n) c code c' := by
  cases n with
  | number span value =>
    rw [node] at h
    exact drafted_of_pushConstant (.number span value) h herrors
  | bool span value =>
    rw [node] at h
    exact drafted_of_pushConstant (.bool span value) h herrors
  | text span value =>
    rw [node] at h
    exact drafted_of_pushConstant (.text span value) h herrors
  | read span name =>
    rw [node] at h
    obtain ⟨slot, d, hslot, h⟩ := bind_eq_ok.mp h
    obtain ⟨rfl, rfl⟩ := pure_eq_ok.mp h
    obtain ⟨rfl, -⟩ := findLocal_ok hslot
    exact ⟨herrors, .read hslot⟩
  | declare span name =>
    rw [node] at h
    obtain ⟨slot, d, hslot, h⟩ := bind_eq_ok.mp h
    obtain ⟨rfl, rfl⟩ := pure_eq_ok.mp h
    exact ⟨(growth_of_declareLocal hslot).errors_eq_nil herrors, .declare hslot⟩
  | array span elements =>
    rw [node] at h
    obtain ⟨code, d, helements, h⟩ := bind_eq_ok.mp h
    obtain ⟨count, e, hcount, h⟩ := bind_eq_ok.mp h
    obtain ⟨rfl, rfl⟩ := pure_eq_ok.mp h
    obtain ⟨index, pool, hinsert, rfl, rfl⟩ := pushConstant_eq_ok.mp hcount
    obtain ⟨hc, helements⟩ := drafted_of_nodes elements helements herrors
    rw [List.append_assoc]
    exact ⟨hc, .array helements hinsert⟩
  | block span items =>
    rw [node] at h
    obtain ⟨hc, hitems⟩ := drafted_of_statements items h herrors
    exact ⟨hc, .block hitems⟩
  | branch span condition body next =>
    rw [node] at h
    obtain ⟨test, d, htest, h⟩ := bind_eq_ok.mp h
    obtain ⟨code, e, hbody, h⟩ := bind_eq_ok.mp h
    cases hnext : continues next with
    | false =>
      simp only [hnext] at h
      obtain ⟨rfl, rfl⟩ := pure_eq_ok.mp h
      obtain ⟨hd, hbody⟩ := drafted_of_node body hbody herrors
      obtain ⟨hc, htest⟩ := drafted_of_node condition htest hd
      exact ⟨hc, .lastBranch htest hbody hnext⟩
    | true =>
      simp only [hnext] at h
      obtain ⟨rest, f, hrest, h⟩ := bind_eq_ok.mp h
      obtain ⟨rfl, rfl⟩ := pure_eq_ok.mp h
      cases next with
      | none => cases hnext
      | some next =>
        rw [following] at hrest
        obtain ⟨he, hrest⟩ := drafted_of_node next hrest herrors
        obtain ⟨hd, hbody⟩ := drafted_of_node body hbody he
        obtain ⟨hc, htest⟩ := drafted_of_node condition htest hd
        exact ⟨hc, .branch htest hbody hnext hrest⟩
  | forEach span name collection body =>
    rw [node] at h
    obtain ⟨elements, d, helements, h⟩ := bind_eq_ok.mp h
    obtain ⟨slot, e, hslot, h⟩ := bind_eq_ok.mp h
    obtain ⟨code, f, hbody, h⟩ := bind_eq_ok.mp h
    obtain ⟨rfl, rfl⟩ := pure_eq_ok.mp h
    obtain ⟨he, hbody⟩ := drafted_of_node body hbody herrors
    have hd := (growth_of_declareLocal hslot).errors_eq_nil he
    obtain ⟨hc, helements⟩ := drafted_of_node collection helements hd
    exact ⟨hc, .forEach helements hslot hbody⟩
  | binary span op left right =>
    rw [node] at h
    obtain ⟨second, d, hright, h⟩ := bind_eq_ok.mp h
    obtain ⟨first, e, hleft, h⟩ := bind_eq_ok.mp h
    obtain ⟨rfl, rfl⟩ := pure_eq_ok.mp h
    obtain ⟨hd, hleft⟩ := drafted_of_node left hleft herrors
    obtain ⟨hc, hright⟩ := drafted_of_node right hright hd
    exact ⟨hc, .binary hright hleft⟩
  | unary span op inner =>
    rw [node] at h
    obtain ⟨code, d, hinner, h⟩ := bind_eq_ok.mp h
    obtain ⟨rfl, rfl⟩ := pure_eq_ok.mp h
    obtain ⟨hc, hinner⟩ := drafted_of_node inner hinner herrors
    exact ⟨hc, .unary hinner⟩
  | assign span target value =>
    rw [node] at h
    obtain ⟨code, d, hvalue, h⟩ := bind_eq_ok.mp h
    obtain ⟨slot, e, hslot, h⟩ := bind_eq_ok.mp h
    obtain ⟨rfl, rfl⟩ := pure_eq_ok.mp h
    obtain ⟨hc, hvalue⟩ := drafted_of_node value hvalue ((targetSlot_ok hslot).1.errors_eq_nil herrors)
    exact ⟨hc, .assign hvalue hslot⟩
  | result span value =>
    cases value with
    | none =>
      rw [node] at h
      obtain ⟨rfl, rfl⟩ := pure_eq_ok.mp h
      exact ⟨herrors, .resultNothing⟩
    | some value =>
      rw [node] at h
      obtain ⟨code, d, hvalue, h⟩ := bind_eq_ok.mp h
      obtain ⟨rfl, rfl⟩ := pure_eq_ok.mp h
      obtain ⟨hc, hvalue⟩ := drafted_of_node value hvalue herrors
      exact ⟨hc, .resultValue hvalue⟩
  | leave span =>
    rw [node] at h
    cases l with
    | false => exact absurd h throw_ne_ok
    | true =>
      obtain ⟨rfl, rfl⟩ := pure_eq_ok.mp h
      exact ⟨herrors, .leave⟩
  | signature span name parameters =>
    rw [node] at h
    exact absurd h throw_ne_ok
  | function span name parameters body =>
    rw [node] at h
    exact absurd h throw_ne_ok
  | call span name arguments =>
    rw [node] at h
    cases hname : intrinsic? name with
    | some found =>
      obtain ⟨arity, op⟩ := found
      simp only [hname] at h
      obtain ⟨_, d, hcheck, hrun⟩ := bind_eq_ok.mp h
      obtain ⟨rfl, rfl⟩ := checkArity_ok hcheck
      obtain ⟨code, d, harguments, hrun⟩ := bind_eq_ok.mp hrun
      obtain ⟨rfl, rfl⟩ := pure_eq_ok.mp hrun
      obtain ⟨hc, harguments⟩ := drafted_of_nodes arguments harguments herrors
      exact ⟨hc, .intrinsic hname harguments⟩
    | none =>
      simp only [hname] at h
      obtain ⟨code, d, harguments, h⟩ := bind_eq_ok.mp h
      obtain ⟨item, e, hitem, h⟩ := bind_eq_ok.mp h
      obtain ⟨rfl, rfl⟩ := pure_eq_ok.mp h
      have hd := (callItem_ok hitem).1.errors_eq_nil herrors
      obtain ⟨hc, harguments⟩ := drafted_of_nodes arguments harguments hd
      exact ⟨hc, .call hname harguments hitem⟩

theorem drafted_of_nodes (list : List Node) {l : Bool} {p : Nat} {c c' : Compilation} {code : Code}
    (h : nodes l p list c = .ok code c') (herrors : c'.errors = []) :
    c.errors = [] ∧ Drafted l p (.nodes list) c code c' := by
  cases list with
  | nil =>
    rw [nodes] at h
    obtain ⟨rfl, rfl⟩ := pure_eq_ok.mp h
    exact ⟨herrors, .nodesNil⟩
  | cons first rest =>
    rw [nodes] at h
    obtain ⟨code, d, hfirst, h⟩ := bind_eq_ok.mp h
    obtain ⟨more, e, hrest, h⟩ := bind_eq_ok.mp h
    obtain ⟨rfl, rfl⟩ := pure_eq_ok.mp h
    obtain ⟨hd, hrest⟩ := drafted_of_nodes rest hrest herrors
    obtain ⟨hc, hfirst⟩ := drafted_of_node first hfirst hd
    exact ⟨hc, .nodesCons hfirst hrest⟩

theorem drafted_of_statements (list : List Node) {l : Bool} {p : Nat} {c c' : Compilation}
    {code : Code} (h : statements l p list c = .ok code c') (herrors : c'.errors = []) :
    c.errors = [] ∧ Drafted l p (.statements list) c code c' := by
  cases list with
  | nil =>
    rw [statements] at h
    obtain ⟨rfl, rfl⟩ := pure_eq_ok.mp h
    exact ⟨herrors, .statementsNil⟩
  | cons first rest =>
    rw [statements] at h
    obtain ⟨dropped, d, hrecover, h⟩ := bind_eq_ok.mp h
    obtain ⟨more, e, hrest, h⟩ := bind_eq_ok.mp h
    obtain ⟨rfl, rfl⟩ := pure_eq_ok.mp h
    obtain ⟨hd, hrest⟩ := drafted_of_statements rest hrest herrors
    obtain ⟨code, f, hfirst, hrun⟩ := bind_eq_ok.mp (recover_eq_ok hrecover hd)
    obtain ⟨_, g, hget, hrun⟩ := bind_eq_ok.mp hrun
    obtain ⟨rfl, rfl⟩ := get_eq_ok.mp hget
    obtain ⟨rfl, rfl⟩ := pure_eq_ok.mp hrun
    obtain ⟨hc, hfirst⟩ := drafted_of_node first hfirst hd
    exact ⟨hc, .statementsCons hfirst hrest⟩

end

/-! ### Drafting only adds -/

theorem Literal.inserts {n : Node} {insert : Insertion} (h : Literal n insert) : Inserts insert := by
  cases h with
  | number span value => exact inserts_scalar _ rfl
  | bool span value => exact inserts_scalar _ rfl
  | text span value => exact inserts_text value

theorem Inserts.grows {insert : Insertion} (hinsert : Inserts insert) {c : Compilation} {index : Nat}
    {pool : ConstantPool} (h : insert c.constants = some (index, pool)) :
    c.Grows { c with constants := pool } := by
  obtain ⟨hgrows, -, hsound⟩ := hinsert _ _ _ h
  exact { Grows.refl c with constants := hgrows, sound := hsound }

theorem Drafted.grows {l : Bool} {p : Nat} {part : Part} {c c' : Compilation} {code : Code}
    (h : Drafted l p part c code c') : c.Grows c' := by
  induction h with
  | literal hn hinsert => exact hn.inserts.grows hinsert
  | read hslot => exact .refl _
  | declare hslot => exact growth_of_declareLocal hslot
  | array helements hinsert ih => exact ih.trans ((inserts_scalar (countValue _) rfl).grows hinsert)
  | block hitems ih => exact ih
  | lastBranch htest hbody hnext ihtest ihbody => exact ihtest.trans ihbody
  | branch htest hbody hnext hrest ihtest ihbody ihrest => exact (ihtest.trans ihbody).trans ihrest
  | forEach helements hslot hbody ihelements ihbody =>
    exact (ihelements.trans (growth_of_declareLocal hslot)).trans ihbody
  | binary hright hleft ihright ihleft => exact ihright.trans ihleft
  | unary hinner ih => exact ih
  | assign hvalue hslot ih => exact ih.trans (targetSlot_ok hslot).1
  | resultValue hvalue ih => exact ih
  | resultNothing => exact .refl _
  | leave => exact .refl _
  | intrinsic hname harguments ih => exact ih
  | call hname harguments hitem ih => exact ih.trans (callItem_ok hitem).1
  | nodesNil => exact .refl _
  | nodesCons hfirst hrest ihfirst ihrest => exact ihfirst.trans ihrest
  | statementsNil => exact .refl _
  | statementsCons hfirst hrest ihfirst ihrest => exact ihfirst.trans ihrest

/-- What relates two states between which a constant or a local was added or a call was drafted, and can
be put together, relates the states before and behind all code. -/
theorem Drafted.relates {R : Compilation → Compilation → Prop} (hrefl : ∀ c, R c c)
    (htrans : ∀ {c d e}, R c d → R d e → R c e)
    (hconstants : ∀ c pool, R c { c with constants := pool })
    (hlocals : ∀ c locals, R c { c with locals := locals })
    (hcalls : ∀ {span name arguments item c d}, callItem span name arguments c = .ok item d → R c d)
    {l : Bool} {p : Nat} {part : Part} {c c' : Compilation} {code : Code}
    (h : Drafted l p part c code c') : R c c' := by
  have hdeclare : ∀ {name slot c d}, declareLocal name c = .ok slot d → R c d := by
    intro name slot c d hslot
    rw [(declareLocal_ok hslot).2.2]
    exact hlocals c d.locals
  have htarget : ∀ {target slot c d}, targetSlot target c = .ok slot d → R c d := by
    intro target slot c d hslot
    unfold targetSlot at hslot
    split at hslot
    · exact hdeclare hslot
    · obtain ⟨rfl, -⟩ := findLocal_ok hslot
      exact hrefl _
    · exact absurd hslot throw_ne_ok
  induction h with
  | literal hn hinsert => exact hconstants _ _
  | read hslot => exact hrefl _
  | declare hslot => exact hdeclare hslot
  | array helements hinsert ih => exact htrans ih (hconstants _ _)
  | block hitems ih => exact ih
  | lastBranch htest hbody hnext ihtest ihbody => exact htrans ihtest ihbody
  | branch htest hbody hnext hrest ihtest ihbody ihrest => exact htrans (htrans ihtest ihbody) ihrest
  | forEach helements hslot hbody ihelements ihbody =>
    exact htrans (htrans ihelements (hdeclare hslot)) ihbody
  | binary hright hleft ihright ihleft => exact htrans ihright ihleft
  | unary hinner ih => exact ih
  | assign hvalue hslot ih => exact htrans ih (htarget hslot)
  | resultValue hvalue ih => exact ih
  | resultNothing => exact hrefl _
  | leave => exact hrefl _
  | intrinsic hname harguments ih => exact ih
  | call hname harguments hitem ih => exact htrans ih (hcalls hitem)
  | nodesNil => exact hrefl _
  | nodesCons hfirst hrest ihfirst ihrest => exact htrans ihfirst ihrest
  | statementsNil => exact hrefl _
  | statementsCons hfirst hrest ihfirst ihrest => exact htrans ihfirst ihrest

end Compilation

end ScriptMachine
