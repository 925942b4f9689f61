import Mathlib
import ScriptMachine.Proofs.Script.WellFormed

/-!
# Where the code of a node stands

Code generation goes through the body of a function and calls itself for every node inside it, each
time at a position and in a state of the compilation. A site is such a call, reached from the
declaration of a function. The code that is generated there stands at its position in the code of the
whole script, apart from exits of loops, which are bound when the loop is complete.
-/

namespace ScriptMachine

namespace Compilation

open Outcome

def Part.generate (inLoop : Bool) (position : Nat) : Part → Action Code
  | .node n => Compilation.node inLoop position n
  | .nodes list => Compilation.nodes inLoop position list
  | .statements list => Compilation.statements inLoop position list

/-- The parts right inside a part for which code is generated. An empty block behind the last else
gets none. -/
def Part.parts : Part → List Part
  | .node (.array _ elements) => [.nodes elements]
  | .node (.block _ items) => [.statements items]
  | .node (.branch _ condition body next) =>
    [.node condition, .node body] ++ (if continues next then next.toList.map .node else [])
  | .node (.forEach _ _ collection body) => [.node collection, .node body]
  | .node (.binary _ _ left right) => [.node left, .node right]
  | .node (.unary _ _ inner) => [.node inner]
  | .node (.assign _ _ value) => [.node value]
  | .node (.result _ value) => value.toList.map .node
  | .node (.call _ _ arguments) => [.nodes arguments]
  | .nodes (first :: rest) => [.node first, .nodes rest]
  | .statements (first :: rest) => [.node first, .statements rest]
  | _ => []

/-- The second part stands somewhere inside the first one. -/
def Part.Contains : Part → Part → Prop :=
  Relation.ReflTransGen fun outer inner => inner ∈ outer.parts

/-- A call of the code generator: for a part, at a position, in a state. -/
structure Task where
  inLoop : Bool
  position : Nat
  part : Part
  state : Compilation

namespace Task

def generate (t : Task) : EStateM.Result CompileError Compilation Code :=
  t.part.generate t.inLoop t.position t.state

/-- The calls that the generator makes for the parts of a part. The position and the state are what
the parts before leave. -/
inductive Calls : Task → Task → Prop where
  | elements {l p span elements c} :
      Calls ⟨l, p, .node (.array span elements), c⟩ ⟨l, p, .nodes elements, c⟩
  | items {l p span items c} :
      Calls ⟨l, p, .node (.block span items), c⟩ ⟨l, p, .statements items, c⟩
  | condition {l p span condition body next c} :
      Calls ⟨l, p, .node (.branch span condition body next), c⟩ ⟨l, p, .node condition, c⟩
  | body {l p span condition body next c test d} (htest : node l p condition c = .ok test d) :
      Calls ⟨l, p, .node (.branch span condition body next), c⟩
        ⟨l, p + test.length + 1, .node body, d⟩
  | next {l p span condition body next c test d code e} (htest : node l p condition c = .ok test d)
      (hbody : node l (p + test.length + 1) body d = .ok code e)
      (hnext : continues (some next) = true) :
      Calls ⟨l, p, .node (.branch span condition body (some next)), c⟩
        ⟨l, p + test.length + 1 + code.length + 1, .node next, e⟩
  | collection {l p span name collection body c} :
      Calls ⟨l, p, .node (.forEach span name collection body), c⟩ ⟨l, p, .node collection, c⟩
  | loopBody {l p span name collection body c elements d slot e}
      (helements : node l p collection c = .ok elements d) (hslot : declareLocal name d = .ok slot e) :
      Calls ⟨l, p, .node (.forEach span name collection body), c⟩
        ⟨true, p + elements.length + 1 + 2, .node body, e⟩
  | right {l p span op left right c} :
      Calls ⟨l, p, .node (.binary span op left right), c⟩ ⟨l, p, .node right, c⟩
  | left {l p span op left right c second d} (hright : node l p right c = .ok second d) :
      Calls ⟨l, p, .node (.binary span op left right), c⟩ ⟨l, p + second.length, .node left, d⟩
  | inner {l p span op inner c} : Calls ⟨l, p, .node (.unary span op inner), c⟩ ⟨l, p, .node inner, c⟩
  | value {l p span target value c} :
      Calls ⟨l, p, .node (.assign span target value), c⟩ ⟨l, p, .node value, c⟩
  | result {l p span value c} :
      Calls ⟨l, p, .node (.result span (some value)), c⟩ ⟨l, p, .node value, c⟩
  | arguments {l p span name arguments c} :
      Calls ⟨l, p, .node (.call span name arguments), c⟩ ⟨l, p, .nodes arguments, c⟩
  | firstNode {l p first rest c} : Calls ⟨l, p, .nodes (first :: rest), c⟩ ⟨l, p, .node first, c⟩
  | restNodes {l p first rest c code d} (hfirst : node l p first c = .ok code d) :
      Calls ⟨l, p, .nodes (first :: rest), c⟩ ⟨l, p + code.length, .nodes rest, d⟩
  | firstStatement {l p first rest c} :
      Calls ⟨l, p, .statements (first :: rest), c⟩ ⟨l, p, .node first, c⟩
  | restStatements {l p first rest c code d} (hfirst : node l p first c = .ok code d) :
      Calls ⟨l, p, .statements (first :: rest), c⟩
        ⟨l, p + (d.dropResult first code).length, .statements rest, d⟩

inductive Enters : Task → Task → Prop where
  | body {l p span name collection body c elements d slot e}
      (helements : node l p collection c = .ok elements d) (hslot : declareLocal name d = .ok slot e) :
      Enters ⟨l, p, .node (.forEach span name collection body), c⟩
        ⟨true, p + elements.length + 1 + 2, .node body, e⟩

/-- A call that does not go into the body of another loop. -/
def Stays (t t' : Task) : Prop :=
  t.Calls t' ∧ ¬ t.Enters t'

end Task

theorem recover_of_ok {action : Action Code} {c d : Compilation} {code : Code}
    (h : action c = .ok code d) : recover action c = .ok code d := by
  unfold recover
  rw [h]

/-- The rules of code generation describe what the generator does. -/
theorem Drafted.generate {l : Bool} {p : Nat} {part : Part} {c d : Compilation} {code : Code}
    (h : Drafted l p part c code d) : part.generate l p c = .ok code d := by
  induction h with
  | literal hn hinsert =>
    cases hn with
    | number | bool | text =>
      rw [Part.generate, node]
      exact pushConstant_eq_ok.mpr ⟨_, _, hinsert, rfl, rfl⟩
  | read hslot =>
    rw [Part.generate, node]
    exact bind_eq_ok.mpr ⟨_, _, hslot, rfl⟩
  | declare hslot =>
    rw [Part.generate, node]
    exact bind_eq_ok.mpr ⟨_, _, hslot, rfl⟩
  | array helements hinsert ih =>
    rw [Part.generate, node]
    refine bind_eq_ok.mpr ⟨_, _, ih, bind_eq_ok.mpr
      ⟨_, _, pushConstant_eq_ok.mpr ⟨_, _, hinsert, rfl, rfl⟩, ?_⟩⟩
    rw [List.append_assoc]
    rfl
  | block hitems ih =>
    rw [Part.generate, node]
    exact ih
  | lastBranch htest hbody hnext ihtest ihbody =>
    rw [Part.generate, node]
    refine bind_eq_ok.mpr ⟨_, _, ihtest, bind_eq_ok.mpr ⟨_, _, ihbody, ?_⟩⟩
    simp only [hnext]
    rfl
  | branch htest hbody hnext hrest ihtest ihbody ihrest =>
    rw [Part.generate, node]
    refine bind_eq_ok.mpr ⟨_, _, ihtest, bind_eq_ok.mpr ⟨_, _, ihbody, ?_⟩⟩
    simp only [hnext, following]
    exact bind_eq_ok.mpr ⟨_, _, ihrest, rfl⟩
  | forEach helements hslot hbody ihelements ihbody =>
    rw [Part.generate, node]
    exact bind_eq_ok.mpr ⟨_, _, ihelements, bind_eq_ok.mpr ⟨_, _, hslot, bind_eq_ok.mpr ⟨_, _, ihbody, rfl⟩⟩⟩
  | binary hright hleft ihright ihleft =>
    rw [Part.generate, node]
    exact bind_eq_ok.mpr ⟨_, _, ihright, bind_eq_ok.mpr ⟨_, _, ihleft, rfl⟩⟩
  | unary hinner ih =>
    rw [Part.generate, node]
    exact bind_eq_ok.mpr ⟨_, _, ih, rfl⟩
  | assign hvalue hslot ih =>
    rw [Part.generate, node]
    exact bind_eq_ok.mpr ⟨_, _, ih, bind_eq_ok.mpr ⟨_, _, hslot, rfl⟩⟩
  | resultValue hvalue ih =>
    rw [Part.generate, node]
    exact bind_eq_ok.mpr ⟨_, _, ih, rfl⟩
  | resultNothing =>
    rw [Part.generate, node]
    rfl
  | leave =>
    rw [Part.generate, node]
    rfl
  | intrinsic hname harguments ih =>
    rw [Part.generate, node]
    simp only [hname, checkArity]
    exact bind_eq_ok.mpr ⟨_, _, by simp; rfl, bind_eq_ok.mpr ⟨_, _, ih, rfl⟩⟩
  | call hname harguments hitem ih =>
    rw [Part.generate, node]
    simp only [hname]
    exact bind_eq_ok.mpr ⟨_, _, ih, bind_eq_ok.mpr ⟨_, _, hitem, rfl⟩⟩
  | nodesNil =>
    rw [Part.generate, nodes]
    rfl
  | nodesCons hfirst hrest ihfirst ihrest =>
    rw [Part.generate, nodes]
    exact bind_eq_ok.mpr ⟨_, _, ihfirst, bind_eq_ok.mpr ⟨_, _, ihrest, rfl⟩⟩
  | statementsNil =>
    rw [Part.generate, statements]
    rfl
  | statementsCons hfirst hrest ihfirst ihrest =>
    rw [Part.generate, statements]
    refine bind_eq_ok.mpr ⟨_, _, ?_, bind_eq_ok.mpr ⟨_, _, ihrest, rfl⟩⟩
    exact recover_of_ok (bind_eq_ok.mpr ⟨_, _, ihfirst, rfl⟩)

/-! ### Code inside code -/

/-- Code stands at a position inside other code, where exits of loops may have been bound. -/
def Stands (p' : Nat) (code' : Code) (p : Nat) (code : Code) : Prop :=
  ∃ before after : Code, ∃ settled : Item → Item, p' = p + before.length ∧
    code = before ++ code'.map settled ++ after ∧ ∀ item, item ≠ .leave → settled item = item

/-- Code stands at a position inside other code, with a map applied to its items. -/
def Embeds (settled : Item → Item) (p' : Nat) (code' : Code) (p : Nat) (code : Code) : Prop :=
  ∃ before after : Code, p' = p + before.length ∧ code = before ++ code'.map settled ++ after

theorem Embeds.refl (p : Nat) (code : Code) : Embeds id p code p code :=
  ⟨[], [], rfl, by simp⟩

theorem embeds_leaveTo (p : Nat) (code : Code) (exit : Nat) :
    Embeds (·.leaveTo exit) p code p (code.map (·.leaveTo exit)) :=
  ⟨[], [], rfl, by simp⟩

theorem leaveTo_of_ne {item : Item} (h : item ≠ .leave) (exit : Nat) : item.leaveTo exit = item := by
  cases item with
  | leave => exact absurd rfl h
  | op | call => rfl

theorem Embeds.front {settled : Item → Item} {p q : Nat} {inner outer : Code}
    (h : Embeds settled p inner q outer) (after : Code) : Embeds settled p inner q (outer ++ after) := by
  obtain ⟨before, after', rfl, rfl⟩ := h
  exact ⟨before, after' ++ after, rfl, by simp⟩

theorem Embeds.behind {settled : Item → Item} {p q r : Nat} {before inner outer : Code}
    (h : Embeds settled p inner q outer) (hq : q = r + before.length) :
    Embeds settled p inner r (before ++ outer) := by
  obtain ⟨before', after, rfl, rfl⟩ := h
  refine ⟨before ++ before', after, ?_, by simp⟩
  rw [hq, List.length_append, Nat.add_assoc]

theorem embeds_dropResult (p : Nat) (c : Compilation) (n : Node) (code : Code) :
    Embeds id p code p (c.dropResult n code) := by
  unfold dropResult
  split
  · exact (Embeds.refl p code).front _
  · exact .refl p code

theorem Embeds.cons {settled : Item → Item} {p q : Nat} {inner outer : Code} (item : Item)
    (h : Embeds settled p inner (q + 1) outer) : Embeds settled p inner q (item :: outer) := by
  have hbehind : Embeds settled p inner q ([item] ++ outer) := h.behind rfl
  exact hbehind

theorem Embeds.stands {settled : Item → Item} {p q : Nat} {inner outer : Code}
    (h : Embeds settled p inner q outer) (hsettled : ∀ item, item ≠ .leave → settled item = item) :
    Stands p inner q outer := by
  obtain ⟨before, after, hposition, hcode⟩ := h
  exact ⟨before, after, settled, hposition, hcode, hsettled⟩

theorem Stands.refl (p : Nat) (code : Code) : Stands p code p code :=
  (Embeds.refl p code).stands fun _ _ => rfl

theorem Stands.trans {p q r : Nat} {inner middle outer : Code} (h : Stands p inner q middle)
    (h' : Stands q middle r outer) : Stands p inner r outer := by
  obtain ⟨before, after, settled, rfl, rfl, hsettled⟩ := h
  obtain ⟨before', after', settled', rfl, rfl, hsettled'⟩ := h'
  refine ⟨before' ++ before.map settled', after.map settled' ++ after', settled' ∘ settled, ?_, ?_, ?_⟩
  · simp [Nat.add_assoc]
  · simp
  · intro item hitem
    rw [Function.comp_apply, hsettled item hitem, hsettled' item hitem]

theorem Stands.end_le {p q : Nat} {inner outer : Code} (h : Stands p inner q outer) :
    p + inner.length ≤ q + outer.length := by
  obtain ⟨before, after, settled, rfl, rfl, -⟩ := h
  simp only [List.length_append, List.length_map]
  omega

theorem Stands.getElem? {p q k : Nat} {inner outer : Code} {item : Item} (h : Stands p inner q outer)
    (hitem : inner[k]? = some item) (hleave : item ≠ .leave) : outer[p - q + k]? = some item := by
  obtain ⟨before, after, settled, rfl, rfl, hsettled⟩ := h
  obtain ⟨hk, -⟩ := List.getElem?_eq_some_iff.mp hitem
  rw [Nat.add_sub_cancel_left, List.append_assoc, List.getElem?_append_right (Nat.le_add_right _ _),
    Nat.add_sub_cancel_left, List.getElem?_append_left (by simpa using hk), List.getElem?_map, hitem]
  exact congrArg some (hsettled item hleave)

/-- The calls that the generator makes for a part succeed if it does, and their code is embedded in
the code of the part as it is. Only in the body of a loop the exits are bound. -/
theorem Task.Calls.embeds {t t' : Task} (h : t.Calls t') {code : Code} {d : Compilation}
    (hdrafted : Drafted t.inLoop t.position t.part t.state code d) :
    ∃ code' d' settled, Drafted t'.inLoop t'.position t'.part t'.state code' d' ∧ d'.Grows d ∧
      Embeds settled t'.position code' t.position code ∧
      (settled = id ∨ t.Enters t' ∧ settled = (·.leaveTo (t.position + code.length))) := by
  cases h with
  | elements =>
    cases hdrafted with
    | literal hn => cases hn
    | array helements hinsert =>
      exact ⟨_, _, id, helements, (inserts_scalar (countValue _) rfl).grows hinsert, (Embeds.refl _ _).front _, .inl rfl⟩
  | items =>
    cases hdrafted with
    | literal hn => cases hn
    | block hitems => exact ⟨_, _, id, hitems, .refl _, .refl _ _, .inl rfl⟩
  | condition =>
    cases hdrafted with
    | literal hn => cases hn
    | lastBranch htest hbody => exact ⟨_, _, id, htest, hbody.grows, (Embeds.refl _ _).front _, .inl rfl⟩
    | branch htest hbody hnext hrest =>
      refine ⟨_, _, id, htest, hbody.grows.trans hrest.grows, ?_, .inl rfl⟩
      rw [List.append_assoc]
      exact (Embeds.refl _ _).front _
  | body htest =>
    cases hdrafted with
    | literal hn => cases hn
    | lastBranch htest' hbody =>
      cases htest.symm.trans htest'.generate
      exact ⟨_, _, id, hbody, .refl _, .behind (.cons _ (.refl _ _)) rfl, .inl rfl⟩
    | branch htest' hbody hnext hrest =>
      cases htest.symm.trans htest'.generate
      exact ⟨_, _, id, hbody, hrest.grows, .front (.behind (.cons _ (.refl _ _)) rfl) _, .inl rfl⟩
  | next htest hbody hnext =>
    cases hdrafted with
    | literal hn => cases hn
    | lastBranch htest' hbody' hlast =>
      rw [hnext] at hlast
      cases hlast
    | branch htest' hbody' _ hrest =>
      cases htest.symm.trans htest'.generate
      cases hbody.symm.trans hbody'.generate
      refine ⟨_, _, id, hrest, .refl _, .behind (.cons _ (.refl _ _)) ?_, .inl rfl⟩
      simp only [List.length_append, List.length_cons]
      omega
  | collection =>
    cases hdrafted with
    | literal hn => cases hn
    | forEach helements hslot hbody =>
      refine ⟨_, _, id, helements, (growth_of_declareLocal hslot).trans hbody.grows, ?_, .inl rfl⟩
      simp only [List.append_assoc]
      exact (Embeds.refl _ _).front _
  | loopBody helements hslot =>
    cases hdrafted with
    | literal hn => cases hn
    | forEach helements' hslot' hbody =>
      cases helements.symm.trans helements'.generate
      cases hslot.symm.trans hslot'
      refine ⟨_, _, _, hbody, .refl _, .front (.behind (embeds_leaveTo _ _ _) ?_) _,
        .inr ⟨.body helements hslot, ?_⟩⟩
      · simp only [List.length_append, List.length_cons, List.length_nil]
        omega
      · funext item
        congr 1
        simp only [List.length_append, List.length_cons, List.length_nil, List.length_map]
        omega
  | right =>
    cases hdrafted with
    | literal hn => cases hn
    | binary hright hleft =>
      refine ⟨_, _, id, hright, hleft.grows, ?_, .inl rfl⟩
      rw [List.append_assoc]
      exact (Embeds.refl _ _).front _
  | left hright =>
    cases hdrafted with
    | literal hn => cases hn
    | binary hright' hleft =>
      cases hright.symm.trans hright'.generate
      exact ⟨_, _, id, hleft, .refl _, .front (.behind (.refl _ _) rfl) _, .inl rfl⟩
  | inner =>
    cases hdrafted with
    | literal hn => cases hn
    | unary hinner => exact ⟨_, _, id, hinner, .refl _, (Embeds.refl _ _).front _, .inl rfl⟩
  | value =>
    cases hdrafted with
    | literal hn => cases hn
    | assign hvalue hslot => exact ⟨_, _, id, hvalue, (targetSlot_ok hslot).1, (Embeds.refl _ _).front _, .inl rfl⟩
  | result =>
    cases hdrafted with
    | literal hn => cases hn
    | resultValue hvalue => exact ⟨_, _, id, hvalue, .refl _, (Embeds.refl _ _).front _, .inl rfl⟩
  | arguments =>
    cases hdrafted with
    | literal hn => cases hn
    | intrinsic hname harguments => exact ⟨_, _, id, harguments, .refl _, (Embeds.refl _ _).front _, .inl rfl⟩
    | call hname harguments hitem =>
      exact ⟨_, _, id, harguments, (callItem_ok hitem).1, (Embeds.refl _ _).front _, .inl rfl⟩
  | firstNode =>
    cases hdrafted with
    | nodesCons hfirst hrest => exact ⟨_, _, id, hfirst, hrest.grows, (Embeds.refl _ _).front _, .inl rfl⟩
  | restNodes hfirst =>
    cases hdrafted with
    | nodesCons hfirst' hrest =>
      cases hfirst.symm.trans hfirst'.generate
      exact ⟨_, _, id, hrest, .refl _, .behind (.refl _ _) rfl, .inl rfl⟩
  | firstStatement =>
    cases hdrafted with
    | statementsCons hfirst hrest =>
      exact ⟨_, _, id, hfirst, hrest.grows, .front (embeds_dropResult _ _ _ _) _, .inl rfl⟩
  | restStatements hfirst =>
    cases hdrafted with
    | statementsCons hfirst' hrest =>
      cases hfirst.symm.trans hfirst'.generate
      exact ⟨_, _, id, hrest, .refl _, .behind (.refl _ _) rfl, .inl rfl⟩

/-- The code of a call stands in the code of the part that it is made for. -/
theorem Task.Calls.drafted {t t' : Task} (h : t.Calls t') {code : Code} {d : Compilation}
    (hdrafted : Drafted t.inLoop t.position t.part t.state code d) :
    ∃ code' d', Drafted t'.inLoop t'.position t'.part t'.state code' d' ∧ d'.Grows d ∧
      Stands t'.position code' t.position code := by
  obtain ⟨code', d', settled, hdrafted', hgrows, hembeds, hsettled⟩ := h.embeds hdrafted
  refine ⟨code', d', hdrafted', hgrows, hembeds.stands fun item hitem => ?_⟩
  rcases hsettled with rfl | ⟨-, rfl⟩
  · rfl
  · exact leaveTo_of_ne hitem _

/-- What holds of one call holds of all calls on the way to a task. -/
theorem drafted_of_calls {t t' : Task} (h : Relation.ReflTransGen Task.Calls t t') {code : Code}
    {d : Compilation} (hdrafted : Drafted t.inLoop t.position t.part t.state code d) :
    ∃ code' d', Drafted t'.inLoop t'.position t'.part t'.state code' d' ∧ d'.Grows d ∧
      Stands t'.position code' t.position code := by
  induction h with
  | refl => exact ⟨code, d, hdrafted, .refl _, .refl _ _⟩
  | tail _ hcall ih =>
    obtain ⟨middle, e, hmiddle, hgrows, hstands⟩ := ih
    obtain ⟨code', d', hdrafted', hgrows', hstands'⟩ := hcall.drafted hmiddle
    exact ⟨code', d', hdrafted', hgrows'.trans hgrows, hstands'.trans hstands⟩

/-- The generator calls itself for every part right inside a part. -/
theorem Drafted.calls {l : Bool} {p : Nat} {part inner : Part} {c d : Compilation} {code : Code}
    (h : Drafted l p part c code d) (hinner : inner ∈ part.parts) :
    ∃ t, Task.Calls ⟨l, p, part, c⟩ t ∧ t.part = inner := by
  cases h with
  | literal hn => cases hn <;> cases hinner
  | read | declare | resultNothing | leave | nodesNil | statementsNil => cases hinner
  | array =>
    cases List.mem_singleton.mp hinner
    exact ⟨_, .elements, rfl⟩
  | block =>
    cases List.mem_singleton.mp hinner
    exact ⟨_, .items, rfl⟩
  | lastBranch htest hbody hnext =>
    simp only [Part.parts, hnext, List.append_nil, List.mem_cons, List.not_mem_nil, or_false,
      Bool.false_eq_true, if_false] at hinner
    rcases hinner with rfl | rfl
    · exact ⟨_, .condition, rfl⟩
    · exact ⟨_, .body htest.generate, rfl⟩
  | branch htest hbody hnext hrest =>
    simp only [Part.parts, hnext, if_true, Option.toList_some, List.map_cons, List.map_nil,
      List.cons_append, List.nil_append, List.mem_cons, List.not_mem_nil, or_false] at hinner
    rcases hinner with rfl | rfl | rfl
    · exact ⟨_, .condition, rfl⟩
    · exact ⟨_, .body htest.generate, rfl⟩
    · exact ⟨_, .next htest.generate hbody.generate hnext, rfl⟩
  | forEach helements hslot hbody =>
    simp only [Part.parts, List.mem_cons, List.not_mem_nil, or_false] at hinner
    rcases hinner with rfl | rfl
    · exact ⟨_, .collection, rfl⟩
    · exact ⟨_, .loopBody helements.generate hslot, rfl⟩
  | binary hright hleft =>
    simp only [Part.parts, List.mem_cons, List.not_mem_nil, or_false] at hinner
    rcases hinner with rfl | rfl
    · exact ⟨_, .left hright.generate, rfl⟩
    · exact ⟨_, .right, rfl⟩
  | unary =>
    cases List.mem_singleton.mp hinner
    exact ⟨_, .inner, rfl⟩
  | assign =>
    cases List.mem_singleton.mp hinner
    exact ⟨_, .value, rfl⟩
  | resultValue =>
    cases List.mem_singleton.mp hinner
    exact ⟨_, .result, rfl⟩
  | intrinsic | call =>
    cases List.mem_singleton.mp hinner
    exact ⟨_, .arguments, rfl⟩
  | nodesCons hfirst =>
    simp only [Part.parts, List.mem_cons, List.not_mem_nil, or_false] at hinner
    rcases hinner with rfl | rfl
    · exact ⟨_, .firstNode, rfl⟩
    · exact ⟨_, .restNodes hfirst.generate, rfl⟩
  | statementsCons hfirst =>
    simp only [Part.parts, List.mem_cons, List.not_mem_nil, or_false] at hinner
    rcases hinner with rfl | rfl
    · exact ⟨_, .firstStatement, rfl⟩
    · exact ⟨_, .restStatements hfirst.generate, rfl⟩

theorem exists_calls {t : Task} {code : Code} {d : Compilation} {inner : Part}
    (hdrafted : Drafted t.inLoop t.position t.part t.state code d) (h : t.part.Contains inner) :
    ∃ t', Relation.ReflTransGen Task.Calls t t' ∧ t'.part = inner := by
  induction h with
  | refl => exact ⟨t, .refl, rfl⟩
  | tail _ hinner ih =>
    obtain ⟨t', hcalls, rfl⟩ := ih
    obtain ⟨code', d', hdrafted', -, -⟩ := drafted_of_calls hcalls hdrafted
    obtain ⟨t'', hcall, hpart⟩ := hdrafted'.calls hinner
    exact ⟨t'', hcalls.tail hcall, hpart⟩

/-! ### Sites of a script -/

/-- The task of compiling the body of a function that is declared behind other declarations. -/
def bodyTask (c : Compilation) (before : List Node) (name : String) (parameters : List String)
    (body : Node) : Task :=
  ⟨false, (before.foldl declaration c).nextPosition + 1, .node body,
    (before.foldl declaration c).entering name parameters⟩

/-- A task inside a function of a script. The names are those of the locals of the function, in the
order of their slots. -/
inductive Site (c : Compilation) (root : Node) : List String → Task → Prop where
  | inside {before after : List Node} {span : Span} {name : String} {parameters : List String}
      {body : Node} {code : Code} {d : Compilation} {t : Task}
      (hroot : root.topLevel = before ++ .function span name parameters body :: after)
      (hbody : (c.bodyTask before name parameters body).generate = .ok code d)
      (hcalls : Relation.ReflTransGen Task.Calls (c.bodyTask before name parameters body) t) :
      Site c root d.locals t

theorem errors_of_foldl {c : Compilation} {items : List Node}
    (hitems : ∀ n ∈ items, ∀ span inner, n ≠ .block span inner)
    (herrors : (items.foldl declaration c).errors = []) : c.errors = [] := by
  induction items using List.reverseRecOn with
  | nil => exact herrors
  | append_singleton front last ih =>
    rw [List.foldl_append] at herrors
    exact ih (fun n hn => hitems n (by simp [hn])) (errors_of_declaration (hitems last (by simp)) herrors)

/-- The body of a function of a script that compiles is drafted in its own place, and there is more
code behind it. -/
theorem exists_body {c : Compilation} {root : Node} {program : Program} (hc : Prepared c)
    (hcompile : c.compile root = .ok program) {before after : List Node} {span : Span} {name : String}
    {parameters : List String} {body : Node}
    (hroot : root.topLevel = before ++ .function span name parameters body :: after) :
    ∃ code d, Drafted false ((before.foldl declaration c).nextPosition + 1) (.node body)
        ((before.foldl declaration c).entering name parameters) code d ∧
      Stands ((before.foldl declaration c).nextPosition + 1) code 1 (declaration c root).code ∧
      (before.foldl declaration c).nextPosition + 1 + code.length < 1 + (declaration c root).code.length ∧
      d.Extends (declaration c root) ∧ d.locals.length ≤ 510 := by
  obtain ⟨herrors, -, -⟩ := compile_ok hcompile
  have hblocks := topLevel_ne_block root
  rw [declaration_eq_foldl, hroot, List.foldl_append, List.foldl_cons] at herrors ⊢
  rw [hroot] at hblocks
  have hafter : ∀ n ∈ after, ∀ span inner, n ≠ .block span inner :=
    fun n hn => hblocks n (by simp [hn])
  have hfunction := errors_of_foldl hafter herrors
  have hstart := errors_of_declaration (hblocks _ (by simp)) hfunction
  obtain ⟨-, segments, hlaid, -⟩ :=
    hc.laid.foldl_declaration (fun n hn => hblocks n (by simp [hn])) hstart
  obtain ⟨-, added, hlaid', -⟩ := hlaid.declaration (hblocks _ (by simp)) hfunction
  obtain ⟨hextends, -⟩ := hlaid'.foldl_declaration hafter herrors
  have hdeclare : declareFunction span name parameters body (before.foldl declaration c) = .ok () _ :=
    recoverDeclaration_ok hfunction
  obtain ⟨-, -, inner, d, hdrafted, hparameters, hextra, hstate⟩ := declareFunction_ok hdeclare hfunction
  have hstate' : declaration (before.foldl declaration c) (.function span name parameters body) = _ := hstate
  rw [hstate'] at hextends ⊢
  have hcode : d.code = (before.foldl declaration c).code := hdrafted.grows.code
  have hposition : (before.foldl declaration c).nextPosition = 1 + d.code.length := by
    rw [hcode]
    exact Nat.add_comm _ _
  have hlocals : parameters.length ≤ d.locals.length := hdrafted.grows.locals.length_le
  obtain ⟨more, hmore⟩ := hextends.code
  refine ⟨inner, d, hdrafted, ?_, ?_, ?_, by omega⟩
  · rw [← hmore]
    exact Embeds.stands (.front (.behind (.cons _ ((Embeds.refl _ _).front _)) hposition) _) fun _ _ => rfl
  · rw [← hmore, hposition]
    simp only [framed, List.length_append, List.length_cons, List.length_nil]
    omega
  · exact (extends_append d _).trans hextends

/-- Everything inside the functions of a script that compiles has a site. -/
theorem exists_site {c : Compilation} {root : Node} {program : Program} (hc : Prepared c)
    (hcompile : c.compile root = .ok program) {span : Span} {name : String} {parameters : List String}
    {body : Node} (hfunction : .function span name parameters body ∈ root.topLevel) {inner : Part}
    (hinner : (Part.node body).Contains inner) : ∃ names t, Site c root names t ∧ t.part = inner := by
  obtain ⟨before, after, hroot⟩ := List.append_of_mem hfunction
  obtain ⟨code, d, hdrafted, -⟩ := exists_body hc hcompile hroot
  obtain ⟨t, hcalls, hpart⟩ :=
    exists_calls (t := c.bodyTask before name parameters body) hdrafted hinner
  exact ⟨d.locals, t, .inside hroot hdrafted.generate hcalls, hpart⟩

/-- The code of a site stands in the code of the script, with more behind it. -/
theorem Site.stands {c : Compilation} {root : Node} {program : Program} {names : List String} {t : Task}
    (h : Site c root names t) (hc : Prepared c) (hcompile : c.compile root = .ok program) :
    ∃ code d, Drafted t.inLoop t.position t.part t.state code d ∧
      Stands t.position code 1 (declaration c root).code ∧
      t.position + code.length < 1 + (declaration c root).code.length ∧
      d.Extends (declaration c root) ∧ d.locals <+: names ∧ names.length ≤ 510 := by
  obtain ⟨hroot, hbody, hcalls⟩ := h
  obtain ⟨whole, e, hdrafted, hstands, hlt, hextends, hlength⟩ := exists_body hc hcompile hroot
  cases hbody.symm.trans hdrafted.generate
  obtain ⟨code, d, hdrafted', hgrows, hstands'⟩ := drafted_of_calls hcalls hdrafted
  have hend := hstands'.end_le
  simp only [bodyTask] at hend
  exact ⟨code, d, hdrafted', hstands'.trans hstands, by omega, hgrows.extends.trans hextends,
    hgrows.locals, hlength⟩

end Compilation

end ScriptMachine
