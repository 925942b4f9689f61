import Mathlib
import ScriptMachine.Proofs.Number
import ScriptMachine.Proofs.Script.Drafting

/-!
# The shape of drafted code

Code that is drafted at a position is a fragment: every index in it is good, every jump lands inside
the fragment or right behind it, and an array is only ever made right behind the constant that counts
its elements. No jump lands between the two, so that nothing but the count can be on top of the stack
when an array is made.
-/

namespace ScriptMachine

namespace Opcode

def isBranch : Opcode → Bool
  | .jump | .jumpIfFalse | .iterNext => true
  | _ => false

def isLocal : Opcode → Bool
  | .loadLocal | .storeLocal => true
  | _ => false

end Opcode

namespace Compilation

open Outcome

/-- The second state knows all that the first one knows, possibly in another function. -/
structure Extends (c c' : Compilation) : Prop where
  constants : c.constants.Grows c'.constants
  imports : c.imports <+: c'.imports
  functions : c.functions <+: c'.functions
  code : c.code <+: c'.code
  pending : c.pending <+: c'.pending

theorem Grows.extends {c c' : Compilation} (h : c.Grows c') : c.Extends c' :=
  ⟨h.constants, h.imports, h.functions ▸ List.prefix_rfl, h.code ▸ List.prefix_rfl, h.pending⟩

theorem Extends.refl (c : Compilation) : c.Extends c :=
  (Grows.refl c).extends

theorem Extends.trans {c d e : Compilation} (hcd : c.Extends d) (hde : d.Extends e) : c.Extends e :=
  ⟨hcd.constants.trans hde.constants, hcd.imports.trans hde.imports,
    hcd.functions.trans hde.functions, hcd.code.trans hde.code, hcd.pending.trans hde.pending⟩

/-- A called name that is a function or will be looked up in the end. -/
def Knows (c : Compilation) (name : String) : Prop :=
  (c.findFunction? name).isSome ∨ ∃ call ∈ c.pending, call.name = name

theorem Knows.mono {c c' : Compilation} (h : c.Extends c') {name : String} (hname : c.Knows name) :
    c'.Knows name := by
  rcases hname with hfunction | ⟨call, hcall, hname⟩
  · obtain ⟨added, hadded⟩ := h.functions
    left
    rw [findFunction?] at hfunction ⊢
    rw [← hadded, List.find?_append]
    rw [Option.isSome_iff_exists] at hfunction
    obtain ⟨function, hfunction⟩ := hfunction
    simp [hfunction]
  · exact .inr ⟨call, h.pending.subset hcall, hname⟩

/-- An item whose operand is good: `lands` says where it may jump to. -/
inductive Fits (c : Compilation) (locals : Nat) (inLoop : Bool) (lands : Nat → Prop) : Item → Prop where
  | plain {op : Opcode} (hop : op.operandCount = 0) : Fits c locals inLoop lands (.plain op)
  | branch {op : Opcode} {target : Nat} (hop : op.isBranch = true) (htarget : lands target) :
      Fits c locals inLoop lands (.withOperand op target)
  | constant {index : Nat} (hindex : index < c.constants.size) :
      Fits c locals inLoop lands (.withOperand .pushValue index)
  | native {index : Nat} (hindex : index < c.imports.length) :
      Fits c locals inLoop lands (.withOperand .callNative index)
  | slot {op : Opcode} {slot : Nat} (hop : op.isLocal = true) (hslot : slot < locals) :
      Fits c locals inLoop lands (.withOperand op slot)
  | leave (hloop : inLoop = true) : Fits c locals inLoop lands .leave
  | call {name : String} (hname : c.Knows name) : Fits c locals inLoop lands (.call name)

theorem Fits.mono {c c' : Compilation} {locals locals' : Nat} {inLoop : Bool}
    {lands lands' : Nat → Prop} {item : Item} (h : Fits c locals inLoop lands item)
    (hc : c.Extends c') (hlocals : locals ≤ locals') (hlands : ∀ t, lands t → lands' t) :
    Fits c' locals' inLoop lands' item := by
  cases h with
  | plain hop => exact .plain hop
  | branch hop htarget => exact .branch hop (hlands _ htarget)
  | constant hindex => exact .constant (Nat.lt_of_lt_of_le hindex hc.constants.size_le)
  | native hindex => exact .native (Nat.lt_of_lt_of_le hindex hc.imports.length_le)
  | slot hop hslot => exact .slot hop (Nat.lt_of_lt_of_le hslot hlocals)
  | leave hloop => exact .leave hloop
  | call hname => exact .call (hname.mono hc)

/-! ### Making an array follows the count of its elements -/

def CountsAt (c : Compilation) (index : Nat) : Prop :=
  ∃ x : Number, c.constants.get? index = some (.number x) ∧ x.isCount = true

/-- Every array is made right behind the constant that counts its elements. -/
def Counted (c : Compilation) (code : Code) : Prop :=
  ∀ j, code[j]? = some (.plain .makeArray) →
    ∃ i index, j = i + 1 ∧ code[i]? = some (.withOperand .pushValue index) ∧ c.CountsAt index

theorem CountsAt.mono {c c' : Compilation} (h : c.Extends c') {index : Nat} (hindex : c.CountsAt index) :
    c'.CountsAt index := by
  obtain ⟨x, hget, hcount⟩ := hindex
  exact ⟨x, h.constants.get? hget, hcount⟩

theorem Counted.mono {c c' : Compilation} (h : c.Extends c') {code : Code} (hcode : c.Counted code) :
    c'.Counted code := by
  intro j hj
  obtain ⟨i, index, hi, hpush, hcount⟩ := hcode j hj
  exact ⟨i, index, hi, hpush, hcount.mono h⟩

theorem Counted.head_ne {c : Compilation} {code : Code} (h : c.Counted code) :
    code[0]? ≠ some (.plain .makeArray) := by
  intro hhead
  obtain ⟨i, index, hi, -⟩ := h 0 hhead
  omega

theorem counted_nil (c : Compilation) : c.Counted [] := by
  intro j hj
  cases hj

theorem counted_singleton (c : Compilation) {item : Item} (h : item ≠ .plain .makeArray) :
    c.Counted [item] := by
  intro j hj
  cases j with
  | zero => exact absurd (Option.some.inj hj) h
  | succ j => cases hj

theorem Counted.append {c : Compilation} {left right : Code} (hleft : c.Counted left)
    (hright : c.Counted right) : c.Counted (left ++ right) := by
  intro j hj
  rcases Nat.lt_or_ge j left.length with hlt | hge
  · rw [List.getElem?_append_left hlt] at hj
    obtain ⟨i, index, rfl, hpush, hcount⟩ := hleft j hj
    exact ⟨i, index, rfl, by rw [List.getElem?_append_left (by omega)]; exact hpush, hcount⟩
  · rw [List.getElem?_append_right hge] at hj
    obtain ⟨i, index, hi, hpush, hcount⟩ := hright _ hj
    refine ⟨left.length + i, index, by omega, ?_, hcount⟩
    rw [List.getElem?_append_right (by omega)]
    simpa using hpush

theorem counted_makeArray {c : Compilation} {index : Nat} (h : c.CountsAt index) :
    c.Counted [.withOperand .pushValue index, .plain .makeArray] := by
  intro j hj
  match j, hj with
  | 0, hj => cases hj
  | 1, _ => exact ⟨0, index, rfl, rfl, h⟩

theorem withOperand_ne {op : Opcode} {operand : Nat} (hop : op ≠ .makeArray) :
    Item.withOperand op operand ≠ .plain .makeArray := by
  simp [Item.withOperand, Item.plain, hop]

theorem plain_ne {o : Opcode} (ho : o ≠ .makeArray) : Item.plain o ≠ .plain .makeArray := by
  simp [Item.plain, ho]

theorem leaveTo_eq_iff {item other : Item} {exit : Nat} (hother : other ≠ .withOperand .jump exit)
    (hleave : other ≠ .leave) : item.leaveTo exit = other ↔ item = other := by
  cases item with
  | leave => exact ⟨fun h => absurd h.symm hother, fun h => absurd h.symm hleave⟩
  | op draft => exact Iff.rfl
  | call name => exact Iff.rfl

theorem getElem?_map_leaveTo {code : Code} {exit j : Nat} {other : Item}
    (hother : other ≠ .withOperand .jump exit) (hleave : other ≠ .leave) :
    (code.map (·.leaveTo exit))[j]? = some other ↔ code[j]? = some other := by
  rw [List.getElem?_map]
  cases code[j]? with
  | none => simp
  | some item => simp [leaveTo_eq_iff hother hleave]

theorem Counted.map_leaveTo {c : Compilation} {code : Code} (h : c.Counted code) (exit : Nat) :
    c.Counted (code.map (·.leaveTo exit)) := by
  intro j hj
  rw [getElem?_map_leaveTo (by simp [Item.plain, Item.withOperand]) (by simp [Item.plain])] at hj
  obtain ⟨i, index, rfl, hpush, hcount⟩ := h j hj
  refine ⟨i, index, rfl, ?_, hcount⟩
  rw [getElem?_map_leaveTo (by simp [Item.withOperand]) (by simp [Item.withOperand])]
  exact hpush

/-! ### Fragments -/

/-- A place that a jump may lead to: inside the code at a position or right behind it, and not at the
instruction that makes an array. -/
def Lands (position : Nat) (code : Code) (target : Nat) : Prop :=
  position ≤ target ∧ target ≤ position + code.length ∧
    code[target - position]? ≠ some (.plain .makeArray)

theorem Lands.append {position target : Nat} (before after : Code) {code : Code}
    (h : Lands (position + before.length) code target)
    (hafter : after[0]? ≠ some (.plain .makeArray)) :
    Lands position (before ++ (code ++ after)) target := by
  obtain ⟨hlow, hhigh, hne⟩ := h
  refine ⟨by omega, by simp; omega, ?_⟩
  rw [List.getElem?_append_right (by omega)]
  rw [show target - position - before.length = target - (position + before.length) by omega]
  rcases Nat.lt_or_ge (target - (position + before.length)) code.length with hlt | hge
  · rwa [List.getElem?_append_left hlt]
  · rw [List.getElem?_append_right hge]
    rwa [show target - (position + before.length) - code.length = 0 by omega]

theorem lands_end {position target : Nat} {code : Code} (h : target = position + code.length) :
    Lands position code target := by
  subst h
  exact ⟨by omega, by omega, by simp⟩

/-- Code at a position in which every item fits. -/
structure Fragment (c : Compilation) (locals : Nat) (inLoop : Bool) (position : Nat) (code : Code) :
    Prop where
  items : ∀ item ∈ code, Fits c locals inLoop (Lands position code) item
  counted : c.Counted code

theorem Fragment.mono {c c' : Compilation} {locals locals' position : Nat} {inLoop : Bool}
    {code : Code} (h : Fragment c locals inLoop position code) (hc : c.Extends c')
    (hlocals : locals ≤ locals') : Fragment c' locals' inLoop position code where
  items item hitem := (h.items item hitem).mono hc hlocals fun _ ht => ht
  counted := h.counted.mono hc

theorem fragment_nil (c : Compilation) (locals : Nat) (inLoop : Bool) (position : Nat) :
    Fragment c locals inLoop position [] :=
  ⟨by simp, counted_nil c⟩

theorem Fragment.append {c : Compilation} {locals position : Nat} {inLoop : Bool} {left right : Code}
    (hleft : Fragment c locals inLoop position left)
    (hright : Fragment c locals inLoop (position + left.length) right) :
    Fragment c locals inLoop position (left ++ right) where
  items item hitem := by
    rcases List.mem_append.mp hitem with hmem | hmem
    · refine (hleft.items item hmem).mono (.refl c) (Nat.le_refl _) fun t ht => ?_
      exact Lands.append [] right ht hright.counted.head_ne
    · refine (hright.items item hmem).mono (.refl c) (Nat.le_refl _) fun t ht => ?_
      simpa using Lands.append left [] ht (by simp)
  counted := hleft.counted.append hright.counted

theorem Fragment.cons {c : Compilation} {locals position : Nat} {inLoop : Bool} {item : Item}
    {code : Code} (hcode : Fragment c locals inLoop (position + 1) code)
    (hitem : Fits c locals inLoop (Lands position (item :: code)) item)
    (hne : item ≠ .plain .makeArray) : Fragment c locals inLoop position (item :: code) where
  items other hother := by
    rcases List.mem_cons.mp hother with rfl | hmem
    · exact hitem
    · refine (hcode.items other hmem).mono (.refl c) (Nat.le_refl _) fun t ht => ?_
      simpa using Lands.append [item] [] ht (by simp)
  counted := (counted_singleton c hne).append hcode.counted

theorem Fragment.snoc {c : Compilation} {locals position : Nat} {inLoop : Bool} {item : Item}
    {code : Code} (hcode : Fragment c locals inLoop position code)
    (hitem : ∀ lands, Fits c locals inLoop lands item) (hne : item ≠ .plain .makeArray) :
    Fragment c locals inLoop position (code ++ [item]) :=
  hcode.append ((fragment_nil c locals inLoop _).cons (hitem _) hne)

/-- Elements, their number, and the instruction that makes an array of them. -/
theorem Fragment.makeArray {c : Compilation} {locals position index : Nat} {inLoop : Bool}
    {code : Code} (hcode : Fragment c locals inLoop position code) (hcount : c.CountsAt index) :
    Fragment c locals inLoop position (code ++ [.withOperand .pushValue index, .plain .makeArray]) := by
  obtain ⟨x, hget, -⟩ := id hcount
  refine hcode.append ⟨fun item hitem => ?_, counted_makeArray hcount⟩
  simp only [List.mem_cons, List.not_mem_nil, or_false] at hitem
  rcases hitem with rfl | rfl
  · exact .constant (ConstantPool.lt_size_of_get? hget)
  · exact .plain rfl

theorem Fits.leaveTo {c : Compilation} {locals exit : Nat} {inLoop : Bool} {lands : Nat → Prop}
    {item : Item} (h : Fits c locals true lands item) (hexit : lands exit) :
    Fits c locals inLoop lands (item.leaveTo exit) := by
  cases h with
  | plain hop => exact .plain hop
  | branch hop htarget => exact .branch hop htarget
  | constant hindex => exact .constant hindex
  | native hindex => exact .native hindex
  | slot hop hslot => exact .slot hop hslot
  | leave hloop => exact .branch rfl hexit
  | call hname => exact .call hname

theorem Lands.map_leaveTo {position target : Nat} {code : Code} (h : Lands position code target)
    (exit : Nat) : Lands position (code.map (·.leaveTo exit)) target := by
  obtain ⟨hlow, hhigh, hne⟩ := h
  refine ⟨hlow, by simpa using hhigh, ?_⟩
  rwa [Ne, getElem?_map_leaveTo (by simp [Item.plain, Item.withOperand]) (by simp [Item.plain])]

/-- The two ways behind a condition: the body and the jump over the rest, or the rest. -/
theorem Fragment.choice {c : Compilation} {locals position : Nat} {inLoop : Bool} {body rest : Code}
    (hbody : Fragment c locals inLoop (position + 1) body)
    (hrest : Fragment c locals inLoop (position + 1 + body.length + 1) rest) :
    Fragment c locals inLoop position
      (.withOperand .jumpIfFalse (position + 1 + body.length + 1) ::
        (body ++ .withOperand .jump (position + 1 + body.length + 1 + rest.length) :: rest)) := by
  have hjump : Fragment c locals inLoop (position + 1 + body.length)
      (.withOperand .jump (position + 1 + body.length + 1 + rest.length) :: rest) :=
    hrest.cons (.branch rfl (lands_end (by simp; omega))) (withOperand_ne (by decide))
  refine (hbody.append hjump).cons (.branch rfl ⟨by omega, by simp; omega, ?_⟩)
    (withOperand_ne (by decide))
  rw [show position + 1 + body.length + 1 - position = body.length + 1 + 1 by omega,
    List.getElem?_cons_succ, List.getElem?_append_right (by omega), Nat.add_sub_cancel_left,
    List.getElem?_cons_succ]
  exact hrest.counted.head_ne

/-- The code of a loop from its head on, the exits of its body bound to its end. -/
theorem Fragment.loop {c : Compilation} {locals head slot : Nat} (inLoop : Bool) {body : Code}
    (hbody : Fragment c locals true (head + 2) body) (hslot : slot < locals) :
    Fragment c locals inLoop head (.withOperand .iterNext (head + 2 + body.length + 1) ::
      .withOperand .storeLocal slot ::
      (body.map (·.leaveTo (head + 2 + body.length + 1)) ++ [.withOperand .jump head])) := by
  generalize hexit : head + 2 + body.length + 1 = exit
  have hend : Lands head (.withOperand .iterNext exit :: .withOperand .storeLocal slot ::
      (body.map (·.leaveTo exit) ++ [.withOperand .jump head])) exit :=
    lands_end (by simp; omega)
  refine ⟨fun item hitem => ?_, ?_⟩
  · simp only [List.mem_cons, List.mem_append, List.mem_map, List.not_mem_nil, or_false] at hitem
    rcases hitem with rfl | rfl | ⟨inner, hinner, rfl⟩ | rfl
    · exact .branch rfl hend
    · exact .slot rfl hslot
    · refine Fits.leaveTo ((hbody.items inner hinner).mono (.refl c) (Nat.le_refl _) fun t ht => ?_) hend
      exact Lands.append [.withOperand .iterNext exit, .withOperand .storeLocal slot]
        [.withOperand .jump head] (ht.map_leaveTo exit) (by simp [withOperand_ne])
    · exact .branch rfl ⟨Nat.le_refl _, by omega, by simp [withOperand_ne]⟩
  · have hjump : c.Counted [.withOperand .jump head] := counted_singleton c (withOperand_ne (by decide))
    exact (counted_singleton c (withOperand_ne (by decide))).append
      ((counted_singleton c (withOperand_ne (by decide))).append
        ((hbody.counted.map_leaveTo exit).append hjump))

/-! ### Drafted code is a fragment -/

theorem Fragment.grow {c c' : Compilation} {position : Nat} {inLoop : Bool} {code : Code}
    (h : Fragment c c.locals.length inLoop position code) (hgrows : c.Grows c') :
    Fragment c' c'.locals.length inLoop position code :=
  h.mono hgrows.extends hgrows.locals.length_le

theorem binary_opcode_ok (op : BinaryOp) : op.opcode.operandCount = 0 ∧ op.opcode ≠ .makeArray := by
  cases op <;> decide

theorem unary_opcode_ok (op : UnaryOp) : op.opcode.operandCount = 0 ∧ op.opcode ≠ .makeArray := by
  cases op <;> decide

theorem intrinsic_opcode_ok {name : String} {arity : Nat} {op : Opcode}
    (h : intrinsic? name = some (arity, op)) : op.operandCount = 0 ∧ op ≠ .makeArray := by
  unfold intrinsic? intrinsics at h
  simp only [List.lookup] at h
  split at h
  · cases h
    decide
  · split at h
    · cases h
      decide
    · cases h

theorem callItem_fits {span : Span} {name : String} {arguments locals : Nat} {inLoop : Bool}
    {item : Item} {c c' : Compilation} (h : callItem span name arguments c = .ok item c') :
    (∀ lands, Fits c' locals inLoop lands item) ∧ item ≠ .plain .makeArray := by
  obtain ⟨-, ⟨index, hindex, rfl⟩ | ⟨rfl, hname⟩⟩ := callItem_ok h
  · exact ⟨fun _ => .native hindex, withOperand_ne (by decide)⟩
  · exact ⟨fun _ => .call hname, by simp [Item.plain]⟩

theorem Fragment.dropResult {c : Compilation} {locals position : Nat} {inLoop : Bool} {code : Code}
    (h : Fragment c locals inLoop position code) (d : Compilation) (n : Node) :
    Fragment c locals inLoop position (d.dropResult n code) := by
  unfold Compilation.dropResult
  split
  · exact h.snoc (fun _ => .plain rfl) (plain_ne (by decide))
  · exact h

theorem Drafted.fragment {l : Bool} {p : Nat} {part : Part} {c c' : Compilation} {code : Code}
    (h : Drafted l p part c code c') : Fragment c' c'.locals.length l p code := by
  induction h with
  | literal hn hinsert =>
    obtain ⟨-, hindex, -⟩ := hn.inserts _ _ _ hinsert
    exact (fragment_nil _ _ _ _).cons (.constant hindex) (withOperand_ne (by decide))
  | read hslot =>
    have hlt := (List.getElem?_eq_some_iff.mp (findLocal_ok hslot).2).1
    exact (fragment_nil _ _ _ _).cons (.slot rfl hlt) (withOperand_ne (by decide))
  | declare hslot => exact fragment_nil _ _ _ _
  | array helements hinsert ih =>
    have hgrows := (inserts_scalar (countValue _) rfl).grows hinsert
    refine (ih.grow hgrows).makeArray ⟨_, ConstantPool.get?_insert? rfl hinsert, ?_⟩
    exact Number.isCount_ofLength _
  | block hitems ih => exact ih
  | lastBranch htest hbody hnext ihtest ihbody =>
    refine (ihtest.grow hbody.grows).append (ihbody.cons (.branch rfl ?_) (withOperand_ne (by decide)))
    exact lands_end (by simp; omega)
  | @branch l p span condition body next c test d code e rest c' htest hbody hnext hrest ihtest ihbody
      ihrest =>
    have hchoice := (ihbody.grow hrest.grows).choice ihrest
    simpa using (ihtest.grow (hbody.grows.trans hrest.grows)).append hchoice
  | @forEach l p span name collection body c elements d slot e code c' helements hslot hbody ihelements
      ihbody =>
    obtain ⟨hname, -, -⟩ := declareLocal_ok hslot
    have hlt := (List.getElem?_eq_some_iff.mp hname).1
    have hgrows := (growth_of_declareLocal hslot).trans hbody.grows
    have hloop := ihbody.loop l (Nat.lt_of_lt_of_le hlt hbody.grows.locals.length_le)
    simpa using (ihelements.grow hgrows).append (hloop.cons (.plain rfl) (plain_ne (o := .makeIter) (by decide)))
  | binary hright hleft ihright ihleft =>
    obtain ⟨hcount, hne⟩ := binary_opcode_ok _
    exact ((ihright.grow hleft.grows).append ihleft).snoc (fun _ => .plain hcount) (plain_ne hne)
  | unary hinner ih =>
    obtain ⟨hcount, hne⟩ := unary_opcode_ok _
    exact ih.snoc (fun _ => .plain hcount) (plain_ne hne)
  | assign hvalue hslot ih =>
    obtain ⟨hgrows, hlt⟩ := targetSlot_ok hslot
    exact (ih.grow hgrows).snoc (fun _ => .slot rfl hlt) (withOperand_ne (by decide))
  | resultValue hvalue ih => exact ih.snoc (fun _ => .plain rfl) (plain_ne (by decide))
  | resultNothing => exact (fragment_nil _ _ _ _).cons (.plain rfl) (plain_ne (by decide))
  | leave =>
    have hleave : Item.leave ≠ .plain .makeArray := by simp [Item.plain]
    exact ((fragment_nil _ _ _ _).cons (.leave rfl) hleave).cons (.plain rfl) (plain_ne (by decide))
  | intrinsic hname harguments ih =>
    obtain ⟨hcount, hne⟩ := intrinsic_opcode_ok hname
    exact ih.snoc (fun _ => .plain hcount) (plain_ne hne)
  | call hname harguments hitem ih =>
    obtain ⟨hfits, hne⟩ := callItem_fits hitem
    exact (ih.grow (callItem_ok hitem).1).snoc hfits hne
  | nodesNil => exact fragment_nil _ _ _ _
  | nodesCons hfirst hrest ihfirst ihrest => exact (ihfirst.grow hrest.grows).append ihrest
  | statementsNil => exact fragment_nil _ _ _ _
  | statementsCons hfirst hrest ihfirst ihrest =>
    exact ((ihfirst.grow hrest.grows).dropResult _ _).append ihrest

end Compilation

end ScriptMachine
