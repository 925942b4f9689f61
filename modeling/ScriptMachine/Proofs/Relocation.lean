import Mathlib
import ScriptMachine.Program
import ScriptMachine.Proofs.Linking

/-!
# Linking is undone by a walk

When a draft links, and what a walk over the linked code finds. A draft fails to link for one of two
reasons: its code would be longer than an offset reaches, or a target names a position behind the end
of the draft, and then the first such instruction is reported. In every other case the walk gives the
draft back, instruction by instruction, with offsets in the place of positions. Operands are spoken of
through the table of operand kinds that the decoder uses, not through the pass that rewrites them.
-/

namespace ScriptMachine

namespace Opcode

/-- An operation takes no operand, one, or two plain numbers. -/
theorem operands_cases (op : Opcode) :
    op.operands = [] ∨ (∃ kind, op.operands = [kind]) ∨ op.operands = [.numeric, .numeric] := by
  cases op <;> simp [operands]

end Opcode

namespace Draft

def operands (draft : Draft) : List (OperandKind × UInt32) :=
  draft.op.operands.zip [draft.first, draft.second]

theorem mem_operands_address {draft : Draft} {target : UInt32} :
    (.address, target) ∈ draft.operands ↔ draft.op.hasTarget = true ∧ target = draft.first := by
  rw [operands, Opcode.hasTarget]
  rcases draft.op.operands_cases with hnone | ⟨kind, hone⟩ | htwo
  · simp [hnone]
  · simp [hone]
  · simp [htwo]

/-- The draft has a target behind the end of a draft with `count` instructions. -/
def Misses (count : Nat) (draft : Draft) (target : UInt32) : Prop :=
  (.address, target) ∈ draft.operands ∧ count < target.toNat

/-- The first instruction with such a target, and its target. -/
def FirstMissing (count : Nat) (drafts : List Draft) (position : Nat) (target : UInt32) : Prop :=
  (∃ draft, drafts[position]? = some draft ∧ draft.Misses count target) ∧
    ∀ earlier < position, ∀ draft, drafts[earlier]? = some draft → ∀ other, ¬ draft.Misses count other

theorem FirstMissing.unique {count : Nat} {drafts : List Draft} {p q : Nat} {t u : UInt32}
    (hp : FirstMissing count drafts p t) (hq : FirstMissing count drafts q u) : p = q ∧ t = u := by
  obtain ⟨⟨draft, hdraft, hmisses⟩, hfirst⟩ := hp
  obtain ⟨⟨draft', hdraft', hmisses'⟩, hfirst'⟩ := hq
  have hpq : p = q := by
    by_contra hne
    rcases Nat.lt_or_gt_of_ne hne with hlt | hgt
    · exact hfirst' p hlt draft hdraft t hmisses
    · exact hfirst q hgt draft' hdraft' u hmisses'
  subst hpq
  rw [hdraft] at hdraft'
  cases hdraft'
  rw [(mem_operands_address.mp hmisses.1).2, (mem_operands_address.mp hmisses'.1).2]
  exact ⟨rfl, rfl⟩

theorem resolve_cases (table : Array Nat) (draft : Draft) {count : Nat} (htable : table.size = count + 1) :
    (∃ d, draft.resolve table = .ok d ∧ ∀ target, ¬ draft.Misses count target) ∨
      ∃ target, draft.resolve table = .error target ∧ draft.Misses count target := by
  unfold resolve
  by_cases htarget : draft.op.hasTarget = true
  · rw [if_pos htarget]
    cases hget : table[draft.first.toNat]? with
    | some offset =>
      refine .inl ⟨_, rfl, ?_⟩
      rintro target ⟨hmem, hlt⟩
      obtain ⟨hbound, -⟩ := Array.getElem?_eq_some_iff.mp hget
      rw [(mem_operands_address.mp hmem).2] at hlt
      omega
    | none =>
      refine .inr ⟨_, rfl, mem_operands_address.mpr ⟨htarget, rfl⟩, ?_⟩
      have := Array.getElem?_eq_none_iff.mp hget
      omega
  · rw [if_neg htarget]
    refine .inl ⟨draft, rfl, ?_⟩
    intro target hmisses
    exact htarget (mem_operands_address.mp hmisses.1).1

/-- Assembling succeeds or reports the first missing target. -/
theorem assemble_cases (table : Array Nat) {count : Nat} (htable : table.size = count + 1)
    (drafts : List Draft) (position : Nat) :
    (∃ code, assemble table position drafts = .ok code ∧
      ∀ draft ∈ drafts, ∀ target, ¬ draft.Misses count target) ∨
    ∃ k target, assemble table position drafts = .error (.targetOutOfRange (position + k) target) ∧
      FirstMissing count drafts k target := by
  induction drafts generalizing position with
  | nil => exact .inl ⟨[], rfl, by simp⟩
  | cons draft rest ih =>
    rw [assemble]
    rcases resolve_cases table draft htable with ⟨d, hd, hnone⟩ | ⟨target, herror, hmisses⟩
    · rw [hd]
      rcases ih (position + 1) with ⟨code, hcode, hrest⟩ | ⟨k, target, hcode, ⟨missing, hk, hmisses⟩, hfirst⟩
      · rw [hcode]
        refine .inl ⟨_, rfl, ?_⟩
        intro other hother
        rcases List.mem_cons.mp hother with rfl | hmem
        · exact hnone
        · exact hrest other hmem
      · rw [hcode]
        refine .inr ⟨k + 1, target, by rw [Nat.add_assoc, Nat.add_comm 1], ⟨missing, hk, hmisses⟩, ?_⟩
        intro earlier hearlier other hother
        by_cases hzero : earlier = 0
        · subst hzero
          cases hother
          exact hnone
        · obtain ⟨j, rfl⟩ := Nat.exists_eq_succ_of_ne_zero hzero
          exact hfirst j (by omega) other hother
    · rw [herror]
      exact .inr ⟨0, target, rfl, ⟨draft, rfl, hmisses⟩, by simp⟩

theorem length_assemble {table : Array Nat} {position : Nat} {drafts : List Draft} {code : List UInt8}
    (h : assemble table position drafts = .ok code) : code.length = (drafts.map length).sum := by
  induction drafts generalizing position code with
  | nil =>
    cases h
    rfl
  | cons draft rest ih =>
    obtain ⟨d, bytes, hd, hbytes, rfl⟩ := assemble_cons h
    rw [List.length_append, Instruction.length_encode, ih hbytes, op_of_resolve hd]
    rfl

theorem pairwise_offsets (start : Nat) (drafts : List Draft) : (offsets start drafts).Pairwise (· < ·) := by
  induction drafts generalizing start with
  | nil => exact List.pairwise_singleton _ _
  | cons draft rest ih =>
    rw [offsets, List.pairwise_cons]
    refine ⟨?_, ih _⟩
    intro offset hoffset
    have := (le_of_mem_offsets hoffset).1
    have := draft.length_pos
    omega

/-- The instruction is the draft at an offset: plain operands are the same, targets are replaced by
their offsets, and operands that the operation does not take are zero. -/
structure ReadsAs (offsets : List Nat) (offset : Nat) (draft : Draft) (i : Instruction) : Prop where
  offset : i.offset = offset
  op : i.op = draft.op
  operands : List.Forall₂ (fun operand found =>
    if operand.1 = .address then offsets[operand.2.toNat]? = some found.toNat else found = operand.2)
    draft.operands i.operands
  unused : ∀ k < 2, draft.op.operandCount ≤ k → [i.first, i.second][k]? = some 0

theorem readsAs_placed {table : List Nat} (offset : Nat) {draft : Draft}
    (htarget : draft.op.hasTarget = true → ∃ found, table[draft.first.toNat]? = some found ∧
      found < 0x100000000) :
    draft.ReadsAs table offset (draft.placed table offset) where
  offset := rfl
  op := rfl
  operands := by
    rw [operands, Instruction.operands, placed]
    simp only [Instruction.read, Opcode.hasTarget, Opcode.operandCount] at htarget ⊢
    rcases draft.op.operands_cases with hnone | ⟨kind, hone⟩ | htwo
    · simp [hnone]
    · by_cases haddress : kind = .address
      · subst haddress
        obtain ⟨found, hfound, hlt⟩ := htarget (by simp [hone])
        simp [hone, hfound, Nat.mod_eq_of_lt hlt]
      · simp [hone, haddress, Ne.symm haddress]
    · simp [htwo]
  unused k hk hcount := by
    simp only [placed, Instruction.read]
    by_cases hzero : k = 0
    · subst hzero
      rw [if_neg (by omega)]
      rfl
    · obtain rfl : k = 1 := by omega
      rw [if_neg (show ¬ 2 ≤ draft.op.operandCount by omega)]
      rfl

theorem map_offset_zipWith (table offsets : List Nat) (drafts : List Draft) :
    (List.zipWith (placed table) offsets drafts).map Instruction.offset = offsets.take drafts.length := by
  induction offsets generalizing drafts with
  | nil => simp
  | cons offset rest ih =>
    cases drafts with
    | nil => rfl
    | cons draft drafts =>
      rw [List.zipWith_cons_cons, List.map_cons, ih, List.length_cons, List.take_succ_cons]
      rfl

end Draft

namespace Assembly

def codeLength (a : Assembly) : Nat :=
  (a.drafts.toList.map Draft.length).sum

/-- A walk over the linked code gives the draft back. -/
structure ReadsBack (a : Assembly) (linked : Linked) : Prop where
  count : linked.offsets.length = a.drafts.size + 1
  increasing : linked.offsets.Pairwise (· < ·)
  last : linked.offsets.getLast? = some linked.code.length
  walk : ∃ instructions, Walk.ofCode linked.code.toArray = ⟨instructions, none⟩ ∧
    instructions.length = a.drafts.size ∧
    ∀ (k : Nat) (draft : Draft) (i : Instruction) (offset : Nat), a.drafts[k]? = some draft →
      instructions[k]? = some i → linked.offsets[k]? = some offset → draft.ReadsAs linked.offsets offset i
  boundaries : ∀ program : Program, program.code = linked.code.toArray → ∀ place,
    program.isBoundary place = true ↔ place ∈ linked.offsets.dropLast

/-- A draft links, is too large, or misses a target. -/
theorem link_cases (a : Assembly) :
    (a.link = .error .tooLarge ∧ maxCodeLength < a.codeLength) ∨
    (a.codeLength ≤ maxCodeLength ∧ ∃ position target,
      a.link = .error (.targetOutOfRange position target) ∧
        Draft.FirstMissing a.drafts.size a.drafts.toList position target) ∨
    (a.codeLength ≤ maxCodeLength ∧ (∃ linked, a.link = .ok linked) ∧
      ∀ draft ∈ a.drafts.toList, ∀ target, ¬ draft.Misses a.drafts.size target) := by
  simp only [link, Draft.getLastD_offsets, Nat.zero_add]
  by_cases hlarge : maxCodeLength < (a.drafts.toList.map Draft.length).sum
  · rw [if_pos hlarge]
    exact .inl ⟨rfl, hlarge⟩
  · rw [if_neg hlarge]
    have htable : (Draft.offsets 0 a.drafts.toList).toArray.size = a.drafts.size + 1 := by simp
    rcases Draft.assemble_cases _ htable a.drafts.toList 0 with ⟨code, hcode, hnone⟩ |
      ⟨k, target, hcode, hfirst⟩
    · rw [hcode]
      exact .inr (.inr ⟨Nat.not_lt.mp hlarge, ⟨_, rfl⟩, hnone⟩)
    · rw [hcode, Nat.zero_add]
      exact .inr (.inl ⟨Nat.not_lt.mp hlarge, k, target, rfl, hfirst⟩)

theorem readsBack_of_link {a : Assembly} {linked : Linked} (h : a.link = .ok linked) :
    a.ReadsBack linked := by
  obtain ⟨hoffsets, -, hcode⟩ := link_eq_ok h
  have hcount : linked.offsets.length = a.drafts.size + 1 := by
    rw [hoffsets, Draft.length_offsets, Array.length_toList]
  have hnone : ∀ draft ∈ a.drafts.toList, ∀ target, ¬ draft.Misses a.drafts.size target := by
    rcases link_cases a with ⟨herror, -⟩ | ⟨-, position, target, herror, -⟩ | ⟨-, -, hnone⟩
    · rw [h] at herror
      cases herror
    · rw [h] at herror
      cases herror
    · exact hnone
  refine ⟨hcount, ?_, ?_, ⟨_, walk_link h, ?_, ?_⟩, ?_⟩
  · rw [hoffsets]
    exact Draft.pairwise_offsets 0 _
  · have hne : linked.offsets ≠ [] := List.ne_nil_of_length_eq_add_one hcount
    have hlast := Draft.getLastD_offsets 0 a.drafts.toList
    rw [← hoffsets, Nat.zero_add, ← Draft.length_assemble hcode] at hlast
    rw [← hlast, List.getLastD_eq_getLast?, List.getLast?_eq_some_getLast hne]
    rfl
  · rw [List.length_zipWith, hcount, Array.length_toList]
    omega
  · intro k draft i offset hdraft hi hoffset
    have hget := walk_getElem? h k
    rw [walk_link h, hi, hdraft, List.getD_eq_getElem?_getD, hoffset] at hget
    cases hget
    apply Draft.readsAs_placed
    intro htarget
    have hmem : draft ∈ a.drafts.toList := Array.mem_toList_iff.mpr (Array.mem_of_getElem? hdraft)
    have hbound : draft.first.toNat < linked.offsets.length := by
      by_contra hge
      exact hnone draft hmem draft.first ⟨Draft.mem_operands_address.mpr ⟨htarget, rfl⟩, by omega⟩
    refine ⟨_, List.getElem?_eq_getElem hbound, ?_⟩
    have := offset_lt h (k := draft.first.toNat)
    rwa [List.getD_eq_getElem _ _ hbound] at this
  · intro program hprogram place
    rw [Program.isBoundary, hprogram, walk_link h]
    have hmap := Draft.map_offset_zipWith linked.offsets linked.offsets a.drafts.toList
    rw [List.dropLast_eq_take, hcount, Nat.add_sub_cancel, ← Array.length_toList, ← hmap,
      List.any_eq_true, List.mem_map]
    simp only [beq_iff_eq]

/-- Linking fails exactly for code that is too long, and else for the first target that is missing;
whatever links is found again by a walk over its code. -/
theorem link_undone_by_walk (a : Assembly) :
    (a.link = .error .tooLarge ↔ maxCodeLength < a.codeLength) ∧
    (∀ position target, a.link = .error (.targetOutOfRange position target) ↔
      a.codeLength ≤ maxCodeLength ∧
        Draft.FirstMissing a.drafts.size a.drafts.toList position target) ∧
    ((∃ linked, a.link = .ok linked) ↔ a.codeLength ≤ maxCodeLength ∧
      ∀ draft ∈ a.drafts.toList, ∀ target, ¬ draft.Misses a.drafts.size target) ∧
    ∀ linked, a.link = .ok linked → a.ReadsBack linked := by
  have hmem {position : Nat} {target : UInt32}
      (hfirst : Draft.FirstMissing a.drafts.size a.drafts.toList position target) :
      ∃ draft ∈ a.drafts.toList, draft.Misses a.drafts.size target := by
    obtain ⟨draft, hdraft, hmisses⟩ := hfirst.1
    exact ⟨draft, List.mem_of_getElem? hdraft, hmisses⟩
  rcases link_cases a with ⟨h, hlarge⟩ | ⟨hfits, p, t, h, hfirst⟩ | ⟨hfits, ⟨linked, h⟩, hnone⟩
  · refine ⟨?_, ?_, ?_, fun linked => readsBack_of_link⟩
    · simp [h, hlarge]
    · intro position target
      simp [h, Nat.not_le.mpr hlarge]
    · simp [h, Nat.not_le.mpr hlarge]
  · refine ⟨?_, ?_, ?_, fun linked => readsBack_of_link⟩
    · simp [h, hfits]
    · intro position target
      rw [h]
      constructor
      · intro heq
        cases heq
        exact ⟨hfits, hfirst⟩
      · rintro ⟨-, hother⟩
        obtain ⟨rfl, rfl⟩ := hfirst.unique hother
        rfl
    · obtain ⟨draft, hdraft, hmisses⟩ := hmem hfirst
      constructor
      · rintro ⟨linked, hlinked⟩
        rw [h] at hlinked
        cases hlinked
      · rintro ⟨-, hnone⟩
        exact absurd hmisses (hnone draft hdraft t)
  · refine ⟨?_, ?_, ?_, fun linked => readsBack_of_link⟩
    · simp [h, hfits]
    · intro position target
      rw [h]
      constructor
      · intro heq
        cases heq
      · rintro ⟨-, hother⟩
        obtain ⟨draft, hdraft, hmisses⟩ := hmem hother
        exact absurd hmisses (hnone draft hdraft target)
    · exact ⟨fun _ => ⟨hfits, hnone⟩, fun _ => ⟨linked, h⟩⟩

/-- A draft with a forward and a backward jump, a patched operand and a replaced instruction. -/
def sampleDraft : Assembly :=
  let a := (((empty.emit .jumpIfFalse).emit .makeFrame 1 0).emit .halt).emit .jump 1
  ((a.bind 0 a.next).patch 1 1 7).replace 2 ⟨.pushValue, 3, 9⟩

theorem link_undone_by_walk_sample : ∃ linked, sampleDraft.link = .ok linked ∧
    linked.offsets = [0, 5, 14, 19, 24] ∧ sampleDraft.ReadsBack linked :=
  ⟨_, rfl, rfl, (link_undone_by_walk sampleDraft).2.2.2 _ rfl⟩

end Assembly

end ScriptMachine
