import Mathlib
import ScriptMachine.Proofs.Heap.Marking

/-!
# The loop of a collection

A heap may hold anything: arrays that contain themselves, arrays in a circle, ranges that overlap. The
loop of a collection ends all the same. A turn that marks a range takes at least one slot from those that
are not marked, and adds no more to what is pending than the range has slots; any other turn only makes
what is pending shorter. So pending ranges, and as many turns for every slot that is not marked as the
heap has slots, bound what is left to do.
-/

namespace ScriptMachine

namespace Heap

/-- The loop of a collection turn by turn: with these ranges pending and these bits set, it ends after so
many turns and leaves a bitmap. The next range is passed over if its first slot is marked; otherwise it is
marked, and what its slots refer to comes next. -/
inductive Loop (h : Heap) : (pending : List (Nat × Nat)) → Bitmap → (turns : Nat) → Bitmap → Prop where
  | done {marks : Bitmap} : Loop h [] marks 0 marks
  | pass {range : Nat × Nat} {rest : List (Nat × Nat)} {marks last : Bitmap} {turns : Nat}
      (hset : marks.isSet range.1 = true) (hrest : Loop h rest marks turns last) :
      Loop h (range :: rest) marks (turns + 1) last
  | mark {range : Nat × Nat} {rest : List (Nat × Nat)} {marks last : Bitmap} {turns : Nat}
      (hfree : marks.isSet range.1 = false)
      (hrest : Loop h (h.rangesIn range ++ rest) (marks.setRange range.1 range.2) turns last) :
      Loop h (range :: rest) marks (turns + 1) last

variable {h : Heap} {roots : List Value} {pending done : List (Nat × Nat)} {marks last : Bitmap}

/-- Every range that is passed over takes one turn. -/
theorem Loop.of_dropWhile {turns : Nat}
    (hloop : Loop h (pending.dropWhile fun range => marks.isSet range.1) marks turns last) :
    Loop h pending marks (turns + (pending.takeWhile fun range => marks.isSet range.1).length) last := by
  induction pending with
  | nil => exact hloop
  | cons range rest ih =>
    rw [List.dropWhile_cons] at hloop
    rw [List.takeWhile_cons]
    by_cases hset : marks.isSet range.1 = true
    · rw [if_pos hset] at hloop
      rw [if_pos hset, List.length_cons]
      exact .pass hset (ih hloop)
    · rw [if_neg hset] at hloop
      rw [if_neg hset]
      exact hloop

/-- A range refers to no more ranges than it has slots. -/
theorem length_rangesIn_le (h : Heap) (range : Nat × Nat) : (h.rangesIn range).length ≤ range.2 := by
  rw [rangesIn, List.length_reverse]
  refine (List.length_filterMap_le _ _).trans ?_
  rw [Slots.slice, Array.length_toList, Array.size_extract]
  omega

/-- The rounds of `mark` are the turns of the loop without those that pass over a range. -/
theorem mark_loop {rounds : Nat} (hp : Progress h roots pending marks done)
    (hrounds : (unmarked marks h.capacity).card < rounds) :
    ∃ turns ≤ pending.length + h.capacity * (unmarked marks h.capacity).card,
      Loop h pending marks turns (h.mark rounds pending marks) := by
  induction rounds generalizing pending marks done with
  | zero => omega
  | succ rounds ih =>
    have hdropped := hp.dropWhile
    have hpassed := congrArg List.length
      (List.takeWhile_append_dropWhile (p := fun range => marks.isSet range.1) (l := pending))
    rw [List.length_append] at hpassed
    rw [mark]
    cases hpending : pending.dropWhile fun range => marks.isSet range.1 with
    | nil =>
      have hloop : Loop h (pending.dropWhile fun range => marks.isSet range.1) marks 0 marks := by
        rw [hpending]
        exact .done
      refine ⟨_, ?_, hloop.of_dropWhile⟩
      omega
    | cons range rest =>
      rw [hpending] at hdropped hpassed
      have hfree : marks.isSet range.1 = false := isSet_of_dropWhile hpending
      obtain ⟨hpos, hbound⟩ := (hdropped.pending_reachable range (by simp)).bounds
      have hless := card_unmarked_setRange hdropped.pages hpos hbound hfree
      obtain ⟨turns, hturns, hround⟩ := ih hdropped.round (by omega)
      have hloop : Loop h (pending.dropWhile fun range => marks.isSet range.1) marks (turns + 1)
          (h.mark rounds (h.rangesIn range ++ rest) (marks.setRange range.1 range.2)) := by
        rw [hpending]
        exact .mark hfree hround
      refine ⟨_, ?_, hloop.of_dropWhile⟩
      have hnew := length_rangesIn_le h range
      have hpaid := Nat.mul_le_mul_left h.capacity (Nat.succ_le_of_lt hless)
      rw [Nat.mul_succ] at hpaid
      rw [List.length_append] at hturns
      rw [List.length_cons] at hpassed
      omega

/-- What is found in a heap does not depend on the slots that were in use. -/
theorem mark_withMarks (h : Heap) (old : Bitmap) (rounds : Nat) (pending : List (Nat × Nat))
    (marks : Bitmap) :
    Heap.mark { h with marks := old } rounds pending marks = h.mark rounds pending marks := by
  induction rounds generalizing pending marks with
  | zero => rfl
  | succ rounds ih =>
    rw [mark, mark]
    cases pending.dropWhile fun range => marks.isSet range.1 with
    | nil => rfl
    | cons range rest => exact ih _ _

/-- Whatever the slots and the roots hold, the loop of a collection ends, after at most one turn for each
root and as many for each slot as there are slots. Every bit that is set then is that of a slot that can
be reached, the slots hold what they held, and the slots that were in use before make no difference. -/
theorem collection_ends_and_keeps_only_the_reachable (h : Heap) (roots : List Value) :
    (∃ turns ≤ roots.length + h.capacity * h.capacity,
      Loop h (roots.filterMap h.range?).reverse (Bitmap.empty h.capacity) turns (h.collect roots).marks) ∧
    (∀ slot, (h.collect roots).marks.isSet slot = true →
      ∃ range, h.Reachable roots range ∧ InRange range slot) ∧
    (h.collect roots).slots = h.slots ∧
    ∀ old, (collect roots { h with marks := old }).marks = (h.collect roots).marks := by
  refine ⟨?_, fun slot hslot => ?_, rfl, fun old => mark_withMarks h old _ _ _⟩
  · have hcard : (unmarked (Bitmap.empty h.capacity) h.capacity).card ≤ h.capacity :=
      (Finset.card_filter_le _ _).trans (Finset.card_range _).le
    obtain ⟨turns, hturns, hloop⟩ := mark_loop (progress_start h roots) (Nat.lt_succ_of_le hcard)
    refine ⟨turns, hturns.trans (Nat.add_le_add ?_ (Nat.mul_le_mul_left _ hcard)), hloop⟩
    rw [List.length_reverse]
    exact List.length_filterMap_le _ _
  · obtain ⟨done, hp⟩ := exists_progress h roots
    obtain ⟨range, hrange, hin⟩ := (hp.marked slot).mp hslot
    exact ⟨range, hp.done_reachable range hrange, hin⟩

end Heap

end ScriptMachine
