import Mathlib
import ScriptMachine.Proofs.Heap.Marking

/-!
# What a collection keeps

After a collection a slot is in use together with a whole range that can be reached. What a root or a
slot in use refers to is in use from its first slot on, up to the end of some range that was marked
before it. So a range is kept as a whole unless it starts inside another one and ends behind it, and
ranges that overlap in this way are the only reason for which a collection gives up a slot that can be
reached.
-/

namespace ScriptMachine

namespace Heap

variable {h : Heap} {roots : List Value} {done : List (Nat × Nat)} {slot : Nat}

/-- The slots in use after a collection are those of the ranges that it has gone through. -/
theorem isMarked_collect (hp : Progress h roots [] (h.reachableMarks roots) done) :
    (h.collect roots).isMarked slot = true ↔ ∃ range ∈ done, InRange range slot := by
  have hmarked : (h.collect roots).isMarked slot
      = (decide (slot < h.capacity) && (h.reachableMarks roots).isSet slot) := rfl
  rw [hmarked, Bool.and_eq_true, decide_eq_true_eq, hp.marked, and_iff_right_iff_imp]
  rintro ⟨range, hrange, hslot⟩
  obtain ⟨-, hbound⟩ := (hp.done_reachable range hrange).bounds
  exact Nat.lt_of_lt_of_le hslot.2 hbound

/-- Whatever the roots are, a collection keeps whole ranges that can be reached, and the first slot of
every range that a root or a slot in use refers to. It keeps every slot that can be reached if no range
starts inside another one and ends behind it. -/
theorem collection_keeps_nested_ranges (h : Heap) (roots : List Value) :
    (∀ slot, (h.collect roots).isMarked slot = true → ∃ range, h.Reachable roots range ∧
      InRange range slot ∧ ∀ other, InRange range other → (h.collect roots).isMarked other = true) ∧
    (∀ value ∈ roots, ∀ range, h.range? value = some range →
      (h.collect roots).isMarked range.1 = true) ∧
    (∀ slot, (h.collect roots).isMarked slot = true → ∀ range,
      h.range? (Slots.read h.slots slot) = some range → (h.collect roots).isMarked range.1 = true) ∧
    (h.Nested roots → ∀ range slot, h.Reachable roots range → InRange range slot →
      (h.collect roots).isMarked slot = true) := by
  obtain ⟨done, hp⟩ := exists_progress h roots
  refine ⟨fun slot hslot => ?_, fun value hvalue range hrange => ?_,
    fun slot hslot range hrange => ?_, fun hnested range slot hrange hslot => ?_⟩
  · obtain ⟨range, hrange, hin⟩ := (isMarked_collect hp).mp hslot
    exact ⟨range, hp.done_reachable range hrange, hin,
      fun other hother => (isMarked_collect hp).mpr ⟨range, hrange, hother⟩⟩
  · have hset := (hp.roots value hvalue range hrange).resolve_right List.not_mem_nil
    exact (isMarked_collect hp).mpr ((hp.marked _).mp hset)
  · obtain ⟨outer, houter, hin⟩ := (isMarked_collect hp).mp hslot
    have hset := (hp.closed outer houter slot hin range hrange).resolve_right List.not_mem_nil
    exact (isMarked_collect hp).mpr ((hp.marked _).mp hset)
  · exact (isMarked_collect hp).mpr ((hp.marked _).mp (isSet_of_nested hnested hrange hslot))

/-- Four slots, of which the second one holds the array of all four. -/
def knottedHeap : Heap :=
  ⟨#[.nothing, .array (.mutable 8) 4, .nothing, .nothing], Bitmap.empty 4, 8, 0⟩

/-- An iterator over the last two slots, and the slot with the array. -/
def knottedRoots : List Value :=
  [.array (.mutable 9) 1, .iterator (.mutable 10) 2]

theorem range_of_knottedHeap {range : Nat × Nat} (hrange : knottedHeap.Reachable knottedRoots range) :
    range = (1, 1) ∨ range = (2, 2) ∨ range = (0, 4) := by
  cases hrange with
  | root hvalue hrange =>
    simp only [knottedRoots, List.mem_cons, List.not_mem_nil, or_false] at hvalue
    rcases hvalue with rfl | rfl
    · exact .inl (Option.some.inj hrange).symm
    · exact .inr (.inl (Option.some.inj hrange).symm)
  | @slot outer _ slot houter hslot hrange =>
    have hbound : slot < 4 := Nat.lt_of_lt_of_le hslot.2 houter.bounds.2
    interval_cases slot
    · cases hrange
    · exact .inr (.inr (Option.some.inj hrange).symm)
    · cases hrange
    · cases hrange

theorem nested_knottedHeap : knottedHeap.Nested knottedRoots := by
  intro range other hrange hother hfirst
  simp only [InRange] at hfirst
  rcases range_of_knottedHeap hrange with rfl | rfl | rfl <;>
    rcases range_of_knottedHeap hother with rfl | rfl | rfl <;> simp at hfirst ⊢

/-- The array is reached through its own slot. -/
theorem collection_keeps_nested_ranges_sample :
    knottedHeap.Nested knottedRoots ∧ knottedHeap.Reachable knottedRoots (0, 4) ∧
      (knottedHeap.collect knottedRoots).isMarked 0 = true := by
  have harray : knottedHeap.Reachable knottedRoots (0, 4) :=
    .slot (.root (List.mem_cons_self ..) (rfl : _ = some (1, 1))) ⟨Nat.le_refl 1, Nat.lt_succ_self 1⟩ rfl
  have hkept := (collection_keeps_nested_ranges knottedHeap knottedRoots).2.2.2 nested_knottedHeap
  exact ⟨nested_knottedHeap, harray, hkept (0, 4) 0 harray ⟨Nat.le_refl 0, Nat.zero_lt_succ 3⟩⟩

/-- A heap of four slots whose first slots were taken for one array, given up and taken again for
another one. -/
def reusedHeap : Heap :=
  ⟨Slots.empty 4, (Bitmap.empty 4).setRange 0 3, 2048, 1⟩

/-- The first array, which the host still holds. -/
def staleArray : Value :=
  .array (.mutable 2048) 1

def freshArray : Value :=
  .array (.mutable 2048) 3

/-- Two slots of an array that can be reached are given up because its first slot was marked for a
shorter one. The other order of the roots keeps them. -/
theorem stale_array_hides_slots :
    reusedHeap.Reachable [freshArray, staleArray] (0, 3) ∧ InRange (0, 3) 1 ∧
      (reusedHeap.collect [freshArray, staleArray]).isMarked 1 = false ∧
      (reusedHeap.collect [staleArray, freshArray]).isMarked 1 = true :=
  ⟨.root (List.mem_cons_self ..) rfl, ⟨by decide, by decide⟩, by cbv, by cbv⟩

end Heap

end ScriptMachine
