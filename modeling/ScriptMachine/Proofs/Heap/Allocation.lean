import Mathlib
import ScriptMachine.Proofs.Heap.FirstFit
import ScriptMachine.Proofs.Heap.Intact
import ScriptMachine.Proofs.Heap.Safety

/-!
# Allocation

An allocation is a search, maybe a collection and a second search, marking and clearing. Together they
take one block that was free into use and touch nothing else; an allocation that fails has changed no slot.
Which slots count as free is settled by the search: those of the bitmap as it is, if a block is found
there, and those of the bitmap that a collection leaves otherwise.
-/

namespace ScriptMachine

namespace Heap

variable {h left : Heap} {marks : Bitmap} {roots : List Value} {start count : Nat}

/-- A heap that was made with some settings, with whatever has been done to it since. -/
inductive Built : Heap → Prop where
  | create {settings : HeapSettings} {h : Heap} (hcreate : Heap.create settings = .ok h) : Built h
  | apply {h : Heap} (hbuilt : Built h) (method : Method) : Built (method.apply h)

theorem Built.intact (hbuilt : h.Built) : ∃ capacity base, h.Intact capacity base := by
  induction hbuilt with
  | create hcreate => exact ⟨_, _, Intact.create hcreate⟩
  | apply _ method ih =>
    obtain ⟨capacity, base, hintact⟩ := ih
    exact ⟨capacity, base, hintact.apply method⟩

theorem Intact.shaped {capacity base : Nat} (hintact : h.Intact capacity base) : h.Shaped where
  pages := by
    rw [hintact.capacity_eq]
    exact hintact.marks.le_pages
  reach := by
    rw [hintact.capacity_eq, hintact.base_eq]
    exact hintact.reach

/-- What is left of a heap when a block that is free in a bitmap is taken into use: the bitmap with the
bits of the block, and the slots with nothing in those of the block. -/
structure Takes (h : Heap) (marks : Bitmap) (start count : Nat) (left : Heap) : Prop where
  free : marks.FreeIn start (start + count)
  pages : left.marks.pages.size = marks.pages.size
  marks : ∀ slot, left.marks.isSet slot = true ↔ marks.isSet slot = true ∨ InRange (start, count) slot
  cleared : ∀ slot, InRange (start, count) slot → Slots.read left.slots slot = .nothing
  others : ∀ slot, ¬InRange (start, count) slot → Slots.read left.slots slot = Slots.read h.slots slot
  capacity : left.capacity = h.capacity
  base : left.base = h.base

theorem takes_taken (hpages : h.capacity ≤ 64 * h.marks.pages.size) (hbound : start + count ≤ h.capacity)
    (hfree : h.marks.FreeIn start (start + count)) : Takes h h.marks start count (h.taken start count) where
  free := hfree
  pages := Bitmap.size_pages_setRange _ _ _
  marks slot := by
    rw [taken, Bitmap.isSet_setRange _ _ _ _ (hbound.trans hpages), Bool.or_eq_true, decide_eq_true_eq,
      InRange]
  cleared slot hslot := by
    rw [taken, Slots.read_clear]
    exact if_pos hslot
  others slot hslot := by
    rw [taken, Slots.read_clear]
    exact if_neg hslot
  capacity := capacity_taken h start count
  base := rfl

theorem shaped_searched (hshaped : h.Shaped) (count : Nat) (roots : List Value) :
    (h.searched count roots).Shaped := by
  rcases searched_cases count roots h with hsame | hsame
  · rw [hsame]
    exact hshaped
  · rw [hsame]
    obtain ⟨done, hprogress⟩ := exists_progress h roots
    exact ⟨hprogress.pages, hshaped.reach⟩

theorem collections_searched (count : Nat) (roots : List Value) (h : Heap) :
    (h.searched count roots).collections
      = if (h.marks.findFree? h.capacity count).isSome then h.collections else h.collections + 1 := by
  rw [searched]
  split <;> rfl

/-- The block that is taken fits in the bitmap that was searched last. -/
theorem allocate_of_fitting (hshaped : h.Shaped) (hcount : 0 < count) (hfits : count ≤ h.capacity)
    (hlarge : count ≤ maxArrayLength) (hfit : (h.searched count roots).marks.Fitting h.capacity count start) :
    ∃ start, (h.searched count roots).marks.Fitting h.capacity count start ∧
      allocate count roots h
        = .ok (.mutable (.ofNat (h.base + start))) ((h.searched count roots).taken start count) := by
  have hpages := (shaped_searched hshaped count roots).pages
  rw [capacity_searched] at hpages
  obtain ⟨found, -, hfound⟩ := hfit.findFree?_le hcount hpages
  exact ⟨found, Bitmap.findFree?_fitting hcount hfound, allocate_eq_ok hcount hfits hlarge hfound⟩

/-- No slots are had for nothing, and too many are refused; both leave the heap as it was. Otherwise, if a
block fits in the bitmap that is searched last, one such block and nothing else is taken into use, and if
none fits, every slot keeps its value and only a collection has taken place. -/
theorem allocation_takes_exactly_its_block (hbuilt : h.Built) (count : Nat) (roots : List Value) :
    (count = 0 → allocate count roots h = .ok .null h) ∧
    (h.capacity < count ∨ maxArrayLength < count →
      allocate count roots h = .error (.tooLarge count h.capacity) h) ∧
    (0 < count → count ≤ h.capacity → count ≤ maxArrayLength →
      ((∃ start, (h.searched count roots).marks.Fitting h.capacity count start) →
        ∃ start offset left, allocate count roots h = .ok (.mutable offset) left ∧
          offset.toNat = h.base + start ∧
          left.range? (.array (.mutable offset) (.ofNat count)) = some (start, count) ∧
          Takes h (h.searched count roots).marks start count left ∧
          left.collections = if (h.marks.findFree? h.capacity count).isSome then h.collections
            else h.collections + 1) ∧
      ((∀ start, ¬(h.searched count roots).marks.Fitting h.capacity count start) →
        ∃ left, allocate count roots h = .error (.exhausted count) left ∧ left.slots = h.slots ∧
          left.marks = (h.searched count roots).marks ∧ left.base = h.base ∧
          left.collections = h.collections + 1)) := by
  obtain ⟨capacity, base, hintact⟩ := hbuilt.intact
  have hshaped := hintact.shaped
  have hsearched := shaped_searched hshaped count roots
  refine ⟨fun hzero => if_pos hzero, allocate_tooLarge roots,
    fun hcount hfits hlarge => ⟨?_, fun hnone => ?_⟩⟩
  · rintro ⟨_, hfit⟩
    obtain ⟨start, hfit, hallocate⟩ := allocate_of_fitting hshaped hcount hfits hlarge hfit
    have hbound : start + count ≤ (h.searched count roots).capacity := by
      rw [capacity_searched]
      exact hfit.below
    have htakes := takes_taken hsearched.pages hbound hfit.free
    refine ⟨start, _, _, hallocate, toNat_blockOffset hshaped.reach hcount hfit.below, ?_, ?_,
      collections_searched count roots h⟩
    · rw [range?_taken, ← base_searched count roots h]
      exact range?_block hsearched hcount hlarge hbound
    · exact { htakes with
        others := fun slot hslot => by rw [htakes.others slot hslot, slots_searched]
        capacity := by rw [htakes.capacity, capacity_searched]
        base := by rw [htakes.base, base_searched] }
  · have hpages := hsearched.pages
    rw [capacity_searched] at hpages
    have hfound : (h.searched count roots).marks.findFree? h.capacity count = none :=
      (Bitmap.findFree?_eq_none_iff hcount hpages).mpr hnone
    obtain ⟨hcollected, herror⟩ := allocate_eq_error hcount hfits hlarge hfound
    exact ⟨_, herror, rfl, by rw [hcollected], rfl, rfl⟩

/-- A heap of four slots, the first three of which have been allocated. -/
def nearlyFull : Heap :=
  (Method.allocate 3 []).apply ⟨Slots.empty 4, Bitmap.empty 4, 10, 0⟩

theorem built_nearlyFull : nearlyFull.Built := by
  have hcreate : create ⟨4, 10⟩ = .ok ⟨Slots.empty 4, Bitmap.empty 4, 10, 0⟩ := rfl
  exact (Built.create hcreate).apply (.allocate 3 [])

/-- Two more slots are found only after a collection. They are the first two if nothing refers to the old
block, and there are none if a root does. -/
theorem allocation_takes_exactly_its_block_sample :
    nearlyFull.Built ∧
    (∃ start offset left, allocate 2 [] nearlyFull = .ok (.mutable offset) left ∧
      offset.toNat = 10 + start ∧ Takes nearlyFull ⟨#[0]⟩ start 2 left ∧ left.collections = 1) ∧
    ∃ left, allocate 2 [.array (.mutable 10) 3] nearlyFull = .error (.exhausted 2) left ∧
      left.marks = ⟨#[7]⟩ ∧ left.collections = 1 := by
  have hfree : (nearlyFull.searched 2 []).marks.findFree? nearlyFull.capacity 2 = some 0 := by cbv
  have hfull : (nearlyFull.searched 2 [.array (.mutable 10) 3]).marks.findFree? nearlyFull.capacity 2
      = none := by cbv
  have hempty : (nearlyFull.searched 2 []).marks = ⟨#[0]⟩ := by cbv
  have hkept : (nearlyFull.searched 2 [.array (.mutable 10) 3]).marks = ⟨#[7]⟩ := by cbv
  refine ⟨built_nearlyFull, ?_, ?_⟩
  · obtain ⟨start, offset, left, hallocate, hoffset, -, htakes, hcollections⟩ :=
      ((allocation_takes_exactly_its_block built_nearlyFull 2 []).2.2 (by decide) (by decide)
        (by decide)).1 ⟨0, Bitmap.findFree?_fitting (by decide) hfree⟩
    rw [hempty] at htakes
    exact ⟨start, offset, left, hallocate, hoffset, htakes, hcollections⟩
  · obtain ⟨left, hallocate, -, hmarks, -, hcollections⟩ :=
      ((allocation_takes_exactly_its_block built_nearlyFull 2 [.array (.mutable 10) 3]).2.2 (by decide)
        (by decide) (by decide)).2
        ((Bitmap.findFree?_eq_none_iff (by decide) (by rw [hkept]; decide)).mp hfull)
    rw [hkept] at hmarks
    exact ⟨left, hallocate, hmarks, hcollections⟩

end Heap

end ScriptMachine
