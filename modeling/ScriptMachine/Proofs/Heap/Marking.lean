import Mathlib
import ScriptMachine.Heap
import ScriptMachine.Proofs.Heap.Bitmap
import ScriptMachine.Proofs.Slots

/-!
# What a collection marks

The collector passes over a range as soon as its first slot is marked. That is right as long as no
range that can be reached starts inside another one and ends behind it: the marked slots are a union of
whole ranges, so a range whose first slot is marked lies inside one of them. Under that condition a
collection marks every slot that can be reached. A program on its own meets it, because ranges that it
can reach and that overlap end at the same slot.
-/

namespace ScriptMachine

namespace Heap

def InRange (range : Nat × Nat) (slot : Nat) : Prop :=
  range.1 ≤ slot ∧ slot < range.1 + range.2

/-- The ranges that can be reached from the roots through arrays and iterators. -/
inductive Reachable (h : Heap) (roots : List Value) : Nat × Nat → Prop where
  | root {value : Value} {range : Nat × Nat} (hvalue : value ∈ roots)
      (hrange : h.range? value = some range) : Reachable h roots range
  | slot {outer range : Nat × Nat} {slot : Nat} (houter : Reachable h roots outer)
      (hslot : InRange outer slot) (hrange : h.range? (Slots.read h.slots slot) = some range) :
      Reachable h roots range

/-- Ranges that can be reached and overlap end at the same slot. -/
def TailsMeet (h : Heap) (roots : List Value) : Prop :=
  ∀ range other slot, h.Reachable roots range → h.Reachable roots other → InRange range slot →
    InRange other slot → range.1 + range.2 = other.1 + other.2

/-- No range that can be reached starts inside another one and ends behind it. -/
def Nested (h : Heap) (roots : List Value) : Prop :=
  ∀ range other, h.Reachable roots range → h.Reachable roots other → InRange range other.1 →
    other.1 + other.2 ≤ range.1 + range.2

/-- The bitmap has a bit for every slot, and every slot has an address. -/
structure Shaped (h : Heap) : Prop where
  pages : h.capacity ≤ 64 * h.marks.pages.size
  reach : h.base + h.capacity ≤ maxOffset + 1

variable {h : Heap} {roots : List Value} {range : Nat × Nat} {value : Value}

theorem slotAt?_eq_some {address : Address} {length start : Nat} :
    h.slotAt? address length = some start ↔
      ∃ offset, address = .mutable offset ∧ offset.toNat = h.base + start ∧
        start + length ≤ h.capacity := by
  cases address with
  | null => simp [slotAt?]
  | constant offset => simp [slotAt?]
  | mutable offset =>
    simp only [slotAt?, Option.ite_none_right_eq_some, Option.some.injEq, Address.mutable.injEq,
      exists_eq_left']
    omega

theorem range?_bounds (hrange : h.range? value = some range) :
    0 < range.2 ∧ range.1 + range.2 ≤ h.capacity := by
  unfold range? at hrange
  split at hrange
  case h_3 => cases hrange
  all_goals
    rename_i address length
    split at hrange
    · cases hrange
    · rename_i hlength
      obtain ⟨start, hstart, rfl⟩ := Option.map_eq_some_iff.mp hrange
      obtain ⟨-, -, -, hbound⟩ := slotAt?_eq_some.mp hstart
      refine ⟨Nat.pos_of_ne_zero fun hzero => hlength ?_, hbound⟩
      exact UInt32.toNat_inj.mp hzero

theorem Reachable.bounds (hrange : h.Reachable roots range) :
    0 < range.2 ∧ range.1 + range.2 ≤ h.capacity := by
  cases hrange with
  | root _ hrange => exact range?_bounds hrange
  | slot _ _ hrange => exact range?_bounds hrange

/-- The state of a collection: the bits that are set are those of the ranges done so far, and what these
and the roots refer to has been begun or is pending. -/
structure Progress (h : Heap) (roots : List Value) (pending : List (Nat × Nat)) (marks : Bitmap)
    (done : List (Nat × Nat)) : Prop where
  pages : h.capacity ≤ 64 * marks.pages.size
  pending_reachable : ∀ range ∈ pending, h.Reachable roots range
  done_reachable : ∀ range ∈ done, h.Reachable roots range
  marked : ∀ slot, marks.isSet slot = true ↔ ∃ range ∈ done, InRange range slot
  closed : ∀ range ∈ done, ∀ slot, InRange range slot → ∀ inner,
    h.range? (Slots.read h.slots slot) = some inner → marks.isSet inner.1 = true ∨ inner ∈ pending
  roots : ∀ value ∈ roots, ∀ range, h.range? value = some range →
    marks.isSet range.1 = true ∨ range ∈ pending

theorem mem_rangesIn {inner : Nat × Nat} (hbound : range.1 + range.2 ≤ h.capacity) :
    inner ∈ h.rangesIn range ↔
      ∃ slot, InRange range slot ∧ h.range? (Slots.read h.slots slot) = some inner := by
  rw [rangesIn, List.mem_reverse, List.mem_filterMap]
  constructor
  · rintro ⟨v, hv, hinner⟩
    obtain ⟨slot, hlow, hhigh, -, rfl⟩ := Slots.exists_of_mem_slice hv
    exact ⟨slot, ⟨hlow, hhigh⟩, hinner⟩
  · rintro ⟨slot, ⟨hlow, hhigh⟩, hinner⟩
    refine ⟨_, ?_, hinner⟩
    obtain ⟨k, rfl⟩ := Nat.exists_eq_add_of_le hlow
    apply List.mem_of_getElem? (i := k)
    rw [Slots.getElem?_slice, if_pos ⟨hhigh, Nat.lt_of_lt_of_le hhigh hbound⟩]

theorem progress_start (h : Heap) (roots : List Value) :
    Progress h roots (roots.filterMap h.range?).reverse (Bitmap.empty h.capacity) [] where
  pages := by
    rw [Bitmap.size_pages_empty]
    omega
  pending_reachable range hrange := by
    obtain ⟨value, hvalue, hrange⟩ := List.mem_filterMap.mp (List.mem_reverse.mp hrange)
    exact .root hvalue hrange
  done_reachable := by simp
  marked slot := by simp [Bitmap.isSet_empty]
  closed := by simp
  roots value hvalue range hrange :=
    .inr (List.mem_reverse.mpr (List.mem_filterMap.mpr ⟨value, hvalue, hrange⟩))

/-- Ranges whose first slot is marked may be passed over. -/
theorem Progress.dropWhile {pending done : List (Nat × Nat)} {marks : Bitmap}
    (hp : Progress h roots pending marks done) :
    Progress h roots (pending.dropWhile fun range => marks.isSet range.1) marks done := by
  have hkept {range : Nat × Nat} (hrange : marks.isSet range.1 = true ∨ range ∈ pending) :
      marks.isSet range.1 = true ∨ range ∈ pending.dropWhile fun range => marks.isSet range.1 := by
    rcases hrange with hset | hmem
    · exact .inl hset
    · rw [← List.takeWhile_append_dropWhile (p := fun range => marks.isSet range.1) (l := pending)] at hmem
      rcases List.mem_append.mp hmem with htaken | hleft
      · exact .inl (List.mem_takeWhile_imp (p := fun range : Nat × Nat => marks.isSet range.1) htaken)
      · exact .inr hleft
  exact { hp with
    pending_reachable := fun range hrange =>
      hp.pending_reachable range ((List.dropWhile_sublist _).subset hrange)
    closed := fun range hrange slot hslot inner hinner => hkept (hp.closed range hrange slot hslot inner hinner)
    roots := fun value hvalue range hrange => hkept (hp.roots value hvalue range hrange) }

/-- One round marks a range and makes pending what it refers to. -/
theorem Progress.round {rest done : List (Nat × Nat)} {marks : Bitmap}
    (hp : Progress h roots (range :: rest) marks done) :
    Progress h roots (h.rangesIn range ++ rest) (marks.setRange range.1 range.2) (range :: done) := by
  have hreachable := hp.pending_reachable range (by simp)
  obtain ⟨hpos, hbound⟩ := hreachable.bounds
  have hpages := hp.pages
  have hset (slot : Nat) := Bitmap.isSet_setRange marks range.1 range.2 slot (by omega)
  have hkept {other : Nat × Nat} (hother : marks.isSet other.1 = true ∨ other ∈ range :: rest) :
      (marks.setRange range.1 range.2).isSet other.1 = true ∨ other ∈ h.rangesIn range ++ rest := by
    rw [hset, Bool.or_eq_true, decide_eq_true_eq]
    rcases hother with hmarked | hmem
    · exact .inl (.inl hmarked)
    · rcases List.mem_cons.mp hmem with rfl | hrest
      · exact .inl (.inr ⟨Nat.le_refl _, by omega⟩)
      · exact .inr (List.mem_append_right _ hrest)
  refine ⟨by simpa using hpages, fun other hother => ?_, fun other hother => ?_, fun slot => ?_,
    fun other hother slot hslot inner hinner => ?_, fun value hvalue other hother => ?_⟩
  · rcases List.mem_append.mp hother with hinner | hrest
    · obtain ⟨slot, hslot, hinner⟩ := (mem_rangesIn hbound).mp hinner
      exact .slot hreachable hslot hinner
    · exact hp.pending_reachable other (by simp [hrest])
  · rcases List.mem_cons.mp hother with rfl | hdone
    · exact hreachable
    · exact hp.done_reachable other hdone
  · rw [hset, Bool.or_eq_true, decide_eq_true_eq, hp.marked]
    simp only [List.exists_mem_cons_iff, InRange]
    exact or_comm
  · rcases List.mem_cons.mp hother with rfl | hdone
    · exact .inr (List.mem_append_left _ ((mem_rangesIn hbound).mpr ⟨slot, hslot, hinner⟩))
    · exact hkept (hp.closed other hdone slot hslot inner hinner)
  · exact hkept (hp.roots value hvalue other hother)

/-! ### Enough rounds -/

def unmarked (marks : Bitmap) (capacity : Nat) : Finset Nat :=
  (Finset.range capacity).filter fun slot => marks.isSet slot = false

theorem card_unmarked_setRange {marks : Bitmap} {capacity : Nat} (hpages : capacity ≤ 64 * marks.pages.size)
    (hpos : 0 < range.2) (hbound : range.1 + range.2 ≤ capacity) (hfree : marks.isSet range.1 = false) :
    (unmarked (marks.setRange range.1 range.2) capacity).card < (unmarked marks capacity).card := by
  have hset (slot : Nat) := Bitmap.isSet_setRange marks range.1 range.2 slot (by omega)
  apply Finset.card_lt_card
  rw [Finset.ssubset_iff_of_subset]
  · refine ⟨range.1, ?_, ?_⟩
    · simp only [unmarked, Finset.mem_filter, Finset.mem_range, hfree, and_true]
      omega
    · simp only [unmarked, Finset.mem_filter, hset, hfree, Bool.false_or, decide_eq_false_iff_not]
      omega
  · intro slot hslot
    simp only [unmarked, Finset.mem_filter, hset, Bool.or_eq_false_iff] at hslot ⊢
    exact ⟨hslot.1, hslot.2.1⟩

theorem isSet_of_dropWhile {pending rest : List (Nat × Nat)} {marks : Bitmap}
    (hpending : pending.dropWhile (fun range => marks.isSet range.1) = range :: rest) :
    marks.isSet range.1 = false := by
  have hhead := List.head?_dropWhile_not (fun range : Nat × Nat => marks.isSet range.1) pending
  rw [hpending] at hhead
  simpa using hhead

/-- Every round marks a slot that was not marked, so the rounds last until nothing is pending. -/
theorem mark_progress {rounds : Nat} {pending done : List (Nat × Nat)} {marks : Bitmap}
    (hp : Progress h roots pending marks done) (hrounds : (unmarked marks h.capacity).card < rounds) :
    ∃ done', Progress h roots [] (h.mark rounds pending marks) done' := by
  induction rounds generalizing pending marks done with
  | zero => omega
  | succ rounds ih =>
    have hdropped := hp.dropWhile
    rw [mark]
    cases hpending : pending.dropWhile fun range => marks.isSet range.1 with
    | nil =>
      rw [hpending] at hdropped
      exact ⟨done, hdropped⟩
    | cons range rest =>
      rw [hpending] at hdropped
      have hfree : marks.isSet range.1 = false := isSet_of_dropWhile hpending
      obtain ⟨hpos, hbound⟩ := (hdropped.pending_reachable range (by simp)).bounds
      have hless := card_unmarked_setRange hdropped.pages hpos hbound hfree
      exact ih hdropped.round (by omega)

theorem exists_progress (h : Heap) (roots : List Value) :
    ∃ done, Progress h roots [] (h.reachableMarks roots) done := by
  have hcard := Finset.card_filter_le (Finset.range h.capacity)
    fun slot => (Bitmap.empty h.capacity).isSet slot = false
  rw [Finset.card_range] at hcard
  exact mark_progress (progress_start h roots) (Nat.lt_succ_of_le hcard)

theorem TailsMeet.nested (htails : h.TailsMeet roots) : h.Nested roots := by
  intro range other hrange hother hfirst
  have hpos := hother.bounds.1
  have hmeet := htails range other other.1 hrange hother hfirst ⟨Nat.le_refl _, by omega⟩
  omega

/-- A collection marks what can be reached, if the ranges are nested. -/
theorem isSet_of_nested (hnested : h.Nested roots) (hrange : h.Reachable roots range) {slot : Nat}
    (hslot : InRange range slot) : (h.reachableMarks roots).isSet slot = true := by
  obtain ⟨done, hp⟩ := exists_progress h roots
  -- The marked slots are made of whole ranges: with its first slot, all of a range is marked.
  have hwhole {other : Nat × Nat} (hother : h.Reachable roots other)
      (hfirst : (h.reachableMarks roots).isSet other.1 = true) {slot : Nat} (hslot : InRange other slot) :
      (h.reachableMarks roots).isSet slot = true := by
    obtain ⟨outer, houter, hin⟩ := (hp.marked other.1).mp hfirst
    have hend := hnested outer other (hp.done_reachable outer houter) hother hin
    exact (hp.marked slot).mpr
      ⟨outer, houter, Nat.le_trans hin.1 hslot.1, Nat.lt_of_lt_of_le hslot.2 hend⟩
  induction hrange generalizing slot with
  | root hvalue hrange =>
    have hset := (hp.roots _ hvalue _ hrange).resolve_right List.not_mem_nil
    exact hwhole (.root hvalue hrange) hset hslot
  | slot houter hin hrange ih =>
    obtain ⟨big, hbig, hcovers⟩ := (hp.marked _).mp (ih hin)
    have hset := (hp.closed big hbig _ hcovers _ hrange).resolve_right List.not_mem_nil
    exact hwhole (.slot houter hin hrange) hset hslot

/-- A collection marks what can be reached. -/
theorem isSet_reachableMarks (htails : h.TailsMeet roots) (hrange : h.Reachable roots range)
    {slot : Nat} (hslot : InRange range slot) : (h.reachableMarks roots).isSet slot = true :=
  isSet_of_nested htails.nested hrange hslot

end Heap

end ScriptMachine
