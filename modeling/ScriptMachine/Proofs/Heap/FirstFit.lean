import Mathlib
import ScriptMachine.Heap
import ScriptMachine.Proofs.Heap.Bitmap

/-!
# First fit

The search for a free block compares words with masks, skips full pages, jumps over runs of empty pages
and looks at the capacity only at the end. None of this loses a block or takes an occupied one: what is
returned is the lowest block at an allowed place, and nothing is returned only if there is none.

Each part of the search is described by two lemmas. One says what a place that is returned is like, the
other that a suitable place makes the search return that place or a lower one. Completeness and
minimality both follow from the second.
-/

namespace ScriptMachine

namespace Bitmap

/-- A free block of `count` slots below the capacity at an allowed place: a block smaller than a page lies
in one page, a larger one starts a page. -/
structure Fitting (b : Bitmap) (capacity count start : Nat) : Prop where
  below : start + count ≤ capacity
  free : b.FreeIn start (start + count)
  small : count < 64 → (start + count - 1) / 64 = start / 64
  large : 64 ≤ count → 64 ∣ start

variable {b : Bitmap} {capacity count start left index : Nat}

/-! ### Blocks smaller than a page -/

theorem firstBelow?_go_le {test : Nat → Bool} {i k : Nat} (htest : test k = true) (hlow : i ≤ k)
    (hhigh : k < i + left) : ∃ found ≤ k, firstBelow?.go test left i = some found := by
  induction left generalizing i with
  | zero => omega
  | succ left ih =>
    rw [firstBelow?.go]
    by_cases hhere : test i = true
    · exact ⟨i, hlow, if_pos hhere⟩
    · have hne : i ≠ k := by
        rintro rfl
        exact hhere htest
      obtain ⟨found, hle, hfound⟩ := ih (i := i + 1) (by omega) (by omega)
      exact ⟨found, hle, (if_neg hhere).trans hfound⟩

theorem windowIn?_le {bit : Nat} {word : UInt64} (hcount : 0 < count) (hbit : bit + count ≤ 64)
    (hsmall : count < 64) (hfree : ∀ k, bit ≤ k → k < bit + count → word.toNat.testBit k = false) :
    ∃ found ≤ bit, windowIn? count word = some found := by
  -- A full page has no clear bit at all.
  have hfull : ¬(word == lowMask pageBits) = true := by
    intro h
    have hset := hfree bit (Nat.le_refl _) (by omega)
    rw [beq_iff_eq.mp h, testBit_lowMask, decide_eq_false_iff_not, pageBits] at hset
    omega
  have hclear : (word &&& (lowMask count <<< UInt64.ofNat bit) == 0) = true := by
    rw [beq_iff_eq, and_eq_zero_iff]
    intro k hk hset
    rw [testBit_lowMask_shift (by omega) hk (by omega), decide_eq_false_iff_not]
    rintro ⟨hlow, hhigh⟩
    rw [hfree k hlow hhigh] at hset
    cases hset
  rw [windowIn?, if_neg hfull]
  exact firstBelow?_go_le hclear (Nat.zero_le _) (by rw [pageBits]; omega)

theorem isSet_mul_add (b : Bitmap) (page : Nat) {bit : Nat} (hbit : bit < 64) :
    b.isSet (64 * page + bit) = (b.page page).toNat.testBit bit := by
  rw [isSet_eq_testBit, Nat.mul_add_div (by decide), Nat.div_eq_of_lt hbit, Nat.add_zero, Nat.mul_add_mod,
    Nat.mod_eq_of_lt hbit]

/-- The window lies in one page, so the words of the other pages do not matter. -/
theorem testBit_page_of_freeIn (hpage : (start + count - 1) / 64 = start / 64)
    (hfree : b.FreeIn start (start + count)) {k : Nat} (hlow : start % 64 ≤ k)
    (hhigh : k < start % 64 + count) : (b.page (start / 64)).toNat.testBit k = false := by
  rw [← isSet_mul_add b _ (by omega)]
  exact hfree _ (by omega) (by omega)

theorem findWindow?_page (hcount : 0 < count) (hsmall : count < 64)
    (h : b.findWindow? count left index = some start) : (start + count - 1) / 64 = start / 64 := by
  induction left generalizing index with
  | zero => cases h
  | succ left ih =>
    rw [findWindow?] at h
    split at h
    · rename_i bit hwindow
      cases h
      have hbound := (windowIn?_ok hcount hsmall hwindow).1
      rw [pageBits]
      omega
    · exact ih h

theorem findWindow?_le (hcount : 0 < count) (hsmall : count < 64) (hlow : index ≤ start / 64)
    (hhigh : start / 64 < index + left) (hpage : (start + count - 1) / 64 = start / 64)
    (hfree : b.FreeIn start (start + count)) :
    ∃ found ≤ start, b.findWindow? count left index = some found := by
  induction left generalizing index with
  | zero => omega
  | succ left ih =>
    -- In the page of the block the search stops at the block at the latest.
    have hhere (h : index = start / 64) : ∃ bit ≤ start % 64, windowIn? count (b.page index) = some bit := by
      rw [h]
      exact windowIn?_le hcount (by omega) hsmall fun k => testBit_page_of_freeIn hpage hfree
    rw [findWindow?]
    cases hwindow : windowIn? count (b.page index) with
    | some bit =>
      refine ⟨index * pageBits + bit, ?_, rfl⟩
      rw [pageBits]
      by_cases h : index = start / 64
      · obtain ⟨lowest, hle, hlowest⟩ := hhere h
        rw [hwindow] at hlowest
        cases hlowest
        omega
      · have hbound := (windowIn?_ok hcount hsmall hwindow).1
        omega
    | none =>
      have hne : index ≠ start / 64 := by
        intro h
        obtain ⟨bit, -, hbit⟩ := hhere h
        rw [hwindow] at hbit
        cases hbit
      exact ih (by omega) (by omega)

/-! ### Blocks of whole pages -/

theorem page_eq_zero_of_freeIn {stop k : Nat} (hfree : b.FreeIn start stop) (hlow : start ≤ 64 * k)
    (hhigh : 64 * k + 64 ≤ stop) : b.page k = 0 := by
  rw [← UInt64.and_self (a := b.page k), and_eq_zero_iff]
  intro bit hbit _
  rw [← isSet_mul_add b k hbit]
  exact hfree _ (by omega) (by omega)

theorem le_emptyRun {n : Nat} (hn : n ≤ left) (h : ∀ k, index ≤ k → k < index + n → b.page k = 0) :
    n ≤ b.emptyRun left index := by
  induction n generalizing left index with
  | zero => exact Nat.zero_le _
  | succ n ih =>
    obtain ⟨left, rfl⟩ : ∃ less, left = less + 1 := ⟨left - 1, by omega⟩
    have hzero : b.page index = 0 := h index (Nat.le_refl _) (by omega)
    have hrest : n ≤ b.emptyRun left (index + 1) :=
      ih (by omega) fun k hlow hhigh => h k (by omega) (by omega)
    rw [emptyRun, if_pos (beq_iff_eq.mpr hzero)]
    omega

theorem findPages?_dvd {fullPages trailing : Nat}
    (h : b.findPages? fullPages trailing left index = some start) : 64 ∣ start := by
  induction left generalizing index with
  | zero => cases h
  | succ left ih =>
    rw [findPages?] at h
    split at h
    · cases h
    · dsimp only at h
      split at h
      · cases h
        exact Nat.dvd_mul_left _ _
      · exact ih h

/-- A block that starts a page among the empty pages of a run is found at the first page of the run. -/
theorem fitsAt_of_freeIn {fullPages trailing page : Nat} (htrailing : trailing < 64)
    (hfree : b.FreeIn (64 * page) (64 * page + (64 * fullPages + trailing)))
    (hpages : 64 * page + (64 * fullPages + trailing) ≤ 64 * b.pages.size) (hlow : index ≤ page)
    (hrun : page < index + max (b.emptyRun (b.pages.size - index) index) 1) :
    b.fitsAt fullPages trailing index (b.emptyRun (b.pages.size - index) index) = true := by
  have hcover : page - index + fullPages ≤ b.emptyRun (b.pages.size - index) index := by
    refine le_emptyRun (by omega) fun k hk hlast => ?_
    rcases Nat.lt_or_ge k page with hbefore | hbehind
    · have hin : k < index + b.emptyRun (b.pages.size - index) index := by omega
      exact page_of_lt_emptyRun hk hin
    · exact page_eq_zero_of_freeIn hfree (by omega) (by omega)
  generalize b.emptyRun (b.pages.size - index) index = run at hcover
  simp only [fitsAt, Bool.or_eq_true, Bool.and_eq_true, decide_eq_true_eq, beq_iff_eq]
  rcases Nat.lt_or_ge fullPages run with hmore | hexact
  · exact .inl hmore
  · -- The run is no longer than the block, so the block starts with the run and its last bits lie
    -- in the page behind it.
    obtain rfl : page = index := by omega
    obtain rfl : run = fullPages := by omega
    refine .inr ⟨rfl, ?_⟩
    rcases Nat.eq_zero_or_pos trailing with hnone | hsome
    · exact .inl hnone
    · refine .inr ⟨by omega, ?_⟩
      rw [and_eq_zero_iff]
      intro bit hbit hset
      rw [testBit_lowMask, decide_eq_false_iff_not]
      intro hin
      rw [← isSet_mul_add b _ hbit, hfree _ (by omega) (by omega)] at hset
      cases hset

theorem findPages?_le {fullPages trailing page : Nat} (htrailing : trailing < 64)
    (hfree : b.FreeIn (64 * page) (64 * page + (64 * fullPages + trailing)))
    (hpages : 64 * page + (64 * fullPages + trailing) ≤ 64 * b.pages.size) (hlow : index ≤ page)
    (hleft : b.pages.size < index + left) :
    ∃ found ≤ 64 * page, b.findPages? fullPages trailing left index = some found := by
  induction left generalizing index with
  | zero => omega
  | succ left ih =>
    rw [findPages?, if_neg (by omega)]
    dsimp only
    by_cases hfits : b.fitsAt fullPages trailing index (b.emptyRun (b.pages.size - index) index) = true
    · refine ⟨index * pageBits, ?_, if_pos hfits⟩
      rw [pageBits]
      omega
    · rw [if_neg hfits]
      refine ih ?_ (by omega)
      by_contra hjump
      exact hfits (fitsAt_of_freeIn htrailing hfree hpages hlow (by omega))

/-! ### All blocks -/

theorem findFree?_small (b : Bitmap) (capacity : Nat) (hsmall : count < 64) :
    b.findFree? capacity count
      = (b.findWindow? count b.pages.size 0).filter fun start => decide (start + count ≤ capacity) := by
  have hpage : count < pageBits := hsmall
  rw [findFree?, if_pos hpage]

theorem findFree?_large (b : Bitmap) (capacity : Nat) (hlarge : 64 ≤ count) :
    b.findFree? capacity count
      = (b.findPages? (count / 64) (count % 64) (b.pages.size + 1) 0).filter
        fun start => decide (start + count ≤ capacity) := by
  have hpage : ¬count < pageBits := Nat.not_lt.mpr hlarge
  rw [findFree?, if_neg hpage]
  rfl

theorem findFree?_fitting (hcount : 0 < count) (h : b.findFree? capacity count = some start) :
    b.Fitting capacity count start := by
  obtain ⟨hbound, hfree⟩ := findFree?_ok hcount h
  refine ⟨hbound, hfree, fun hsmall => ?_, fun hlarge => ?_⟩
  · rw [findFree?_small b capacity hsmall, Option.filter_eq_some_iff] at h
    exact findWindow?_page hcount hsmall h.1
  · rw [findFree?_large b capacity hlarge, Option.filter_eq_some_iff] at h
    exact findPages?_dvd h.1

/-- The search stops at every block that fits, or before it. -/
theorem Fitting.findFree?_le (h : b.Fitting capacity count start) (hcount : 0 < count)
    (hpages : capacity ≤ 64 * b.pages.size) :
    ∃ found ≤ start, b.findFree? capacity count = some found := by
  have hbelow := h.below
  -- What is found lies no higher than the block and so ends below the capacity too.
  have hkept {found : Nat} (hle : found ≤ start) : decide (found + count ≤ capacity) = true :=
    decide_eq_true (by omega)
  rcases Nat.lt_or_ge count 64 with hsmall | hlarge
  · obtain ⟨found, hle, hfound⟩ : ∃ found ≤ start, b.findWindow? count b.pages.size 0 = some found :=
      findWindow?_le hcount hsmall (Nat.zero_le _) (by omega) (h.small hsmall) h.free
    refine ⟨found, hle, ?_⟩
    rw [findFree?_small b capacity hsmall, Option.filter_eq_some_iff]
    exact ⟨hfound, hkept hle⟩
  · obtain ⟨page, rfl⟩ := h.large hlarge
    have hsplit : 64 * (count / 64) + count % 64 = count := Nat.div_add_mod count 64
    obtain ⟨found, hle, hfound⟩ : ∃ found ≤ 64 * page,
        b.findPages? (count / 64) (count % 64) (b.pages.size + 1) 0 = some found := by
      refine findPages?_le (Nat.mod_lt _ (by decide)) ?_ ?_ (Nat.zero_le _) (by omega)
      · rw [hsplit]
        exact h.free
      · rw [hsplit]
        omega
    refine ⟨found, hle, ?_⟩
    rw [findFree?_large b capacity hlarge, Option.filter_eq_some_iff]
    exact ⟨hfound, hkept hle⟩

theorem findFree?_eq_some_iff (hcount : 0 < count) (hpages : capacity ≤ 64 * b.pages.size) :
    b.findFree? capacity count = some start ↔ IsLeast {s | b.Fitting capacity count s} start := by
  constructor
  · intro h
    refine ⟨findFree?_fitting hcount h, fun other hother => ?_⟩
    obtain ⟨found, hle, hfound⟩ := hother.findFree?_le hcount hpages
    rw [h] at hfound
    cases hfound
    exact hle
  · intro hleast
    obtain ⟨found, hle, hfound⟩ := hleast.1.findFree?_le hcount hpages
    have hge : start ≤ found := hleast.2 (findFree?_fitting hcount hfound)
    rw [hfound, Nat.le_antisymm hle hge]

theorem findFree?_eq_none_iff (hcount : 0 < count) (hpages : capacity ≤ 64 * b.pages.size) :
    b.findFree? capacity count = none ↔ ∀ start, ¬b.Fitting capacity count start := by
  constructor
  · intro h start hfits
    obtain ⟨found, -, hfound⟩ := hfits.findFree?_le hcount hpages
    rw [h] at hfound
    cases hfound
  · intro h
    rw [Option.eq_none_iff_forall_ne_some]
    intro start hstart
    exact h start (findFree?_fitting hcount hstart)

end Bitmap

namespace Heap

/-- The search returns the lowest block that fits, and nothing exactly if no block fits. The bitmap has to
cover the slots; bits behind the last slot make no difference. -/
theorem search_is_first_fit (h : Heap) (hpages : h.capacity ≤ 64 * h.marks.pages.size) {count : Nat}
    (hcount : 0 < count) :
    (∀ start, h.marks.findFree? h.capacity count = some start ↔
      IsLeast {s | h.marks.Fitting h.capacity count s} start) ∧
    (h.marks.findFree? h.capacity count = none ↔ ∀ start, ¬h.marks.Fitting h.capacity count start) :=
  ⟨fun _ => Bitmap.findFree?_eq_some_iff hcount hpages, Bitmap.findFree?_eq_none_iff hcount hpages⟩

/-- A heap that ends inside its third page, with one slot of the first page in use. -/
def raggedHeap : Heap :=
  ⟨Slots.empty 150, ⟨#[8, 0, 0]⟩, 150, 0⟩

/-- Seventy slots fit from the second page on, ninety would end behind the last slot. -/
theorem search_is_first_fit_sample :
    raggedHeap.capacity ≤ 64 * raggedHeap.marks.pages.size ∧
    IsLeast {s | raggedHeap.marks.Fitting raggedHeap.capacity 70 s} 64 ∧
    ∀ start, ¬raggedHeap.marks.Fitting raggedHeap.capacity 90 start := by
  have hcapacity : raggedHeap.capacity = 150 := Array.size_replicate
  have hpages : raggedHeap.capacity ≤ 64 * raggedHeap.marks.pages.size := by
    rw [hcapacity]
    decide
  refine ⟨hpages, ?_, ?_⟩
  · exact ((search_is_first_fit raggedHeap hpages (by decide)).1 64).mp (by cbv)
  · exact (search_is_first_fit raggedHeap hpages (by decide)).2.mp (by cbv)

end Heap

end ScriptMachine
