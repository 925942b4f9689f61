import Mathlib
import ScriptMachine.Heap.Bitmap

/-!
# What a bitmap says about its slots

Pages are words, but everything that the heap asks of a bitmap is about single slots: marking a range
sets exactly the bits of the range, and the search for a free block returns a block in which no bit
is set. The words are met once, in `testBit` form, and never again.
-/

namespace ScriptMachine

theorem testBit_lowMask (n bit : Nat) :
    (lowMask n).toNat.testBit bit = decide (bit < min n 64) := by
  have hle : min n 64 ≤ 64 := Nat.min_le_right _ _
  have hpow : 2 ^ min n 64 ≤ 2 ^ 64 := Nat.pow_le_pow_right (by decide) hle
  rw [lowMask, UInt64.toNat_ofNat', Nat.shiftLeft_eq, Nat.one_mul, pageBits, Nat.mod_eq_of_lt (by omega),
    Nat.testBit_two_pow_sub_one]

/-- The lowest `n` bits moved up by `shift`. -/
theorem testBit_lowMask_shift {n shift bit : Nat} (hshift : shift < 64) (hbit : bit < 64) (hn : n ≤ 64) :
    (lowMask n <<< UInt64.ofNat shift).toNat.testBit bit = decide (shift ≤ bit ∧ bit < shift + n) := by
  have hsmall : (UInt64.ofNat shift).toNat % 64 = shift := by
    rw [UInt64.toNat_ofNat']
    omega
  rw [UInt64.toNat_shiftLeft, hsmall, Nat.testBit_mod_two_pow, Nat.testBit_shiftLeft, testBit_lowMask]
  rw [Bool.eq_iff_iff]
  simp only [Bool.and_eq_true, decide_eq_true_eq, ge_iff_le]
  omega

namespace Bitmap

theorem pageBit_eq_testBit (page : UInt64) {bit : Nat} (hbit : bit < 64) :
    pageBit page bit = page.toNat.testBit bit := by
  have hshift : (1 <<< UInt64.ofNat bit : UInt64).toNat = 2 ^ bit := by
    have hpow : 2 ^ bit < 2 ^ 64 := Nat.pow_lt_pow_right (by decide) hbit
    rw [UInt64.toNat_shiftLeft, UInt64.toNat_ofNat', Nat.mod_mod_of_dvd _ (by decide),
      Nat.mod_eq_of_lt hbit, Nat.shiftLeft_eq, UInt64.toNat_one, Nat.one_mul, Nat.mod_eq_of_lt hpow]
  have hzero : (page &&& (1 <<< UInt64.ofNat bit) = 0) ↔ page.toNat.testBit bit = false := by
    rw [← UInt64.toNat_inj, UInt64.toNat_and, hshift, Nat.and_two_pow, UInt64.toNat_zero]
    cases page.toNat.testBit bit <;> simp
  rw [pageBit, Bool.eq_iff_iff, bne_iff_ne, ne_eq, hzero, Bool.not_eq_false]

theorem isSet_eq_testBit (b : Bitmap) (slot : Nat) :
    b.isSet slot = (b.page (slot / 64)).toNat.testBit (slot % 64) :=
  pageBit_eq_testBit _ (Nat.mod_lt _ (by decide))

theorem isSet_empty (slots slot : Nat) : (empty slots).isSet slot = false := by
  rw [isSet_eq_testBit, page, empty, Array.getD_eq_getD_getElem?, Array.getElem?_replicate]
  split <;> exact Nat.zero_testBit _

@[simp] theorem size_pages_empty (slots : Nat) : (empty slots).pages.size = (slots + 63) / 64 := by
  simp [empty, pageBits]

/-! ### Marking a range -/

@[simp] theorem size_pages_setPages (start stop : Nat) (b : Bitmap) (index count : Nat) :
    (b.setPages start stop index count).pages.size = b.pages.size := by
  induction count generalizing b index with
  | zero => rfl
  | succ count ih => rw [setPages, ih, Array.size_modify]

theorem testBit_pageRange {start stop index bit : Nat} (hbit : bit < 64) :
    (pageRange start stop index).toNat.testBit bit
      = decide (start ≤ index * 64 + bit ∧ index * 64 + bit < stop) := by
  simp only [pageRange, pageBits]
  rcases Nat.lt_or_ge start (index * 64 + 64) with hlow | hlow
  · rw [testBit_lowMask_shift (by omega) hbit (by omega)]
    simp only [decide_eq_decide]
    omega
  · -- The range lies above the page: no bits are taken from the mask, however far they are moved.
    have hnone : min stop (index * 64 + 64) - max start (index * 64) = 0 := by omega
    have hzero : lowMask 0 = 0 := rfl
    rw [hnone, hzero, UInt64.zero_shiftLeft, UInt64.toNat_zero, Nat.zero_testBit, eq_comm,
      decide_eq_false_iff_not]
    omega

theorem page_modify (b : Bitmap) (index other : Nat) (f : UInt64 → UInt64) :
    page ⟨b.pages.modify index f⟩ other
      = if index = other ∧ other < b.pages.size then f (b.page other) else b.page other := by
  simp only [page, Array.getD_eq_getD_getElem?, Array.getElem?_modify]
  rcases eq_or_ne index other with rfl | hne
  · rcases Nat.lt_or_ge index b.pages.size with hlt | hge
    · simp [hlt]
    · simp [Nat.not_lt.mpr hge]
  · simp [hne]

theorem isSet_setPages {start stop : Nat} (b : Bitmap) (index count slot : Nat)
    (hpages : index + count ≤ b.pages.size) :
    (b.setPages start stop index count).isSet slot
      = (b.isSet slot
        || decide (index ≤ slot / 64 ∧ slot / 64 < index + count ∧ start ≤ slot ∧ slot < stop)) := by
  induction count generalizing b index with
  | zero =>
    rw [setPages, eq_comm, Bool.or_eq_left_iff_imp]
    simp only [decide_eq_true_eq]
    omega
  | succ count ih =>
    have hmod : slot % 64 < 64 := Nat.mod_lt _ (by decide)
    rw [setPages, ih _ _ (by rw [Array.size_modify]; omega), isSet_eq_testBit, isSet_eq_testBit,
      page_modify]
    by_cases hindex : index = slot / 64
    · rw [if_pos ⟨hindex, by omega⟩, UInt64.toNat_or, Nat.testBit_or, testBit_pageRange hmod,
        Bool.or_assoc]
      congr 1
      rw [Bool.eq_iff_iff]
      simp only [Bool.or_eq_true, decide_eq_true_eq]
      omega
    · rw [if_neg (fun h => hindex h.1)]
      congr 1
      simp only [decide_eq_decide]
      omega

@[simp] theorem size_pages_setRange (b : Bitmap) (start length : Nat) :
    (b.setRange start length).pages.size = b.pages.size := by
  unfold setRange
  split
  · rfl
  · simp

/-- Marking a range sets the bits of the range and no others. -/
theorem isSet_setRange (b : Bitmap) (start length slot : Nat)
    (hpages : start + length ≤ 64 * b.pages.size) :
    (b.setRange start length).isSet slot
      = (b.isSet slot || decide (start ≤ slot ∧ slot < start + length)) := by
  unfold setRange
  split
  · rename_i hzero
    rw [eq_comm, Bool.or_eq_left_iff_imp]
    simp only [decide_eq_true_eq]
    omega
  · rename_i hpos
    simp only [pageBits]
    rw [isSet_setPages _ _ _ _ (by omega)]
    congr 1
    simp only [decide_eq_decide]
    omega

/-! ### Searching -/

/-- No bit is set in the slots from `start` up to `stop`. -/
def FreeIn (b : Bitmap) (start stop : Nat) : Prop :=
  ∀ slot, start ≤ slot → slot < stop → b.isSet slot = false

theorem firstBelow?_go_ok {test : Nat → Bool} {left i k : Nat}
    (h : firstBelow?.go test left i = some k) : test k = true ∧ i ≤ k ∧ k < i + left := by
  induction left generalizing i with
  | zero => cases h
  | succ left ih =>
    rw [firstBelow?.go] at h
    split at h
    · rename_i htest
      cases h
      exact ⟨htest, by omega, by omega⟩
    · obtain ⟨htest, hlow, hhigh⟩ := ih h
      exact ⟨htest, by omega, by omega⟩

theorem and_eq_zero_iff {x y : UInt64} :
    x &&& y = 0 ↔ ∀ bit < 64, x.toNat.testBit bit = true → y.toNat.testBit bit = false := by
  rw [← UInt64.toNat_inj, UInt64.toNat_and, UInt64.toNat_zero]
  constructor
  · intro h bit _ hx
    have hbit := congrArg (·.testBit bit) h
    simpa [Nat.testBit_and, hx] using hbit
  · intro h
    apply Nat.eq_of_testBit_eq
    intro bit
    rw [Nat.testBit_and, Nat.zero_testBit]
    rcases Nat.lt_or_ge bit 64 with hlt | hge
    · cases hx : x.toNat.testBit bit with
      | false => rfl
      | true => rw [h bit hlt hx]; rfl
    · have hlarge : x.toNat < 2 ^ bit :=
        Nat.lt_of_lt_of_le x.toNat_lt (Nat.pow_le_pow_right (by decide) hge)
      rw [Nat.testBit_lt_two_pow hlarge, Bool.false_and]

theorem windowIn?_ok {count bit : Nat} {word : UInt64} (hcount : 0 < count) (hsmall : count < 64)
    (h : windowIn? count word = some bit) :
    bit + count ≤ 64 ∧ ∀ k, bit ≤ k → k < bit + count → word.toNat.testBit k = false := by
  unfold windowIn? at h
  split at h
  · cases h
  · obtain ⟨hfree, -, hbound⟩ := firstBelow?_go_ok h
    rw [pageBits] at hbound
    refine ⟨by omega, fun k hlow hhigh => ?_⟩
    rw [beq_iff_eq, and_eq_zero_iff] at hfree
    cases hk : word.toNat.testBit k with
    | false => rfl
    | true =>
      have hmask := hfree k (by omega) hk
      rw [testBit_lowMask_shift (by omega) (by omega) (by omega), decide_eq_false_iff_not] at hmask
      omega

/-- A block smaller than a page. -/
theorem findWindow?_ok {b : Bitmap} {count left index start : Nat} (hcount : 0 < count)
    (hsmall : count < 64) (h : b.findWindow? count left index = some start) :
    b.FreeIn start (start + count) := by
  induction left generalizing index with
  | zero => cases h
  | succ left ih =>
    rw [findWindow?] at h
    split at h
    · rename_i bit hwindow
      cases h
      obtain ⟨hbound, hfree⟩ := windowIn?_ok hcount hsmall hwindow
      intro slot hlow hhigh
      rw [pageBits] at hlow hhigh
      rw [isSet_eq_testBit, show slot / 64 = index by omega]
      exact hfree _ (by omega) (by omega)
    · exact ih h

theorem page_of_lt_emptyRun {b : Bitmap} {left index k : Nat} (hlow : index ≤ k)
    (h : k < index + b.emptyRun left index) : b.page k = 0 := by
  induction left generalizing index with
  | zero =>
    rw [emptyRun] at h
    omega
  | succ left ih =>
    rw [emptyRun] at h
    split at h
    · rename_i hzero
      rcases Nat.eq_or_lt_of_le hlow with rfl | hgt
      · exact beq_iff_eq.mp hzero
      · have hnext : index + 1 ≤ k := hgt
        exact ih hnext (by omega)
    · omega

theorem isSet_of_page_eq_zero {b : Bitmap} {slot : Nat} (h : b.page (slot / 64) = 0) :
    b.isSet slot = false := by
  rw [isSet_eq_testBit, h]
  exact Nat.zero_testBit _

/-- A block of whole pages and some bits of the page behind them. -/
theorem findPages?_ok {b : Bitmap} {fullPages trailing left index start : Nat} (htrailing : trailing < 64)
    (h : b.findPages? fullPages trailing left index = some start) :
    b.FreeIn start (start + (64 * fullPages + trailing)) := by
  induction left generalizing index with
  | zero => cases h
  | succ left ih =>
    rw [findPages?] at h
    split at h
    · cases h
    · dsimp only at h
      generalize hrun : b.emptyRun (b.pages.size - index) index = run at h
      have hempty {k : Nat} (hlow : index ≤ k) (hhigh : k < index + run) : b.page k = 0 := by
        subst hrun
        exact page_of_lt_emptyRun hlow hhigh
      split at h
      · rename_i hfits
        cases h
        intro slot hlow hhigh
        rw [pageBits] at hlow hhigh
        rcases Nat.lt_or_ge (slot / 64) (index + run) with hin | hout
        · exact isSet_of_page_eq_zero (hempty (by omega) hin)
        · -- Only the bits behind the run are left, and the block has some there.
          simp only [fitsAt, Bool.or_eq_true, Bool.and_eq_true, decide_eq_true_eq, beq_iff_eq] at hfits
          have hlast : slot / 64 = index + run := by omega
          rcases hfits with hmore | ⟨hexact, hnone | ⟨-, hclear⟩⟩
          · omega
          · omega
          · rw [and_eq_zero_iff] at hclear
            rw [isSet_eq_testBit, hlast]
            cases hbit : (b.page (index + run)).toNat.testBit (slot % 64) with
            | false => rfl
            | true =>
              have hmask := hclear _ (Nat.mod_lt _ (by decide)) hbit
              rw [testBit_lowMask, decide_eq_false_iff_not] at hmask
              omega
      · exact ih h

/-- The search returns a block of free slots below the limit. -/
theorem findFree?_ok {b : Bitmap} {capacity count start : Nat} (hcount : 0 < count)
    (h : b.findFree? capacity count = some start) :
    start + count ≤ capacity ∧ b.FreeIn start (start + count) := by
  simp only [findFree?, Option.filter_eq_some_iff, decide_eq_true_eq] at h
  obtain ⟨hfound, hbound⟩ := h
  refine ⟨hbound, ?_⟩
  rw [pageBits] at hfound
  split at hfound
  · rename_i hsmall
    exact findWindow?_ok hcount hsmall hfound
  · have hfree := findPages?_ok (Nat.mod_lt _ (by decide)) hfound
    rwa [Nat.div_add_mod] at hfree

end Bitmap

end ScriptMachine
