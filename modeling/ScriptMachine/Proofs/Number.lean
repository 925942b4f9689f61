import Mathlib
import ScriptMachine.Number

/-!
# Numbers that stand for naturals

A natural number below `2 ^ 24` is a number without loss, and every length that fits one word becomes
a number that can count. A larger number keeps its twenty-four highest bits, so it comes back only if
it has no others. Return addresses and element counts go through these conversions. The other way, a
number counts exactly if its value is a natural number, and one too large for a word is held there.
-/

namespace ScriptMachine.Number

theorem shape_of_bits {x : Number} (field m : Nat) (hfield : 0 < field) (hfinite : field < 255)
    (hlow : 0x800000 ≤ m) (hhigh : m < 0x1000000)
    (hbits : x.bits.toNat + 0x800000 = field * 0x800000 + m) :
    x.shape = .finite false m (field - 150) := by
  have hexponent : x.exponentField = field := by
    rw [exponentField]
    omega
  have hmantissa : 0x800000 + x.mantissaField = m := by
    rw [mantissaField]
    omega
  have hsign : x.negative = false := by
    rw [negative, decide_eq_false_iff_not]
    omega
  rw [shape, hexponent, hmantissa, hsign, if_neg (by omega), if_neg (by omega)]

theorem bits_ofNat {n : Nat} (h : bitsOfNat n < 0x100000000) : (ofNat n).bits.toNat = bitsOfNat n := by
  rw [ofNat, UInt32.toNat_ofNat']
  exact Nat.mod_eq_of_lt h

/-- Scaling a number of `top + 1` bits to twenty-four bits. -/
theorem scaled_bounds {n : Nat} (hpos : n ≠ 0) (htop : n.log2 ≤ 23) :
    0x800000 ≤ n * 2 ^ (23 - n.log2) ∧ n * 2 ^ (23 - n.log2) < 0x1000000 := by
  have hlow := Nat.log2_self_le hpos
  have hhigh := Nat.lt_log2_self (n := n)
  have hsplit : 2 ^ n.log2 * 2 ^ (23 - n.log2) = 0x800000 := by
    rw [← Nat.pow_add, show n.log2 + (23 - n.log2) = 23 by omega]
  constructor
  · calc 0x800000 = 2 ^ n.log2 * 2 ^ (23 - n.log2) := hsplit.symm
      _ ≤ n * 2 ^ (23 - n.log2) := Nat.mul_le_mul_right _ hlow
  · calc n * 2 ^ (23 - n.log2) < 2 ^ (n.log2 + 1) * 2 ^ (23 - n.log2) :=
          Nat.mul_lt_mul_of_pos_right hhigh (Nat.two_pow_pos _)
      _ = 0x1000000 := by rw [Nat.pow_succ, Nat.mul_right_comm, hsplit]

theorem log2_le_of_lt {n k : Nat} (h : n < 2 ^ (k + 1)) : n.log2 ≤ k := by
  by_cases hn : n = 0
  · subst hn
    simp
  · exact Nat.lt_succ_iff.mp ((Nat.log2_lt hn).mpr h)

/-- A natural number below `2 ^ 24` has all of its bits in the mantissa. -/
theorem shape_ofNat {n : Nat} (hpos : n ≠ 0) (h : n < 0x1000000) :
    (ofNat n).shape = .finite false (n * 2 ^ (23 - n.log2)) ((n.log2 : Int) - 23) := by
  have htop : n.log2 ≤ 23 := log2_le_of_lt (by omega)
  obtain ⟨hlow, hhigh⟩ := scaled_bounds hpos htop
  have hbits : bitsOfNat n + 0x800000 = (n.log2 + 127) * 0x800000 + n * 2 ^ (23 - n.log2) := by
    rw [bitsOfNat, if_neg hpos]
    simp only [if_pos htop, Nat.shiftLeft_eq]
    omega
  have hfits : bitsOfNat n < 0x100000000 := by omega
  have hshape := shape_of_bits (n.log2 + 127) _ (by omega) (by omega) hlow hhigh
    ((bits_ofNat hfits).symm ▸ hbits)
  rw [hshape]
  have hexponent : ((n.log2 + 127 : Nat) : Int) - 150 = (n.log2 : Int) - 23 := by omega
  rw [hexponent]

theorem integralPart_scaled {n k : Nat} : integralPart (n * 2 ^ k) (-k) = n := by
  simp [integralPart, Nat.shiftRight_eq_div_pow]

/-- A natural number below `2 ^ 24` survives the way to a number and back. -/
theorem toInt32_ofNat {n : Nat} (h : n < 0x1000000) : (ofNat n).toInt32 = n := by
  by_cases hpos : n = 0
  · subst hpos
    decide
  · have htop : n.log2 ≤ 23 := log2_le_of_lt (by omega)
    have hscale : ((n.log2 : Int) - 23) = -((23 - n.log2 : Nat) : Int) := by omega
    rw [toInt32, clampTo, shape_ofNat hpos h, hscale]
    simp only [integralPart_scaled]
    omega

/-- So does `2 ^ 24` itself. -/
theorem toInt32_ofNat_of_le {n : Nat} (h : n ≤ 0x1000000) : (ofNat n).toInt32 = n := by
  by_cases hlt : n < 0x1000000
  · exact toInt32_ofNat hlt
  · obtain rfl : n = 0x1000000 := by omega
    decide

theorem isCount_of_shape {x : Number} {m : Nat} {e : Int} (hshape : x.shape = .finite false m e)
    (hintegral : isIntegral m e = true) : x.isCount = true := by
  rw [isCount, hshape]
  simp [hintegral]

theorem isCount_ofNat_of_lt {n : Nat} (hpos : n ≠ 0) (h : n < 0x1000000) :
    (ofNat n).isCount = true := by
  refine isCount_of_shape (shape_ofNat hpos h) ?_
  have htop : n.log2 ≤ 23 := log2_le_of_lt (by omega)
  have hscale : (-((n.log2 : Int) - 23)).toNat = 23 - n.log2 := by omega
  rw [isIntegral, hscale, Nat.shiftLeft_eq]
  simp

theorem isIntegral_of_nonneg {m : Nat} {e : Int} (h : 0 ≤ e) : isIntegral m e = true := by
  rw [isIntegral, show (-e).toNat = 0 by omega]
  simp [Nat.mod_one]

/-- The twenty-four highest bits of a larger number. -/
theorem truncated_bounds {n : Nat} (hpos : n ≠ 0) (htop : 23 < n.log2) :
    0x800000 ≤ n / 2 ^ (n.log2 - 23) ∧ n / 2 ^ (n.log2 - 23) < 0x1000000 := by
  have hlow := Nat.log2_self_le hpos
  have hhigh := Nat.lt_log2_self (n := n)
  have hstep : 2 ^ (n.log2 - 23) * 0x800000 = 2 ^ n.log2 := by
    rw [show 0x800000 = 2 ^ 23 by rfl, ← Nat.pow_add, show n.log2 - 23 + 23 = n.log2 by omega]
  have hpow := Nat.two_pow_pos (n.log2 - 23)
  rw [Nat.le_div_iff_mul_le hpow, Nat.div_lt_iff_lt_mul hpow]
  omega

/-- A larger number keeps its twenty-four highest bits, and one may be added to them for the bits that
are lost. -/
theorem exists_shape_ofNat {n : Nat} (hlow : 23 < n.log2) (hhigh : n.log2 ≤ 63) :
    ∃ up m e, (2 ^ (n.log2 - 23) ∣ n → up = 0) ∧ 0 ≤ e ∧ (ofNat n).shape = .finite false m e ∧
      m * 2 ^ e.toNat = (n / 2 ^ (n.log2 - 23) + up) * 2 ^ (n.log2 - 23) := by
  have hpos : n ≠ 0 := by
    rintro rfl
    simp at hlow
  obtain ⟨hq, hq'⟩ := truncated_bounds hpos hlow
  obtain ⟨up, hup, hexact, hbits⟩ : ∃ up ≤ 1, (2 ^ (n.log2 - 23) ∣ n → up = 0) ∧
      bitsOfNat n = (n.log2 + 126) * 0x800000 + n / 2 ^ (n.log2 - 23) + up := by
    rw [bitsOfNat, if_neg hpos]
    simp only [if_neg (Nat.not_le.mpr hlow), if_neg (show ¬ 127 < n.log2 by omega), Nat.one_shiftLeft]
    refine ⟨_, Bool.toNat_le _, fun hdvd => ?_, rfl⟩
    have hstep := Nat.two_pow_pos (n.log2 - 23)
    simp [Nat.mod_eq_zero_of_dvd hdvd, hstep.ne]
  have hfits : bitsOfNat n < 0x100000000 := by omega
  have hnat := bits_ofNat hfits
  -- Rounding up may carry into the exponent, which then counts for one more step.
  by_cases hcarry : n / 2 ^ (n.log2 - 23) + up < 0x1000000
  · refine ⟨up, n / 2 ^ (n.log2 - 23) + up, _, hexact, ?_, shape_of_bits (n.log2 + 127) _ (by omega)
      (by omega) (by omega) hcarry (by omega), ?_⟩
    · omega
    · rw [show ((n.log2 + 127 : Nat) - 150 : Int).toNat = n.log2 - 23 by omega]
  · refine ⟨up, 0x800000, _, hexact, ?_, shape_of_bits (n.log2 + 128) _ (by omega)
      (by omega) (by omega) (by omega) (by omega), ?_⟩
    · omega
    · rw [show ((n.log2 + 128 : Nat) - 150 : Int).toNat = n.log2 - 23 + 1 by omega,
        show n / 2 ^ (n.log2 - 23) + up = 0x1000000 by omega, Nat.pow_succ]
      omega

theorem isCount_ofNat_of_log2 {n : Nat} (hlow : 23 < n.log2) (hhigh : n.log2 ≤ 63) :
    (ofNat n).isCount = true := by
  obtain ⟨up, m, e, -, he, hshape, -⟩ := exists_shape_ofNat hlow hhigh
  exact isCount_of_shape hshape (isIntegral_of_nonneg he)

/-- Every length is a number that can count. -/
theorem isCount_ofLength (n : UInt64) : (ofLength n).isCount = true := by
  have hlt := n.toNat_lt
  rw [ofLength]
  generalize n.toNat = n at hlt
  by_cases hpos : n = 0
  · subst hpos
    decide
  by_cases htop : n.log2 ≤ 23
  · have := Nat.lt_log2_self (n := n)
    have := Nat.pow_le_pow_right (n := 2) (by omega) (Nat.succ_le_succ htop)
    exact isCount_ofNat_of_lt hpos (by omega)
  · exact isCount_ofNat_of_log2 (by omega) (log2_le_of_lt (by omega))

theorem toInt32_of_shape {x : Number} {m : Nat} {e : Int} (hshape : x.shape = .finite false m e)
    (he : 0 ≤ e) : x.toInt32 = min 0x7fffffff (m * 2 ^ e.toNat : Nat) := by
  have hpart : integralPart m e = m * 2 ^ e.toNat := by
    rw [integralPart, show (-e).toNat = 0 by omega, Nat.shiftLeft_eq, Nat.shiftRight_zero]
  rw [toInt32, clampTo, hshape]
  simp only [hpart]
  omega

/-- A number of up to 64 bits comes back as a natural number that one signed word holds. -/
theorem toInt32_ofNat_bounds {n : Nat} (h : n.log2 ≤ 63) :
    0 ≤ (ofNat n).toInt32 ∧ (ofNat n).toInt32 ≤ 0x7fffffff := by
  by_cases hlow : 23 < n.log2
  · obtain ⟨up, m, e, -, he, hshape, -⟩ := exists_shape_ofNat hlow h
    rw [toInt32_of_shape hshape he]
    omega
  · have := Nat.lt_log2_self (n := n)
    have := Nat.pow_le_pow_right (n := 2) (by omega) (Nat.succ_le_succ (Nat.not_lt.mp hlow))
    rw [toInt32_ofNat (by omega)]
    omega

/-- A natural number survives the way to a number and back exactly when it is below `2 ^ 31` and has
no bits below its twenty-four highest ones. The largest number below `2 ^ 31` does too: it becomes
`2 ^ 31`, which is held inside the range again. -/
theorem toInt32_ofNat_eq_iff {n : Nat} (h : n.log2 ≤ 63) :
    (ofNat n).toInt32 = n ↔ n < 0x80000000 ∧ 2 ^ (n.log2 - 23) ∣ n ∨ n = 0x7fffffff := by
  by_cases hlargest : n = 0x7fffffff
  · subst hlargest
    exact iff_of_true (by decide) (.inr rfl)
  rw [or_iff_left hlargest]
  by_cases hlow : 23 < n.log2
  · obtain ⟨up, m, e, hexact, he, hshape, hvalue⟩ := exists_shape_ofNat hlow h
    rw [toInt32_of_shape hshape he, hvalue]
    constructor
    · intro hmin
      have hn : n = (n / 2 ^ (n.log2 - 23) + up) * 2 ^ (n.log2 - 23) := by omega
      exact ⟨by omega, Dvd.intro_left _ hn.symm⟩
    · rintro ⟨hlt, hdvd⟩
      rw [hexact hdvd, Nat.add_zero, Nat.div_mul_cancel hdvd]
      omega
  · have := Nat.lt_log2_self (n := n)
    have := Nat.pow_le_pow_right (n := 2) (by omega) (Nat.succ_le_succ (Nat.not_lt.mp hlow))
    have hexponent : n.log2 - 23 = 0 := by omega
    rw [toInt32_ofNat (by omega), hexponent]
    simp
    omega

/-! ### Exact values -/

/-- The value that the bits stand for, unless they stand for an infinity or for no number. -/
def value? (x : Number) : Option ℚ :=
  match x.shape with
  | .finite negative m e => some ((if negative then -1 else 1) * (m * 2 ^ e))
  | _ => none

theorem integralPart_eq_floor (m : Nat) (e : Int) : integralPart m e = ⌊(m * 2 ^ e : ℚ)⌋₊ := by
  rw [integralPart, Nat.shiftLeft_eq, Nat.shiftRight_eq_div_pow]
  obtain ⟨k, rfl | rfl⟩ := e.eq_nat_or_neg
  · have hcast : (m * 2 ^ (k : Int) : ℚ) = (m * 2 ^ k : Nat) := by simp
    rw [hcast, Nat.floor_natCast]
    simp
  · have hcast : (m * 2 ^ (-(k : Int)) : ℚ) = m / (2 ^ k : Nat) := by simp [div_eq_mul_inv]
    rw [hcast, Nat.floor_div_eq_div]
    simp

theorem isIntegral_iff (m : Nat) (e : Int) :
    isIntegral m e = true ↔ ∃ c : Nat, (m * 2 ^ e : ℚ) = c := by
  rw [isIntegral, beq_iff_eq, Nat.one_shiftLeft]
  obtain ⟨k, rfl | rfl⟩ := e.eq_nat_or_neg
  · exact iff_of_true (by simp [Nat.mod_one]) ⟨m * 2 ^ k, by simp⟩
  · have hpow : ((2 : ℚ) ^ k) ≠ 0 := pow_ne_zero k two_ne_zero
    rw [neg_neg, Int.toNat_natCast, ← Nat.dvd_iff_mod_eq_zero]
    refine exists_congr fun c => ?_
    rw [zpow_neg, zpow_natCast, ← div_eq_mul_inv, div_eq_iff hpow, mul_comm]
    norm_cast

/-- What is below zero is no natural number, and negative zero is zero. -/
theorem value?_eq_natCast {x : Number} {negative : Bool} {m : Nat} {e : Int} {c : Nat}
    (hshape : x.shape = .finite negative m e) :
    x.value? = some (c : ℚ) ↔ (m * 2 ^ e : ℚ) = c ∧ (negative = false ∨ m = 0) := by
  rw [value?, hshape]
  cases negative with
  | false => simp
  | true =>
    have hpow : (0 : ℚ) < 2 ^ e := zpow_pos two_pos e
    have hpart : (0 : ℚ) ≤ m * 2 ^ e := by positivity
    simp only [if_true, neg_one_mul, Option.some.injEq, Bool.true_eq_false, false_or]
    constructor
    · intro h
      have hzero : (m * 2 ^ e : ℚ) = 0 := by linarith [(Nat.cast_nonneg c : (0 : ℚ) ≤ c)]
      exact ⟨by linarith, by simpa [hpow.ne'] using hzero⟩
    · rintro ⟨h, rfl⟩
      simpa using h

/-- A number can count exactly if it stands for a natural number. -/
theorem isCount_iff {x : Number} : x.isCount = true ↔ ∃ c : Nat, x.value? = some (c : ℚ) := by
  rw [isCount]
  cases hshape : x.shape with
  | nan => simp [value?, hshape]
  | infinite negative => simp [value?, hshape]
  | finite negative m e => simp [value?_eq_natCast hshape, isIntegral_iff]

/-- A count that is too large for a word becomes the largest one. -/
theorem toCount_eq {x : Number} {c : Nat} (h : x.value? = some (c : ℚ)) :
    x.toCount = min c 0xffffffffffffffff := by
  rw [toCount, clampTo]
  cases hshape : x.shape with
  | nan => simp [value?, hshape] at h
  | infinite negative => simp [value?, hshape] at h
  | finite negative m e =>
    obtain ⟨hvalue, hsign⟩ := (value?_eq_natCast hshape).mp h
    have hpart : integralPart m e = c := by
      rw [integralPart_eq_floor, hvalue, Nat.floor_natCast]
    cases negative with
    | false =>
      simp only [hpart]
      omega
    | true =>
      have hm : m = 0 := hsign.resolve_left nofun
      have hzero : c = 0 := by simpa [hm] using hvalue.symm
      simp [hpart, hzero]

end ScriptMachine.Number
