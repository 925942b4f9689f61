import Mathlib
import ScriptMachine.Proofs.ConstantPool

/-!
# Packed values read back

A packed word has room for addresses of thirty bits and for counts of twenty-four. A value that keeps
to these limits comes back from its word as it was. Reading is lenient, many words stand for one
value, but whatever it gives keeps to the limits: packing it again and reading that changes nothing. It
refuses a word only for its type number, its code point or the space bits of its address.
-/

namespace ScriptMachine

namespace Address

theorem toNat_toWord_constant {offset : UInt32} (h : offset.toNat ≤ maxOffset) :
    (constant offset).toWord.toNat = 0x40000000 + offset.toNat := by
  have hlt : offset.toNat < 2 ^ 30 := Nat.lt_of_le_of_lt h (by decide)
  rw [toWord, UInt32.toNat_or]
  exact (Nat.two_pow_add_eq_or_of_lt hlt 1).symm

theorem toNat_toWord_mutable {offset : UInt32} (h : offset.toNat ≤ maxOffset) :
    (mutable offset).toWord.toNat = 0x80000000 + offset.toNat := by
  have hlt : offset.toNat < 2 ^ 30 := Nat.lt_of_le_of_lt h (by decide)
  rw [toWord, UInt32.toNat_or]
  exact (Nat.two_pow_add_eq_or_of_lt hlt 2).symm

theorem ofWord?_toWord {address : Address} (h : address.offset.toNat ≤ maxOffset) :
    ofWord? address.toWord = some address := by
  have hmax : maxOffset = 0x3fffffff := rfl
  have hback {offset : UInt32} {tag : Nat} (hoffset : offset.toNat ≤ maxOffset) :
      UInt32.ofNat ((tag * 0x40000000 + offset.toNat) % 0x40000000) = offset := by
    apply UInt32.toNat_inj.mp
    rw [UInt32.toNat_ofNat']
    omega
  cases address with
  | null => rfl
  | constant offset =>
    have hoffset : offset.toNat ≤ maxOffset := h
    have hspace : (0x40000000 + offset.toNat) / 0x40000000 = 1 := by omega
    simp only [ofWord?, toNat_toWord_constant hoffset, hspace]
    rw [← Nat.one_mul 0x40000000, hback hoffset]
  | «mutable» offset =>
    have hoffset : offset.toNat ≤ maxOffset := h
    have hspace : (0x80000000 + offset.toNat) / 0x40000000 = 2 := by omega
    simp only [ofWord?, toNat_toWord_mutable hoffset, hspace]
    rw [show 0x80000000 = 2 * 0x40000000 by rfl, hback hoffset]

theorem offset_le_of_ofWord? {word : UInt32} {address : Address} (h : ofWord? word = some address) :
    address.offset.toNat ≤ maxOffset := by
  have hmax : maxOffset = 0x3fffffff := rfl
  have hoffset : (UInt32.ofNat (word.toNat % 0x40000000)).toNat ≤ maxOffset := by
    rw [UInt32.toNat_ofNat']
    omega
  unfold ofWord? at h
  split at h
  · cases h
    exact Nat.zero_le _
  · cases h
    exact hoffset
  · cases h
    exact hoffset
  · cases h

/-- Only a word with both space bits set is no address. -/
theorem ofWord?_eq_none_iff {word : UInt32} : ofWord? word = none ↔ word >>> 30 = 3 := by
  have hlt := word.toNat_lt
  have hspace : word >>> 30 = 3 ↔ word.toNat / 0x40000000 = 3 := by
    rw [← UInt32.toNat_inj, UInt32.toNat_shiftRight]
    exact Iff.of_eq (congrArg (· = 3) (Nat.shiftRight_eq_div_pow word.toNat 30))
  rw [hspace, ofWord?]
  split
  case h_1 hnull => simp [hnull]
  case h_2 hconstant => simp [hconstant]
  case h_3 hmutable => simp [hmutable]
  case h_4 hnull hconstant hmutable =>
    simp only [imp_false] at hnull hconstant hmutable
    simp only [true_iff]
    omega

end Address

namespace Value

/-- The value keeps to the limits of a packed word. -/
def Packable : Value → Prop
  | .array address length => length.toNat ≤ maxArrayLength ∧ address.offset.toNat ≤ maxOffset
  | .iterator current remaining => remaining.toNat ≤ maxArrayLength ∧ current.offset.toNat ≤ maxOffset
  | _ => True

instance : DecidablePred Packable
  | .array _ _ | .iterator _ _ => instDecidableAnd
  | .nothing | .number _ | .bool _ | .char _ | .frame _ => instDecidableTrue

theorem toNat_packed (v : Value) : v.packed.toNat = v.typeId * 0x1000000000000000 + v.payload := by
  have hpayload := v.payload_lt
  have htype : v.typeId ≤ 7 := by cases v <;> simp [typeId]
  rw [packed, UInt64.toNat_ofNat']
  omega

/-- An address and a count come back from the bits below a type number. -/
theorem span_of_bits (tag : Nat) (address : Address) {length : UInt32}
    (hlength : length.toNat ≤ maxArrayLength) :
    UInt32.ofNat (tag * 0x1000000000000000 + (length.toNat % 0x1000000 * 0x100000000 + address.toWord.toNat))
        = address.toWord ∧
      UInt32.ofNat ((tag * 0x1000000000000000 + (length.toNat % 0x1000000 * 0x100000000
        + address.toWord.toNat)) / 0x100000000 % 0x1000000) = length := by
  have hmax : maxArrayLength = 0xffffff := rfl
  have hword := address.toWord.toNat_lt
  constructor
  · apply UInt32.toNat_inj.mp
    rw [UInt32.toNat_ofNat']
    omega
  · apply UInt32.toNat_inj.mp
    rw [UInt32.toNat_ofNat']
    omega

theorem ofPacked?_packed {v : Value} (h : v.Packable) : ofPacked? v.packed = some v := by
  have hdiv : (v.typeId * 0x1000000000000000 + v.payload) / 0x1000000000000000 = v.typeId := by
    have := v.payload_lt
    omega
  simp only [ofPacked?, toNat_packed, unpack?, hdiv]
  cases v with
  | nothing => rfl
  | number x =>
    have hlow : UInt32.ofNat (1 * 0x1000000000000000 + x.bits.toNat) = x.bits := by
      apply UInt32.toNat_inj.mp
      have := x.bits.toNat_lt
      rw [UInt32.toNat_ofNat']
      omega
    simp only [typeId, payload, hlow]
  | bool b => cases b <;> rfl
  | char c =>
    have hlow : (UInt32.ofNat (4 * 0x1000000000000000 + c.toNat)).toNat = c.toNat := by
      have := c.toNat_val ▸ c.val.toNat_lt
      rw [UInt32.toNat_ofNat']
      omega
    have hvalid : c.toNat.isValidChar := c.valid
    simp only [typeId, payload, hlow, charOfCode?, if_pos hvalid, Char.ofNat_toNat, Option.map_some]
  | array address length =>
    obtain ⟨hword, hcount⟩ := span_of_bits 5 address h.1
    simp only [typeId, payload, hword, hcount, Address.ofWord?_toWord h.2, Option.map_some]
  | frame f =>
    obtain ⟨returnTo, arguments, locals⟩ := f
    have hreturn := returnTo.toUInt32.toNat_lt
    have hlocals := locals.toNat_lt
    have harguments := arguments.toNat_lt
    have hlow : UInt32.ofNat (6 * 0x1000000000000000 + (arguments.toNat * 0x10000000000
        + locals.toNat * 0x100000000 + returnTo.toUInt32.toNat)) = returnTo.toUInt32 := by
      apply UInt32.toNat_inj.mp
      rw [UInt32.toNat_ofNat']
      omega
    simp only [typeId, payload, hlow, Int32.toInt32_toUInt32]
    congr 3
    · apply UInt8.toNat_inj.mp
      rw [UInt8.toNat_ofNat']
      omega
    · apply UInt8.toNat_inj.mp
      rw [UInt8.toNat_ofNat']
      omega
  | iterator current remaining =>
    obtain ⟨hword, hcount⟩ := span_of_bits 7 current h.1
    simp only [typeId, payload, hword, hcount, Address.ofWord?_toWord h.2, Option.map_some]

theorem packable_of_ofPacked? {word : UInt64} {v : Value} (h : ofPacked? word = some v) : v.Packable := by
  have hmax : maxArrayLength = 0xffffff := rfl
  have hcount : (UInt32.ofNat (word.toNat / 0x100000000 % 0x1000000)).toNat ≤ maxArrayLength := by
    rw [UInt32.toNat_ofNat']
    omega
  simp only [ofPacked?, unpack?] at h
  split at h
  · cases h
    trivial
  · cases h
    trivial
  · cases h
    trivial
  · obtain ⟨c, -, rfl⟩ := Option.map_eq_some_iff.mp h
    trivial
  · obtain ⟨address, haddress, rfl⟩ := Option.map_eq_some_iff.mp h
    exact ⟨hcount, Address.offset_le_of_ofWord? haddress⟩
  · cases h
    trivial
  · obtain ⟨address, haddress, rfl⟩ := Option.map_eq_some_iff.mp h
    exact ⟨hcount, Address.offset_le_of_ofWord? haddress⟩
  · cases h

/-- A Unicode scalar value: a code point that is no surrogate. -/
def IsUnicodeScalar (code : UInt32) : Prop :=
  code ≤ 0x10ffff ∧ ¬(0xd800 ≤ code ∧ code ≤ 0xdfff)

instance : DecidablePred IsUnicodeScalar :=
  fun _ => instDecidableAnd

theorem charOfCode?_eq_none_iff {code : UInt32} :
    charOfCode? code.toNat = none ↔ ¬IsUnicodeScalar code := by
  have hvalid : code.toNat.isValidChar ↔ IsUnicodeScalar code := by
    simp only [Nat.isValidChar, IsUnicodeScalar, UInt32.le_iff_toNat_le, UInt32.reduceToNat]
    omega
  rw [charOfCode?, ← hvalid]
  simp

/-- The four bits of a word that number the type of its value. -/
def typeBits (word : UInt64) : UInt64 :=
  word >>> 60

theorem toNat_typeBits (word : UInt64) : (typeBits word).toNat = word.toNat / 0x1000000000000000 := by
  rw [typeBits, UInt64.toNat_shiftRight]
  exact Nat.shiftRight_eq_div_pow word.toNat 60

/-- The word stands for no value: its type number is not in use, its character is none, or the address
of its span is in no space. -/
def Unreadable (word : UInt64) : Prop :=
  (typeBits word = 2 ∨ typeBits word > 7) ∨
  (typeBits word = 4 ∧ ¬IsUnicodeScalar word.toUInt32) ∨
  ((typeBits word = 5 ∨ typeBits word = 7) ∧ word.toUInt32 >>> 30 = 3)

instance : DecidablePred Unreadable :=
  fun _ => instDecidableOr

theorem ofPacked?_eq_none_iff {word : UInt64} : ofPacked? word = none ↔ Unreadable word := by
  have hlow : UInt32.ofNat word.toNat = word.toUInt32 := rfl
  -- Both sides become statements about the quotient that the reader matches on.
  simp only [Unreadable, ← UInt64.toNat_inj, gt_iff_lt, UInt64.lt_iff_toNat_lt, toNat_typeBits,
    UInt64.reduceToNat, ofPacked?, unpack?, hlow]
  split
  case h_1 htype => simp [htype]
  case h_2 htype => simp [htype]
  case h_3 htype => simp [htype]
  case h_4 htype =>
    rw [Option.map_eq_none_iff, charOfCode?_eq_none_iff]
    simp [htype]
  case h_5 htype => simp [htype, Address.ofWord?_eq_none_iff]
  case h_6 htype => simp [htype]
  case h_7 htype => simp [htype, Address.ofWord?_eq_none_iff]
  case h_8 hnothing hnumber hbool hchar harray hframe hiterator =>
    simp only [imp_false] at hnothing hnumber hbool hchar harray hframe hiterator
    simp only [true_iff]
    left
    omega

/-- A value that keeps to the limits of a packed word comes back from it bit by bit, so that no two of
them share a word. A word stands for no value exactly if it is `Unreadable`, and the value of any other
word comes back from the word it packs to. -/
theorem packed_values_read_back :
    (∀ v : Value, v.Packable → ofPacked? v.packed = some v) ∧
    Set.InjOn packed {v | v.Packable} ∧
    (∀ word, ofPacked? word = none ↔ Unreadable word) ∧
    ∀ word v, ofPacked? word = some v → ofPacked? v.packed = some v := by
  refine ⟨fun v hv => ofPacked?_packed hv, ?_, fun word => ofPacked?_eq_none_iff, fun word v hword =>
    ofPacked?_packed (packable_of_ofPacked? hword)⟩
  intro v hv w hw hpacked
  apply Option.some.inj
  calc some v
    _ = ofPacked? v.packed := (ofPacked?_packed hv).symm
    _ = ofPacked? w.packed := by rw [hpacked]
    _ = some w := ofPacked?_packed hw

/-- The longest array at the last address, a NaN with bits of its own, the two zeros, a lone surrogate, and
a word that spells `null` with slot bits and so is not the one its value packs to. -/
theorem packed_values_read_back_sample :
    (array (.mutable 0x3fffffff) 0xffffff).Packable ∧
    ofPacked? (array (.mutable 0x3fffffff) 0xffffff).packed =
      some (array (.mutable 0x3fffffff) 0xffffff) ∧
    ofPacked? (number ⟨0xff800001⟩).packed = some (number ⟨0xff800001⟩) ∧
    (number ⟨0⟩).packed ≠ (number ⟨0x80000000⟩).packed ∧
    ofPacked? 0x400000000000d800 = none ∧
    ofPacked? 0x5f00000212345678 = some (array .null 2) ∧
    (array .null 2).packed ≠ 0x5f00000212345678 ∧
    ofPacked? (array .null 2).packed = some (array .null 2) := by
  obtain ⟨hback, hinjective, hnone, hagain⟩ := packed_values_read_back
  have hread : ofPacked? 0x5f00000212345678 = some (array .null 2) := by decide
  exact ⟨by decide, hback _ (by decide), hback _ trivial, hinjective.ne trivial trivial (by decide),
    (hnone _).mpr (by decide), hread, by decide, hagain _ _ hread⟩

end Value

end ScriptMachine
