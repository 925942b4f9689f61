import Mathlib
import ScriptMachine.Proofs.Linking

/-!
# A walk tiles its code

Any string of bytes can be walked over. The instructions that the walk finds, written one behind the
other, are the bytes that it has passed, and it stops at the end of the code or at the first place where
no instruction can be read. `Follows` states the rules of a walk without the count of rounds that bounds
it; what is said of walks is proved along these rules.
-/

namespace ScriptMachine

theorem Opcode.ofByte?_eq_none_iff {byte : UInt8} :
    ofByte? byte = none ↔ ∀ op : Opcode, op.toByte ≠ byte := by
  constructor
  · rintro h op rfl
    rw [ofByte?_toByte] at h
    cases h
  · intro h
    cases hop : ofByte? byte with
    | none => rfl
    | some op => exact absurd (toByte_of_ofByte? hop).symm (h op)

/-! ### Stretches of bytes -/

namespace Bytes

def between (code : Array UInt8) (start stop : Nat) : List UInt8 :=
  (code.extract start stop).toList

variable {code : Array UInt8} {start middle stop : Nat}

theorem between_self (code : Array UInt8) (start : Nat) : between code start start = [] := by
  simp [between]

theorem between_append (h : start ≤ middle) (h' : middle ≤ stop) :
    between code start middle ++ between code middle stop = between code start stop := by
  rw [between, between, between, ← Array.toList_append, Array.extract_append_extract,
    Nat.min_eq_left h, Nat.max_eq_right h']

theorem between_cons (h : start < code.size) (h' : start < stop) :
    between code start stop = code.getD start 0 :: between code (start + 1) stop := by
  have hfirst : between code start (start + 1) = [code.getD start 0] := by
    rw [between, Array.toList_extract, List.extract, Nat.add_sub_cancel_left,
      List.take_one_drop_eq_of_lt_length (by simpa using h)]
    simp [h]
  rw [← between_append (Nat.le_succ start) h', hfirst, List.singleton_append]

end Bytes

/-! ### One instruction -/

namespace Instruction

variable {code : Array UInt8} {offset : Nat} {i : Instruction}

/-- The bytes of the instruction: its operation and the operands that this takes. -/
def bytes (i : Instruction) : List UInt8 :=
  encode i.op i.first i.second

/-- A word is written as the four bytes that it was read from. -/
theorem ofNat_wordAt {place : Nat} (h : place + 4 ≤ code.size) :
    Bytes.ofNat 4 (wordAt code place).toNat = Bytes.between code place (place + 4) := by
  have hbetween : Bytes.between code place (place + 4) = [code.getD place 0, code.getD (place + 1) 0,
      code.getD (place + 2) 0, code.getD (place + 3) 0] := by
    rw [Bytes.between_cons (by omega) (by omega), Bytes.between_cons (by omega) (by omega),
      Bytes.between_cons (by omega) (by omega), Bytes.between_cons (by omega) (by omega),
      Bytes.between_self]
  have hword : (wordAt code place).toNat = Bytes.toNat (Bytes.between code place (place + 4)) := by
    have hlt (k : Nat) := (code.getD (place + k) 0).toNat_lt
    have hfirst := hlt 0
    have hsecond := hlt 1
    have hthird := hlt 2
    have hfourth := hlt 3
    simp only [Nat.add_zero] at hfirst
    simp only [hbetween, Bytes.toNat, wordAt, UInt32.toNat_ofNat', Nat.add_zero]
    omega
  have hback := Bytes.ofNat_toNat (Bytes.between code place (place + 4))
  rw [hword]
  rwa [hbetween] at hback ⊢

/-- An instruction is written as the bytes that it was read from. -/
theorem bytes_of_decodeAt (h : decodeAt code offset = .ok i) :
    i.nextOffset ≤ code.size ∧ Bytes.between code offset i.nextOffset = i.bytes := by
  obtain ⟨hbyte, hroom, hread⟩ := decodeAt_eq_ok h
  obtain ⟨hlt, -⟩ := Array.getElem?_eq_some_iff.mp hbyte
  have hfirst : code.getD offset 0 = i.op.toByte := by
    rw [Array.getD_eq_getD_getElem?, hbyte]
    rfl
  have hcount := i.op.operandCount_le
  rw [Opcode.encodedLength] at hroom
  rw [hread]
  simp only [nextOffset, bytes, encode, read, Opcode.encodedLength]
  refine ⟨hroom, ?_⟩
  rw [Bytes.between_cons hlt (by omega), hfirst]
  congr 1
  -- No operation takes more than two operands.
  obtain hnone | hone | htwo :
      i.op.operandCount = 0 ∨ i.op.operandCount = 1 ∨ i.op.operandCount = 2 := by omega
  · simp [hnone, Bytes.between_self]
  · simp [hone, ofNat_wordAt (show offset + 1 + 4 ≤ code.size by omega), Nat.add_assoc]
  · rw [← Bytes.between_append (show offset + 1 ≤ offset + 5 by omega) (by omega)]
    simp [htwo, ofNat_wordAt (show offset + 1 + 4 ≤ code.size by omega),
      ofNat_wordAt (show offset + 5 + 4 ≤ code.size by omega), Nat.add_assoc]

theorem decodeAt_eq_unknownOpcode (hlt : offset < code.size) {place : Nat} {byte : UInt8} :
    decodeAt code offset = .error (.unknownOpcode place byte) ↔
      place = offset ∧ code[offset]? = some byte ∧ ∀ op : Opcode, op.toByte ≠ byte := by
  rw [← Opcode.ofByte?_eq_none_iff]
  constructor
  · intro h
    unfold decodeAt at h
    split at h
    · rename_i hnone
      exact absurd hlt (Nat.not_lt.mpr (Array.getElem?_eq_none_iff.mp hnone))
    · rename_i hbyte
      split at h
      · rename_i hnone
        cases h
        exact ⟨rfl, hbyte, hnone⟩
      · split at h <;> cases h
  · rintro ⟨rfl, hbyte, hnone⟩
    rw [decodeAt, hbyte]
    simp only [hnone]

theorem decodeAt_eq_truncated {place : Nat} {op : Opcode} :
    decodeAt code offset = .error (.truncated place op) ↔
      place = offset ∧ code[offset]? = some op.toByte ∧ code.size < offset + op.encodedLength := by
  constructor
  · intro h
    unfold decodeAt at h
    split at h
    · cases h
    · rename_i byte hbyte
      split at h
      · cases h
      · rename_i found hfound
        split at h
        · rename_i hshort
          cases h
          exact ⟨rfl, by rw [hbyte, Opcode.toByte_of_ofByte? hfound], hshort⟩
        · cases h
  · rintro ⟨rfl, hbyte, hshort⟩
    rw [decodeAt, hbyte]
    simp only [Opcode.ofByte?_toByte, if_pos hshort]

end Instruction

/-! ### The whole walk -/

namespace Walk

open Instruction

variable {code : Array UInt8} {offset : Nat} {walk : Walk}

/-- The rules of a walk: it ends at the end of the code, it fails where no instruction can be read, and
otherwise it goes on behind the instruction that it has read. -/
inductive Follows (code : Array UInt8) : Nat → Walk → Prop where
  | ended : Follows code code.size ⟨[], none⟩
  | failed {offset : Nat} {e : DecodeError} (hlt : offset < code.size)
      (hdecode : decodeAt code offset = .error e) : Follows code offset ⟨[], some e⟩
  | next {offset : Nat} {i : Instruction} {walk : Walk} (hdecode : decodeAt code offset = .ok i)
      (hrest : Follows code i.nextOffset walk) : Follows code offset ⟨i :: walk.instructions, walk.error⟩

/-- One round for each byte that is left is enough. -/
theorem follows_go {fuel : Nat} (hle : offset ≤ code.size) (hfuel : code.size ≤ offset + fuel) :
    Follows code offset (go code fuel offset) := by
  induction fuel generalizing offset with
  | zero =>
    obtain rfl : offset = code.size := by omega
    exact .ended
  | succ fuel ih =>
    rcases Nat.lt_or_ge offset code.size with hlt | hge
    · cases hdecode : decodeAt code offset with
      | error e =>
        rw [go, if_neg (by omega), hdecode]
        exact .failed hlt hdecode
      | ok i =>
        have hoffset := (offset_of_decodeAt hdecode).1
        have hnext : i.nextOffset = i.offset + (1 + 4 * i.op.operandCount) := rfl
        rw [go_of_decodeAt hdecode]
        exact .next hdecode (ih (bytes_of_decodeAt hdecode).1 (by omega))
    · obtain rfl : offset = code.size := by omega
      rw [go_of_size_le hge]
      exact .ended

/-- Where a walk from a place stands in the end. -/
def stop (walk : Walk) (start : Nat) : Nat :=
  (walk.instructions.getLast?.map (·.nextOffset)).getD start

theorem stop_cons (i : Instruction) (walk : Walk) (start : Nat) :
    stop ⟨i :: walk.instructions, walk.error⟩ start = walk.stop i.nextOffset := by
  rw [stop, stop, List.getLast?_cons]
  cases walk.instructions.getLast? <;> rfl

/-- The instructions of a walk are written as the bytes that it has passed. -/
theorem Follows.bytes_eq (h : Follows code offset walk) :
    offset ≤ walk.stop offset ∧ walk.stop offset ≤ code.size ∧
      walk.instructions.flatMap Instruction.bytes = Bytes.between code offset (walk.stop offset) := by
  induction h with
  | ended => exact ⟨Nat.le_refl _, Nat.le_refl _, (Bytes.between_self _ _).symm⟩
  | failed hlt => exact ⟨Nat.le_refl _, hlt.le, (Bytes.between_self _ _).symm⟩
  | @next offset i walk hdecode _ ih =>
    obtain ⟨hstart, hstop, hbytes⟩ := ih
    have hnext : offset ≤ i.nextOffset := (offset_of_decodeAt hdecode).1 ▸ Nat.le_add_right _ _
    rw [stop_cons]
    refine ⟨hnext.trans hstart, hstop, ?_⟩
    rw [List.flatMap_cons, hbytes, ← (bytes_of_decodeAt hdecode).2, Bytes.between_append hnext hstart]

theorem Follows.error_eq_none (h : Follows code offset walk) :
    walk.error = none ↔ walk.stop offset = code.size := by
  induction h with
  | ended => exact ⟨fun _ => rfl, fun _ => rfl⟩
  | failed hlt => exact ⟨nofun, fun hstop => absurd hstop hlt.ne⟩
  | next _ _ ih =>
    rw [stop_cons]
    exact ih

theorem Follows.error_eq_some (h : Follows code offset walk) {e : DecodeError} :
    walk.error = some e ↔ walk.stop offset < code.size ∧ decodeAt code (walk.stop offset) = .error e := by
  induction h with
  | ended => exact ⟨nofun, fun h => absurd h.1 (Nat.lt_irrefl _)⟩
  | failed hlt hdecode =>
    constructor
    · rintro ⟨⟩
      exact ⟨hlt, hdecode⟩
    · intro h
      cases hdecode.symm.trans h.2
      rfl
  | next _ _ ih =>
    rw [stop_cons]
    exact ih

/-- A walk over any bytes tiles them: the first instruction is at the beginning and each one begins where
the one before it ends, so that together they are the bytes up to the last end. That is the end of the
code if there is no error. Otherwise the byte there is no operation, or it is one and its operands are not
all there. -/
theorem walk_tiles_code (code : Array UInt8) :
    (∀ i ∈ (ofCode code).instructions.head?, i.offset = 0) ∧
    (ofCode code).instructions.IsChain (fun i j => j.offset = i.nextOffset) ∧
    (ofCode code).endOffset ≤ code.size ∧
    (ofCode code).instructions.flatMap Instruction.bytes = code.toList.take (ofCode code).endOffset ∧
    ((ofCode code).error = none ↔ (ofCode code).endOffset = code.size) ∧
    (∀ place byte, (ofCode code).error = some (.unknownOpcode place byte) ↔
      place = (ofCode code).endOffset ∧ code[place]? = some byte ∧ ∀ op : Opcode, op.toByte ≠ byte) ∧
    ∀ place op, (ofCode code).error = some (.truncated place op) ↔
      place = (ofCode code).endOffset ∧ code[place]? = some op.toByte ∧
        code.size < place + op.encodedLength := by
  have hfollows : Follows code 0 (ofCode code) := follows_go (Nat.zero_le _) (Nat.zero_add _).ge
  have hend : (ofCode code).stop 0 = (ofCode code).endOffset := rfl
  obtain ⟨-, hle, hbytes⟩ := hfollows.bytes_eq
  rw [hend] at hle hbytes
  refine ⟨(isChain_go code code.size 0).2, isChain code, hle, ?_, hfollows.error_eq_none,
    fun place byte => ?_, fun place op => ?_⟩
  · rw [hbytes, Bytes.between, Array.toList_extract, List.extract, List.drop_zero, Nat.sub_zero]
  · rw [hfollows.error_eq_some, hend]
    constructor
    · rintro ⟨hlt, herror⟩
      obtain ⟨rfl, hbyte, hunknown⟩ := (decodeAt_eq_unknownOpcode hlt).mp herror
      exact ⟨rfl, hbyte, hunknown⟩
    · rintro ⟨rfl, hbyte, hunknown⟩
      have hlt := (Array.getElem?_eq_some_iff.mp hbyte).1
      exact ⟨hlt, (decodeAt_eq_unknownOpcode hlt).mpr ⟨rfl, hbyte, hunknown⟩⟩
  · rw [hfollows.error_eq_some, hend, decodeAt_eq_truncated]
    constructor
    · rintro ⟨-, rfl, hbyte, hshort⟩
      exact ⟨rfl, hbyte, hshort⟩
    · rintro ⟨rfl, hbyte, hshort⟩
      exact ⟨(Array.getElem?_eq_some_iff.mp hbyte).1, rfl, hbyte, hshort⟩

/-- A jump with only two bytes of its operand ends the walk. -/
example : ofCode #[19, 7, 0, 0, 0, 22, 1, 0] =
    ⟨[⟨0, .pushValue, 7, 0⟩], some (.truncated 5 .jump)⟩ := by decide

end Walk

end ScriptMachine
