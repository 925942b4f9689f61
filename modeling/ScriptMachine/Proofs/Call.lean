import Mathlib
import ScriptMachine.Proofs.Blob
import ScriptMachine.Proofs.Machine.ControlFlow
import ScriptMachine.Proofs.Tiling

/-!
# Where a call by name begins

The table of functions that comes with a blob may hold any addresses. A lookup asks whether the byte at
the address is the one that opens a frame, and nothing more. In code that can be walked to its end every
byte belongs to one instruction, so that such a byte is either the beginning of an instruction that
opens a frame, or it stands among the operands of another one. A lookup accepts both.
-/

namespace ScriptMachine

theorem Opcode.toByte_injective : Function.Injective Opcode.toByte := by
  intro op op' h
  have hback := ofByte?_toByte op
  rw [h, ofByte?_toByte] at hback
  exact (Option.some.inj hback).symm

/-! ### Every byte belongs to one instruction -/

namespace Walk

variable {code : Array UInt8} {offset place : Nat} {walk : Walk} {i j : Instruction}

theorem Follows.offset_le (h : Follows code offset walk) (hi : i ∈ walk.instructions) :
    offset ≤ i.offset := by
  induction h with
  | ended => cases hi
  | failed => cases hi
  | @next offset first walk hdecode _ ih =>
    have hoffset := (Instruction.offset_of_decodeAt hdecode).1
    rcases List.mem_cons.mp hi with rfl | hrest
    · exact hoffset.ge
    · have hnext : first.offset ≤ first.nextOffset := Nat.le_add_right _ _
      exact (hoffset.ge.trans hnext).trans (ih hrest)

/-- A walk passes over no byte. -/
theorem Follows.exists_covering (h : Follows code offset walk) (hle : offset ≤ place)
    (hlt : place < walk.stop offset) : ∃ i ∈ walk.instructions, i.offset ≤ place ∧ place < i.nextOffset := by
  induction h with
  | ended => exact absurd hlt (Nat.not_lt.mpr hle)
  | failed => exact absurd hlt (Nat.not_lt.mpr hle)
  | @next offset first walk hdecode _ ih =>
    rw [stop_cons] at hlt
    rcases Nat.lt_or_ge place first.nextOffset with hfirst | hbehind
    · have hoffset := (Instruction.offset_of_decodeAt hdecode).1
      exact ⟨first, List.mem_cons_self .., hoffset.le.trans hle, hfirst⟩
    · obtain ⟨i, hi, hcovers⟩ := ih hbehind hlt
      exact ⟨i, List.mem_cons_of_mem _ hi, hcovers⟩

/-- No byte is passed over twice. -/
theorem Follows.eq_of_covering (h : Follows code offset walk) (hi : i ∈ walk.instructions)
    (hj : j ∈ walk.instructions) (hcovers : i.offset ≤ place ∧ place < i.nextOffset)
    (hcovers' : j.offset ≤ place ∧ place < j.nextOffset) : i = j := by
  induction h with
  | ended => cases hi
  | failed => cases hi
  | next hdecode hrest ih =>
    rcases List.mem_cons.mp hi with rfl | hlater
    · rcases List.mem_cons.mp hj with rfl | hlater'
      · rfl
      · have hbehind := hrest.offset_le hlater'
        omega
    · rcases List.mem_cons.mp hj with rfl | hlater'
      · have hbehind := hrest.offset_le hlater
        omega
      · exact ih hlater hlater'

theorem follows_ofCode (code : Array UInt8) : Follows code 0 (ofCode code) :=
  follows_go (Nat.zero_le _) (Nat.zero_add _).ge

end Walk

namespace Instruction

/-- The bytes of an instruction are those of the code from its beginning on. -/
theorem getElem?_bytes {code : Array UInt8} {i : Instruction} {place : Nat}
    (h : decodeAt code i.offset = .ok i) (hle : i.offset ≤ place) (hlt : place < i.nextOffset) :
    i.bytes[place - i.offset]? = code[place]? := by
  rw [← (bytes_of_decodeAt h).2, Bytes.between, Array.toList_extract, List.extract,
    List.getElem?_take_of_lt (by omega), List.getElem?_drop, Nat.add_sub_cancel' hle,
    Array.getElem?_toList]

end Instruction

/-! ### Places that open a frame -/

namespace Program

variable {p : Program} {place : Nat}

/-- A function begins at the place: the walk over the code comes to it, and the instruction that it
finds there opens a frame. -/
def BeginsFunction (p : Program) (place : Nat) : Prop :=
  p.isBoundary place = true ∧ ∃ i ∈ p.instructions, i.offset = place ∧ i.op = .makeFrame

/-- The place is among the operands of an instruction, at a byte that is also the operation that opens a
frame. -/
def HitsOperand (p : Program) (place : Nat) : Prop :=
  ∃ i ∈ p.instructions, i.offset < place ∧ place < i.nextOffset ∧
    i.bytes[place - i.offset]? = some Opcode.makeFrame.toByte

theorem opensFrameAt_eq_true : p.opensFrameAt place = true ↔ p.code[place]? = some Opcode.makeFrame.toByte := by
  rw [opensFrameAt, beq_iff_eq]

/-- In code that can be walked to its end, a byte that opens a frame begins a function or is among the
operands of an instruction. -/
theorem opensFrameAt_iff (hwalk : (Walk.ofCode p.code).error = none) :
    p.opensFrameAt place = true ↔ p.BeginsFunction place ∨ p.HitsOperand place := by
  rw [opensFrameAt_eq_true]
  constructor
  · intro hbyte
    have hstop := (Walk.follows_ofCode p.code).error_eq_none.mp hwalk
    have hplace := (Array.getElem?_eq_some_iff.mp hbyte).1
    obtain ⟨i, hi, hle, hlt⟩ :=
      (Walk.follows_ofCode p.code).exists_covering (Nat.zero_le place) (by omega)
    have hdecode := Walk.decodeAt_of_mem hi
    rcases Nat.eq_or_lt_of_le hle with rfl | hinside
    · refine .inl ⟨isBoundary_of_mem hi, i, hi, rfl, ?_⟩
      have hop := hbyte.symm.trans (Instruction.byte_of_decodeAt hdecode)
      exact Opcode.toByte_injective (Option.some.inj hop).symm
    · exact .inr ⟨i, hi, hinside, hlt, (Instruction.getElem?_bytes hdecode hle hlt).trans hbyte⟩
  · rintro (⟨-, i, hi, rfl, hop⟩ | ⟨i, hi, hinside, hlt, hbyte⟩)
    · rw [Instruction.byte_of_decodeAt (Walk.decodeAt_of_mem hi), hop]
    · rw [← Instruction.getElem?_bytes (Walk.decodeAt_of_mem hi) hinside.le hlt]
      exact hbyte

/-- An operand is no place where an instruction begins. -/
theorem not_beginsFunction_of_hitsOperand (h : p.HitsOperand place) : ¬ p.BeginsFunction place := by
  obtain ⟨i, hi, hinside, hlt, -⟩ := h
  rintro ⟨-, j, hj, rfl, -⟩
  have hnext : j.offset < j.nextOffset := Nat.lt_add_of_pos_right (by simp [Opcode.encodedLength])
  have hsame := (Walk.follows_ofCode p.code).eq_of_covering hi hj ⟨hinside.le, hlt⟩ ⟨Nat.le_refl _, hnext⟩
  rw [hsame] at hinside
  exact Nat.lt_irrefl _ hinside

end Program

/-! ### Lookups -/

namespace Call

variable {p : Program} {name : String} {call : Call}

theorem lookup_eq_ok : lookup p name = .ok call ↔
    ∃ found, p.findExport? name = some found ∧ p.opensFrameAt found.address.toNat = true ∧
      call = ⟨name, found.address, found.arity, []⟩ := by
  unfold lookup
  cases p.findExport? name with
  | none => simp
  | some found =>
    simp only [Option.some.injEq, exists_eq_left']
    by_cases hopens : p.opensFrameAt found.address.toNat = true
    · have hlt := (Array.getElem?_eq_some_iff.mp (Program.opensFrameAt_eq_true.mp hopens)).1
      simp only [if_neg (Nat.not_le.mpr hlt), hopens, if_true, Except.ok.injEq, true_and]
      exact eq_comm
    · simp only [hopens, Bool.false_eq_true, if_false, false_and, iff_false]
      split <;> nofun

/-- A lookup in a program that was read from a blob succeeds exactly if the first function with the name
has an address where a function begins, or an address among the operands of an instruction. The call
begins a function exactly if it does not begin among operands. In a well-formed program, such as a
compiled one, it always begins a function. -/
theorem lookup_begins_function_iff {bytes : List UInt8} (hread : Blob.read bytes = .ok p) (name : String) :
    (∀ found, p.findExport? name = some found →
      (lookup p name = .ok ⟨name, found.address, found.arity, []⟩ ↔
        p.BeginsFunction found.address.toNat ∨ p.HitsOperand found.address.toNat)) ∧
    ∀ call, lookup p name = .ok call →
      (∃ found, p.findExport? name = some found ∧ call.address = found.address) ∧
      (p.BeginsFunction call.address.toNat ↔ ¬ p.HitsOperand call.address.toNat) ∧
      (∀ first procedures, p.WellFormed first procedures → p.BeginsFunction call.address.toNat) := by
  have hwalk := (Blob.read_eq_ok.mp hread).2
  refine ⟨fun found hfound => ?_, fun call hlookup => ?_⟩
  · rw [← Program.opensFrameAt_iff hwalk, lookup_eq_ok]
    simp [hfound]
  · obtain ⟨found, hfound, hopens, rfl⟩ := lookup_eq_ok.mp hlookup
    refine ⟨⟨found, hfound, rfl⟩, ⟨fun hbegins hhits => ?_, fun hmisses => ?_⟩, fun first procedures hp => ?_⟩
    · exact Program.not_beginsFunction_of_hitsOperand hhits hbegins
    · exact ((Program.opensFrameAt_iff hwalk).mp hopens).resolve_right hmisses
    · obtain ⟨-, j, hj, hframe, haddress⟩ := Machine.lookup_ok hp hlookup
      exact ⟨haddress ▸ Program.isBoundary_of_mem hj, j, hj, haddress.symm, hframe⟩

/-- A blob with an instruction whose operand is 27, which is also the byte that opens a frame, and with an
empty function behind it. Its table says that `f` is at the operand and `g` at the function. -/
def operandBlob : List UInt8 :=
  Blob.magic ++ [1, 0] ++ [0, 0, 0, 0]
    ++ [15, 0, 0, 0] ++ [Opcode.exit.toByte, 27, 0, 0, 0]
    ++ [Opcode.makeFrame.toByte, 0, 0, 0, 0, 0, 0, 0, 0, Opcode.returnNothing.toByte]
    ++ [0, 0, 0, 0]
    ++ [2, 0, 0, 0] ++ [1, 0, 102, 0, 1, 0, 0, 0] ++ [1, 0, 103, 0, 5, 0, 0, 0] ++ [0]

def operandProgram : Program :=
  { code := #[24, 27, 0, 0, 0, 27, 0, 0, 0, 0, 0, 0, 0, 0, 28]
    exports := [⟨"f", 0, 1⟩, ⟨"g", 0, 5⟩] }

theorem read_operandBlob : Blob.read operandBlob = .ok operandProgram := by
  cbv

theorem instructions_operandProgram : operandProgram.instructions
    = [⟨0, .exit, 27, 0⟩, ⟨5, .makeFrame, 0, 0⟩, ⟨14, .returnNothing, 0, 0⟩] := by
  decide

theorem hitsOperand_operandProgram : operandProgram.HitsOperand 1 :=
  ⟨⟨0, .exit, 27, 0⟩, by simp [instructions_operandProgram], by decide, by decide, by decide⟩

theorem beginsFunction_operandProgram : operandProgram.BeginsFunction 5 :=
  ⟨by decide, ⟨5, .makeFrame, 0, 0⟩, by simp [instructions_operandProgram], rfl, rfl⟩

theorem lookup_begins_function_iff_sample : Blob.read operandBlob = .ok operandProgram ∧
    lookup operandProgram "f" = .ok ⟨"f", 1, 0, []⟩ ∧ ¬ operandProgram.BeginsFunction 1 ∧
    lookup operandProgram "g" = .ok ⟨"g", 5, 0, []⟩ ∧ ¬ operandProgram.HitsOperand 5 := by
  obtain ⟨hfind, hcall⟩ := lookup_begins_function_iff read_operandBlob "f"
  obtain ⟨hfind', hcall'⟩ := lookup_begins_function_iff read_operandBlob "g"
  have hlookup := (hfind ⟨"f", 0, 1⟩ (by decide)).mpr (.inr hitsOperand_operandProgram)
  have hlookup' := (hfind' ⟨"g", 0, 5⟩ (by decide)).mpr (.inl beginsFunction_operandProgram)
  refine ⟨read_operandBlob, hlookup, fun hbegins => ?_, hlookup', ?_⟩
  · exact (hcall _ hlookup).2.1.mp hbegins hitsOperand_operandProgram
  · exact (hcall' _ hlookup').2.1.mp beginsFunction_operandProgram

/-- The call of `f` begins where no instruction does. -/
theorem lookup_accepts_operand : Blob.read operandBlob = .ok operandProgram ∧
    lookup operandProgram "f" = .ok ⟨"f", 1, 0, []⟩ ∧ operandProgram.isBoundary 1 = false :=
  ⟨read_operandBlob, by decide, by decide⟩

end Call

end ScriptMachine
