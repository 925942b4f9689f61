import ScriptMachine.Bytes
import ScriptMachine.Opcode

/-!
# Instructions in code

Code is a string of bytes. `Instruction.decodeAt` reads the instruction at one place, and `walk`
reads the whole string from its start: each instruction begins where the one before it ends, and the
walk stops at the end of the code or at the first place that cannot be read.
-/

namespace ScriptMachine

/-- An instruction read from code. Operands that its operation does not take are zero. -/
structure Instruction where
  offset : Nat
  op : Opcode
  first : UInt32
  second : UInt32
  deriving DecidableEq, Inhabited, Repr

inductive DecodeError where
  | unknownOpcode (offset : Nat) (byte : UInt8)
  | truncated (offset : Nat) (op : Opcode)
  deriving DecidableEq, Repr

/-- The `width` lowest hexadecimal digits of a number. -/
def hexText (width : Nat) (n : Nat) : String :=
  let digits := Nat.toDigits 16 n
  String.ofList (List.replicate (width - digits.length) '0' ++ digits)

namespace DecodeError

def message : DecodeError → String
  | .unknownOpcode offset byte =>
    "unknown opcode 0x" ++ hexText 2 byte.toNat ++ " at " ++ toString offset
  | .truncated offset op => op.name ++ " at " ++ toString offset ++ " is missing operand bytes"

end DecodeError

namespace Instruction

def nextOffset (i : Instruction) : Nat :=
  i.offset + i.op.encodedLength

def operands (i : Instruction) : List UInt32 :=
  [i.first, i.second].take i.op.operandCount

def encode (op : Opcode) (first second : UInt32) : List UInt8 :=
  op.toByte ::
    (([first, second].take op.operandCount).flatMap fun operand => Bytes.ofNat 4 operand.toNat)

/-- The four bytes at a place, as one word; bytes past the end read as zero. -/
def wordAt (code : Array UInt8) (place : Nat) : UInt32 :=
  let byte (i : Nat) : Nat := (code.getD (place + i) 0).toNat
  .ofNat (byte 0 + 256 * byte 1 + 65536 * byte 2 + 16777216 * byte 3)

/-- Reads the instruction at a place. The end of the code reads as an unknown operation. -/
def decodeAt (code : Array UInt8) (offset : Nat) : Except DecodeError Instruction :=
  match code[offset]? with
  | none => .error (.unknownOpcode offset 0)
  | some byte =>
    match Opcode.ofByte? byte with
    | none => .error (.unknownOpcode offset byte)
    | some op =>
      if code.size < offset + op.encodedLength then .error (.truncated offset op)
      else
        let first := if 1 ≤ op.operandCount then wordAt code (offset + 1) else 0
        let second := if 2 ≤ op.operandCount then wordAt code (offset + 5) else 0
        .ok ⟨offset, op, first, second⟩

/-- How an operand is written: constants by `#`, places in the code by `@`, numbers plain. -/
def operandText (kind : OperandKind) (value : UInt32) : String :=
  match kind with
  | .constant => "#" ++ toString value.toNat
  | .address => "@" ++ toString value.toNat
  | .numeric => toString value.toNat

def text (i : Instruction) : String :=
  (i.op.operands.zip [i.first, i.second]).foldl
    (fun line (kind, value) => line ++ " " ++ operandText kind value) i.op.name

end Instruction

/-- What a walk over code found: the instructions in order, and the error that ended it, if any. -/
structure Walk where
  instructions : List Instruction
  error : Option DecodeError
  deriving DecidableEq, Repr

namespace Walk

/-- Walks from `offset`. Every instruction has at least one byte, so one round per byte is enough. -/
def go (code : Array UInt8) : Nat → Nat → Walk
  | 0, _ => ⟨[], none⟩
  | fuel + 1, offset =>
    if code.size ≤ offset then ⟨[], none⟩
    else
      match Instruction.decodeAt code offset with
      | .error e => ⟨[], some e⟩
      | .ok i =>
        let rest := go code fuel i.nextOffset
        ⟨i :: rest.instructions, rest.error⟩

def ofCode (code : Array UInt8) : Walk :=
  go code code.size 0

/-- Where the walk stands in the end: behind its last instruction. -/
def endOffset (walk : Walk) : Nat :=
  (walk.instructions.getLast?.map (·.nextOffset)).getD 0

end Walk

end ScriptMachine
