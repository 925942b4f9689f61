import ScriptMachine.Value

/-!
# Packed values

A value as one 64-bit word: the type number in the top four bits, the payload below it. Lengths keep
24 bits. Constants are compared and stored in this form, so that two zeros of different sign stay two
constants.
-/

namespace ScriptMachine.Value

/-- The bits below the type number. -/
def payload : Value → Nat
  | .nothing => 0
  | .number x => x.bits.toNat
  | .bool b => if b then 0xff else 0
  | .char c => c.toNat
  | .array address length => length.toNat % 0x1000000 * 0x100000000 + address.toWord.toNat
  | .frame f =>
    f.arguments.toNat * 0x10000000000 + f.locals.toNat * 0x100000000
    + f.returnTo.toUInt32.toNat
  | .iterator current remaining => remaining.toNat % 0x1000000 * 0x100000000 + current.toWord.toNat

def packed (v : Value) : UInt64 :=
  .ofNat (v.typeId * 0x1000000000000000 + v.payload)

/-- The character with a code point, unless it is a surrogate or out of range. -/
def charOfCode? (code : Nat) : Option Char :=
  if code.isValidChar then some (Char.ofNat code) else none

/-- Reads the bits of a packed word. A bool is true when its low byte is above `0x80`; bits that a
type does not use are ignored. -/
def unpack? (w : Nat) : Option Value :=
  let low := UInt32.ofNat w
  let count := UInt32.ofNat (w / 0x100000000 % 0x1000000)
  match w / 0x1000000000000000 with
  | 0 => some .nothing
  | 1 => some (.number ⟨low⟩)
  | 3 => some (.bool (decide (0x80 < w % 0x100)))
  | 4 => (charOfCode? low.toNat).map .char
  | 5 => (Address.ofWord? low).map (.array · count)
  | 6 => some (.frame ⟨low.toInt32, .ofNat (w / 0x10000000000), .ofNat (w / 0x100000000)⟩)
  | 7 => (Address.ofWord? low).map (.iterator · count)
  | _ => none

def ofPacked? (word : UInt64) : Option Value :=
  unpack? word.toNat

/-- Identity of packed words, the equality of the constant pool. -/
def samePacked (v w : Value) : Bool :=
  v.packed == w.packed

end ScriptMachine.Value
