/-!
# Addresses

Values live in one of two address spaces: the constant pool of a program and the mutable memory of a
machine. An address is one 32-bit word: two bits name the space and thirty bits the slot.
-/

namespace ScriptMachine

/-- The largest slot number that an address holds. -/
def maxOffset : Nat :=
  0x3fffffff

/-- A slot in one of the two address spaces, or no slot at all. -/
inductive Address where
  | null
  | constant (offset : UInt32)
  | mutable (offset : UInt32)
  deriving DecidableEq, Inhabited, Repr

namespace Address

def constant? (offset : Nat) : Option Address :=
  if offset ≤ maxOffset then some (.constant (.ofNat offset)) else none

def mutable? (offset : Nat) : Option Address :=
  if offset ≤ maxOffset then some (.mutable (.ofNat offset)) else none

/-- The slot number; zero for `null`. -/
def offset : Address → UInt32
  | .null => 0
  | .constant offset => offset
  | .mutable offset => offset

def isNull : Address → Bool
  | .null => true
  | _ => false

def spaceName : Address → String
  | .null => "null"
  | .constant _ => "const"
  | .mutable _ => "mutable"

/-- The address `count` slots further on. `null` stays nowhere, and no address leaves its space. -/
def advance? (address : Address) (count : UInt32) : Option Address :=
  match address with
  | .null => none
  | .constant offset => constant? (offset.toNat + count.toNat)
  | .mutable offset => mutable? (offset.toNat + count.toNat)

def toWord : Address → UInt32
  | .null => 0
  | .constant offset => 0x40000000 ||| offset
  | .mutable offset => 0x80000000 ||| offset

/-- Reads a word back. The two top bits choose the space; both set is no address, and both clear is
`null` whatever the slot bits say. -/
def ofWord? (word : UInt32) : Option Address :=
  let offset := UInt32.ofNat (word.toNat % 0x40000000)
  match word.toNat / 0x40000000 with
  | 0 => some .null
  | 1 => some (.constant offset)
  | 2 => some (.mutable offset)
  | _ => none

def text : Address → String
  | .null => "null"
  | .constant offset => "c:" ++ toString offset.toNat
  | .mutable offset => "m:" ++ toString offset.toNat

end Address

end ScriptMachine
