import ScriptMachine.Address
import ScriptMachine.Number.Decimal

/-!
# Values

What a stack slot, a heap slot or a constant holds. A value never owns memory: arrays and iterators
are an address and a count, and a call frame is an ordinary value on the stack. Equality of Lean
terms is identity of bits; `Value.same` is the equality that scripts see.
-/

namespace ScriptMachine

/-- The marker of one call on the stack: where the call returns to, and how many of the slots above
the marker are arguments and further locals. -/
structure Frame where
  returnTo : Int32
  arguments : UInt8
  locals : UInt8
  deriving DecidableEq, Inhabited, Repr

namespace Frame

/-- A negative return address hands control back to the host. -/
def returnsToHost (frame : Frame) : Bool :=
  decide (frame.returnTo.toInt < 0)

/-- The slots that belong to the call: arguments first, then the other locals. -/
def reserved (frame : Frame) : Nat :=
  frame.arguments.toNat + frame.locals.toNat

end Frame

/-- The longest array that a program can hold. -/
def maxArrayLength : Nat :=
  0xffffff

inductive Value where
  | nothing
  | number (value : Number)
  | bool (value : Bool)
  | char (value : Char)
  | array (address : Address) (length : UInt32)
  | frame (value : Frame)
  | iterator (current : Address) (remaining : UInt32)
  deriving DecidableEq, Inhabited, Repr

namespace Value

def typeName : Value → String
  | .nothing => "none"
  | .number _ => "number"
  | .bool _ => "bool"
  | .char _ => "char"
  | .array _ _ => "array"
  | .frame _ => "frame"
  | .iterator _ _ => "iterator"

/-- The number of a value's type. Two is not in use. -/
def typeId : Value → Nat
  | .nothing => 0
  | .number _ => 1
  | .bool _ => 3
  | .char _ => 4
  | .array _ _ => 5
  | .frame _ => 6
  | .iterator _ _ => 7

def isFrame : Value → Bool
  | .frame _ => true
  | _ => false

/-- Equality as scripts see it: numbers compare numerically, everything else by its parts. -/
def same : Value → Value → Bool
  | .number x, .number y => x.same y
  | v, w => v == w

/-! ### Taking a value as one of its types -/

def number? : Value → Option Number
  | .number x => some x
  | _ => none

def bool? : Value → Option Bool
  | .bool b => some b
  | _ => none

def char? : Value → Option Char
  | .char c => some c
  | _ => none

def array? : Value → Option (Address × UInt32)
  | .array address length => some (address, length)
  | _ => none

def frame? : Value → Option Frame
  | .frame f => some f
  | _ => none

def iterator? : Value → Option (Address × UInt32)
  | .iterator current remaining => some (current, remaining)
  | _ => none

/-- The value as text, without following addresses. -/
def text : Value → String
  | .nothing => "none"
  | .number x => x.text
  | .bool b => if b then "true" else "false"
  | .char c => "'" ++ c.toString ++ "'"
  | .array address length => "[" ++ address.text ++ " x" ++ toString length.toNat ++ "]"
  | .frame f =>
    "<pc: " ++ toString f.returnTo.toInt ++ ", nargs: " ++ toString f.arguments.toNat
      ++ ", nlocals: " ++ toString f.locals.toNat ++ ">"
  | .iterator current remaining =>
    "\x7bcurr: " ++ current.text ++ ", rem: " ++ toString remaining.toNat ++ "\x7d"

end Value

end ScriptMachine
