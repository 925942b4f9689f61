import ScriptMachine.Instruction
import ScriptMachine.Slots

/-!
# Programs

What the machine runs: code and constants, the host functions that the code calls by index, and the
script functions that the host may call by name.
-/

namespace ScriptMachine

/-- The longest name of a function, in bytes: its length has to fit the two bytes of a blob. -/
def maxNameLength : Nat :=
  65535

/-- Whether a host function leaves a result on the stack. -/
inductive NativeKind where
  | function
  | action
  deriving DecidableEq, Inhabited, Repr

/-- A host function that a program calls. -/
structure Import where
  name : String
  arity : UInt8
  deriving DecidableEq, Inhabited, Repr

/-- A script function that the host may call, with the place of its code. -/
structure Export where
  name : String
  arity : UInt8
  address : UInt32
  deriving DecidableEq, Inhabited, Repr

structure Program where
  code : Array UInt8 := #[]
  constants : Slots := #[]
  imports : List Import := []
  exports : List Export := []
  entry : Option UInt32 := none
  deriving DecidableEq, Inhabited, Repr

namespace Program

/-- The first function with a name. -/
def findExport? (p : Program) (name : String) : Option Export :=
  p.exports.find? (·.name == name)

/-- The index under which the code calls a host function. -/
def findImport? (p : Program) (name : String) : Option Nat :=
  p.imports.findIdx? (·.name == name)

/-- Whether a walk over the code comes to an instruction at this place. -/
def isBoundary (p : Program) (place : Nat) : Bool :=
  (Walk.ofCode p.code).instructions.any (·.offset == place)

/-- Whether the byte at a place opens a call frame. -/
def opensFrameAt (p : Program) (place : Nat) : Bool :=
  p.code[place]? == some Opcode.makeFrame.toByte

/-- Equality of programs in which constants are compared as scripts compare them, so that a program
with a NaN constant differs from itself. -/
def same (p q : Program) : Bool :=
  p.code == q.code && p.constants.size == q.constants.size &&
    (p.constants.toList.zip q.constants.toList).all (fun (v, w) => v.same w) &&
    p.imports == q.imports && p.exports == q.exports && p.entry == q.entry

end Program

end ScriptMachine
