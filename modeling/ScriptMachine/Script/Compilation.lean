import ScriptMachine.ConstantPool
import ScriptMachine.Program
import ScriptMachine.Script.Error

/-!
# The state of a compilation

What a compilation knows while it goes through a script: the constants so far, the functions and host
functions by name, the locals of the function at hand, the calls to names that are not known yet, and
the faults found. Code is drafted with symbolic calls and with open exits from loops, both of which
are settled later.
-/

namespace ScriptMachine

/-- One instruction of drafted code. -/
inductive Item where
  | op (draft : Draft)
  /-- The jump out of a loop whose end is not known yet. -/
  | leave
  /-- A call of a function by name. -/
  | call (name : String)
  deriving DecidableEq, Repr

namespace Item

def plain (op : Opcode) : Item :=
  .op ⟨op, 0, 0⟩

def withOperand (op : Opcode) (operand : Nat) : Item :=
  .op ⟨op, .ofNat operand, 0⟩

/-- Lets an open exit lead to the end of its loop. -/
def leaveTo (exit : Nat) : Item → Item
  | .leave => withOperand .jump exit
  | item => item

end Item

/-- A function of the script: how many parameters it has, and the position of its code. -/
structure Function where
  name : String
  arity : Nat
  start : Nat
  deriving DecidableEq, Repr

/-- A host function in the import table. Its kind is unknown if only its signature is given. -/
structure KnownImport where
  entry : Import
  kind : Option NativeKind
  deriving DecidableEq, Repr

/-- A host function that becomes an import with the first call to it. -/
structure Offer where
  name : String
  arity : UInt8
  kind : NativeKind
  deriving DecidableEq, Repr

/-- A call to a name that was not known at the call. -/
structure PendingCall where
  name : String
  arguments : Nat
  span : Span
  deriving DecidableEq, Repr

structure Compilation where
  code : List Item := []
  constants : ConstantPool := .empty
  functions : List Function := []
  imports : List KnownImport := []
  offered : List Offer := []
  locals : List String := []
  pending : List PendingCall := []
  errors : List CompileError := []
  deriving DecidableEq, Inhabited, Repr

/-- The functions that need no declaration, with their arity and operation. -/
def intrinsics : List (String × Nat × Opcode) :=
  [("print", 1, .print), ("len", 1, .arrayLength)]

def intrinsic? (name : String) : Option (Nat × Opcode) :=
  intrinsics.lookup name

/-- The function that runs when a program is executed. -/
def entryFunction : String :=
  "main"

namespace Compilation

/-- A compilation step: it keeps the state also when it fails. -/
abbrev Action := EStateM CompileError Compilation

def report (error : CompileError) (c : Compilation) : Compilation :=
  { c with errors := c.errors ++ [error] }

def fail {α : Type} (span : Span) (fault : CompileFault) : Action α :=
  throw ⟨fault, some span⟩

/-! ### Names -/

/-- Whether a name stands for a function of any sort. -/
def isDeclared (c : Compilation) (name : String) : Bool :=
  (intrinsic? name).isSome
    || c.imports.any (·.entry.name == name)
    || c.offered.any (·.name == name)
    || c.functions.any (·.name == name)

def addImport (name : String) (arity : Nat) (span : Option Span) : Action Unit := fun c =>
  if c.isDeclared name then .error ⟨.duplicateNative name, span⟩ c
  else if maxNameLength < name.utf8ByteSize then .error ⟨.nameTooLong name.utf8ByteSize, span⟩ c
  else if 255 < arity then .error ⟨.tooManyLocals name, span⟩ c
  else .ok () { c with imports := c.imports ++ [⟨⟨name, .ofNat arity⟩, none⟩] }

/-- Makes a host function part of the program. -/
def declareNative (name : String) (arity : UInt8) : Action Unit :=
  addImport name arity.toNat none

/-- Makes a host function callable. It becomes part of the program with the first call to it. -/
def offerNative (name : String) (arity : UInt8) (kind : NativeKind) : Action Unit := fun c =>
  if c.isDeclared name then .error ⟨.duplicateNative name, none⟩ c
  else if maxNameLength < name.utf8ByteSize then .error ⟨.nameTooLong name.utf8ByteSize, none⟩ c
  else .ok () { c with offered := c.offered ++ [⟨name, arity, kind⟩] }

def findImport? (c : Compilation) (name : String) : Option (Nat × KnownImport) :=
  match c.imports.findIdx? (·.entry.name == name) with
  | none => none
  | some index => c.imports[index]?.map (index, ·)

/-- Turns an offered host function into an import, if there is one of that name. -/
def acceptOffer (name : String) (c : Compilation) : Compilation :=
  match c.offered.find? (·.name == name) with
  | none => c
  | some offer =>
    { c with
      offered := c.offered.filter (·.name != name)
      imports := c.imports ++ [⟨⟨offer.name, offer.arity⟩, some offer.kind⟩] }

/-- The import of a name, after accepting an offer for it. -/
def resolveImport (name : String) : Action (Option (Nat × KnownImport)) := fun c =>
  match c.findImport? name with
  | some found => .ok (some found) c
  | none =>
    let c := c.acceptOffer name
    .ok (c.findImport? name) c

def findFunction? (c : Compilation) (name : String) : Option Function :=
  c.functions.find? (·.name == name)

/-! ### Locals -/

/-- The slot of a local, which comes into being unless it is there already. -/
def declareLocal (name : String) : Action Nat := fun c =>
  match c.locals.findIdx? (· == name) with
  | some slot => .ok slot c
  | none => .ok c.locals.length { c with locals := c.locals ++ [name] }

/-- The slot of a local that is there. -/
def findLocal (span : Span) (name : String) : Action Nat := fun c =>
  match c.locals.findIdx? (· == name) with
  | some slot => .ok slot c
  | none => .error ⟨.unknownVariable name, some span⟩ c

/-! ### Constants -/

def addConstant (span : Span) (insert : ConstantPool → Option (Nat × ConstantPool)) : Action Nat :=
  fun c =>
    match insert c.constants with
    | some (index, constants) => .ok index { c with constants := constants }
    | none => .error ⟨.outOfMemory, some span⟩ c

end Compilation

end ScriptMachine
