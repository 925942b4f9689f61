import ScriptMachine.Memory
import ScriptMachine.Program
import ScriptMachine.Text.Quoted

/-!
# Host functions

A native is a function of the host that scripts call by index. It is a function of its arguments and
of the memory as it is at the call, and besides a result it may leave notes for the host. A registry
holds natives by name. Binding a program to a registry gives an environment, which has one native for
every import of the program, in the same order.
-/

namespace ScriptMachine

/-- What a native is given: its arguments in order, and the memory that they refer to. -/
structure Invocation where
  arguments : List Value
  memory : Memory

namespace Invocation

/-- An argument that has to be a number. -/
def number (call : Invocation) (index : Nat) : Except String Number :=
  match call.arguments[index]?.bind Value.number? with
  | some x => .ok x
  | none => .error ("argument " ++ toString index ++ " is not a number")

/-- An argument that has to be a text. -/
def text (call : Invocation) (index : Nat) : Except String String :=
  match call.arguments[index]?.bind call.memory.text? with
  | some text => .ok text
  | none => .error ("argument " ++ toString index ++ " is not a string")

end Invocation

/-- What a native answers: a value or a reason why there is none, and notes for the host. -/
structure Response where
  result : Except String Value
  notes : List String := []

/-- A function of the host. The result of an action is not handed to the script. -/
structure Native where
  name : String
  arity : UInt8
  kind : NativeKind
  respond : Invocation → Response

namespace Native

/-- The native as hosts list it. -/
def text (native : Native) : String :=
  let kind :=
    match native.kind with
    | .function => "Function"
    | .action => "Action"
  "NativeFunction \x7b name: " ++ Text.quoted native.name ++ ", arity: "
    ++ toString native.arity.toNat ++ ", kind: " ++ kind ++ ", .. \x7d"

end Native

/-- The natives of a host, at most one of each name. -/
structure Registry where
  natives : List Native := []

namespace Registry

/-- Adds a native, in place of an earlier one of the same name. -/
def insert (registry : Registry) (native : Native) : Registry :=
  ⟨registry.natives.filter (·.name != native.name) ++ [native]⟩

def find? (registry : Registry) (name : String) : Option Native :=
  registry.natives.find? (·.name == name)

def size (registry : Registry) : Nat :=
  registry.natives.length

end Registry

/-- The natives that the imports of a program stand for, in the order of the imports. -/
structure Environment where
  natives : Array Native := #[]

inductive BindProblem where
  | missing (name : String)
  | arity (name : String) (expected registered : UInt8)
  deriving DecidableEq, Repr

namespace BindProblem

def name : BindProblem → String
  | .missing name => name
  | .arity name _ _ => name

def message : BindProblem → String
  | .missing name => " '" ++ name ++ "' is not registered;"
  | .arity name expected registered =>
    " '" ++ name ++ "' is called with " ++ toString expected.toNat ++ " arguments but takes "
      ++ toString registered.toNat ++ ";"

end BindProblem

/-- All imports that cannot be bound, in their order. -/
structure BindError where
  problems : List BindProblem
  deriving DecidableEq, Repr

namespace BindError

def message (e : BindError) : String :=
  "cannot bind imports:" ++ String.join (e.problems.map BindProblem.message)

end BindError

namespace Environment

def bindImport (registry : Registry) (entry : Import) : Except BindProblem Native :=
  match registry.find? entry.name with
  | none => .error (.missing entry.name)
  | some native =>
    if native.arity = entry.arity then .ok native
    else .error (.arity entry.name entry.arity native.arity)

def problem? (registry : Registry) (entry : Import) : Option BindProblem :=
  match bindImport registry entry with
  | .ok _ => none
  | .error problem => some problem

/-- Binds a program to a registry. All imports are looked at, so that all problems are reported. -/
def bind (registry : Registry) (program : Program) : Except BindError Environment :=
  match program.imports.filterMap (problem? registry) with
  | [] => .ok ⟨(program.imports.filterMap fun entry => (bindImport registry entry).toOption).toArray⟩
  | problems => .error ⟨problems⟩

def get? (env : Environment) (index : Nat) : Option Native :=
  env.natives[index]?

/-- Whether the environment has the natives that a program asks for, going by their names. -/
def isReady (env : Environment) (program : Program) : Bool :=
  env.natives.toList.map Native.name == program.imports.map Import.name

end Environment

end ScriptMachine
