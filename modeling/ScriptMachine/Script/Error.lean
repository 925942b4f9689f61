import ScriptMachine.Assembly
import ScriptMachine.Script

/-!
# What is wrong with a script

The causes for which a script is refused, each with the place that it was found at. One compilation
reports all it finds, in the order of discovery.
-/

namespace ScriptMachine

inductive CompileFault where
  | unknownFunction (name : String)
  | unknownVariable (name : String)
  | duplicateFunction (name : String)
  | duplicateNative (name : String)
  | duplicateLocal (name : String)
  | nestedFunction (name : String)
  | arityMismatch (name : String) (expected found : Nat)
  | tooManyLocals (name : String)
  | nameTooLong (bytes : Nat)
  | invalidAssignTarget
  | breakOutsideLoop
  | statementOutsideFunction
  | outOfMemory
  | link (error : LinkError)
  deriving DecidableEq, Repr

namespace CompileFault

def message : CompileFault → String
  | .unknownFunction name => "call to undeclared function '" ++ name ++ "'"
  | .unknownVariable name => "unknown variable '" ++ name ++ "'"
  | .duplicateFunction name => "function '" ++ name ++ "' is already declared"
  | .duplicateNative name => "native function '" ++ name ++ "' is already declared"
  | .duplicateLocal name => "variable '" ++ name ++ "' is already declared"
  | .nestedFunction name => "'" ++ name ++ "' is declared inside another function"
  | .arityMismatch name expected found =>
    "'" ++ name ++ "' takes " ++ toString expected ++ " arguments, " ++ toString found ++ " given"
  | .tooManyLocals name => "'" ++ name ++ "' has more than 255 arguments or locals"
  | .nameTooLong bytes => "name of " ++ toString bytes ++ " bytes exceeds the 65535 byte limit"
  | .invalidAssignTarget => "left side of an assignment must be a variable"
  | .breakOutsideLoop => "break outside of a loop"
  | .statementOutsideFunction => "statement outside of a function"
  | .outOfMemory => "out of memory"
  | .link error => error.message

end CompileFault

/-- A fault and where it is, if it is at a place of the script. -/
structure CompileError where
  fault : CompileFault
  span : Option Span
  deriving DecidableEq, Repr

namespace CompileError

def message (e : CompileError) : String :=
  match e.span with
  | some span => span.text ++ ": " ++ e.fault.message
  | none => e.fault.message

end CompileError

/-- All faults of one compilation, in the order of discovery. -/
structure Diagnostics where
  errors : List CompileError
  deriving DecidableEq, Repr

namespace Diagnostics

def message (d : Diagnostics) : String :=
  "\n".intercalate (d.errors.map CompileError.message)

end Diagnostics

end ScriptMachine
