import ScriptMachine.Machine

/-!
# How a run can fail

Every way in which a run ends without a value, with its message and with the number that hosts use
for it. A `Violation` is found by the checks around an instruction, the other faults by the
instruction itself.
-/

namespace ScriptMachine

/-- What an instruction would have broken. -/
inductive ViolationCause where
  | stackDepth (needed depth : Nat)
  | operandType (expected found : String)
  | addressOutOfRange (address : UInt32)
  | callTargetNotFrame (address : UInt32)
  | constantOutOfRange (index : UInt32)
  | importOutOfRange (index : UInt32)
  | localOutOfRange (index : UInt32) (count : Nat)
  | noFrame
  | operandTooLarge (value : UInt32)
  | frameCorrupted (index : Nat)
  | stackOutOfBounds (depth : Nat)
  deriving DecidableEq, Repr

namespace ViolationCause

def message : ViolationCause → String
  | .stackDepth needed depth =>
    "needs " ++ toString needed ++ " stack values, " ++ toString depth ++ " live"
  | .operandType expected found => "expected " ++ expected ++ ", found " ++ found
  | .addressOutOfRange address => "target @" ++ toString address.toNat ++ " is outside the code"
  | .callTargetNotFrame address => "call target @" ++ toString address.toNat ++ " is not MAKE_FRAME"
  | .constantOutOfRange index => "constant #" ++ toString index.toNat ++ " does not exist"
  | .importOutOfRange index => "import " ++ toString index.toNat ++ " is not bound"
  | .localOutOfRange index count =>
    "local " ++ toString index.toNat ++ " outside the frame's " ++ toString count ++ " slots"
  | .noFrame => "no active frame"
  | .operandTooLarge value => "operand " ++ toString value.toNat ++ " does not fit a byte"
  | .frameCorrupted index => "slot " ++ toString index ++ " should hold a frame"
  | .stackOutOfBounds depth => "stack depth " ++ toString depth ++ " exceeds capacity"

/-- The depth that a check asked for fits a 64-bit word. Depths are counted without a bound here. A
machine that counts them in words has no outcome where one does not fit. -/
def fitsWord : ViolationCause → Bool
  | .stackDepth needed _ => decide (needed ≤ 0xffffffffffffffff)
  | _ => true

end ViolationCause

/-- What was found wrong around an instruction. -/
structure Violation where
  place : Nat
  op : Opcode
  cause : ViolationCause
  deriving DecidableEq, Repr

namespace Violation

def message (v : Violation) : String :=
  "validation failed at #" ++ toString v.place ++ " " ++ v.op.name ++ ": " ++ v.cause.message

end Violation

inductive CallError where
  | notFound (name : String)
  | badAddress (name : String) (address : UInt32)
  | notAFrame (name : String) (address : UInt32)
  | argumentCount (name : String) (expected : UInt8) (found : Nat)
  deriving DecidableEq, Repr

namespace CallError

def message : CallError → String
  | .notFound name => "no exported function '" ++ name ++ "'"
  | .badAddress name address =>
    "'" ++ name ++ "' points outside the program (@" ++ toString address.toNat ++ ")"
  | .notAFrame name address =>
    "'" ++ name ++ "' at @" ++ toString address.toNat ++ " does not start with MAKE_FRAME"
  | .argumentCount name expected found =>
    "'" ++ name ++ "' takes " ++ toString expected.toNat ++ " arguments, " ++ toString found ++ " given"

end CallError

/-- Why a run ended without a value. -/
inductive Fault where
  | halted
  | unknownOpcode (place : Nat) (byte : UInt8)
  | truncated (place : Nat) (op : Opcode)
  | pcOutOfBounds (place : Nat)
  | cycleLimit (limit : Nat)
  | allocationFailed (error : HeapError)
  | validation (violation : Violation)
  | envNotReady
  | stackOverflow
  | stackUnderflow
  | frame (error : StackError)
  | typeMismatch (op : Opcode) (expected found : String)
  | badOperand (op : Opcode) (reason : String)
  | badAddress (address : Address)
  | badConstant (index : UInt32)
  | badImport (index : UInt32)
  | divisionByZero
  | native (name message : String)
  | call (error : CallError)
  deriving DecidableEq, Repr

namespace Fault

def message : Fault → String
  | .halted => "execution halted"
  | .unknownOpcode place byte =>
    "unknown opcode 0x" ++ hexText 2 byte.toNat ++ " at #" ++ toString place
  | .truncated place op => op.name ++ " at #" ++ toString place ++ " is missing operands"
  | .pcOutOfBounds place => "pc #" ++ toString place ++ " is past the end of the code"
  | .cycleLimit limit => "cycle limit of " ++ toString limit ++ " reached"
  | .allocationFailed error => "allocation failed: " ++ error.message
  | .validation violation => violation.message
  | .envNotReady => "environment is not bound to this program"
  | .stackOverflow => "stack overflow"
  | .stackUnderflow => "stack underflow"
  | .frame error => error.message
  | .typeMismatch op expected found => op.name ++ " expected " ++ expected ++ ", found " ++ found
  | .badOperand op reason => op.name ++ ": " ++ reason
  | .badAddress address => "cannot read address " ++ address.text
  | .badConstant index => "constant #" ++ toString index.toNat ++ " does not exist"
  | .badImport index => "import " ++ toString index.toNat ++ " is not bound"
  | .divisionByZero => "modulo by zero"
  | .native name message => "native '" ++ name ++ "' failed: " ++ message
  | .call error => error.message

/-- The number that stands for a fault where a host expects one number for every outcome. -/
def sentinel : Fault → Int
  | .halted => -1002
  | .unknownOpcode _ _ | .truncated _ _ | .pcOutOfBounds _ => -1003
  | .cycleLimit _ => -1004
  | .allocationFailed _ => -1005
  | .envNotReady => -1099
  | _ => -9999

def ofStack : StackError → Fault
  | .overflow => .stackOverflow
  | .underflow => .stackUnderflow
  | error => .frame error

def ofDecode : DecodeError → Fault
  | .unknownOpcode place byte => .unknownOpcode place byte
  | .truncated place op => .truncated place op

end Fault

end ScriptMachine
