/-!
# Operation codes

The instruction set. An instruction is encoded as one byte for its operation, which is the position
of the operation in the list below, and four bytes for each operand.
-/

namespace ScriptMachine

/-- The operations of the machine, in the order of their codes. -/
inductive Opcode where
  | halt
  | and
  | or
  | not
  | mul
  | div
  | mod
  | add
  | sub
  | neg
  | dup1
  | dup2
  | rot2
  | cmpEqual
  | cmpNotEqual
  | cmpLessThan
  | cmpMoreThan
  | cmpLessThanOrEqual
  | cmpMoreThanOrEqual
  | pushValue
  | pop1
  | pop2
  | jump
  | jumpIfFalse
  | exit
  | call
  | entryPoint
  | makeFrame
  | returnNothing
  | returnValue
  | storeLocal
  | loadLocal
  | print
  | makeArray
  | arrayLength
  | makeIter
  | iterNext
  | callNative
  deriving DecidableEq, Inhabited, Repr

/-- What an operand stands for: an index into the constants, a place in the code, or a plain number. -/
inductive OperandKind where
  | constant
  | address
  | numeric
  deriving DecidableEq, Repr

namespace Opcode

/-- All operations, in the order of their codes. -/
def all : List Opcode :=
  [.halt, .and, .or, .not, .mul, .div, .mod, .add, .sub, .neg, .dup1, .dup2, .rot2, .cmpEqual,
    .cmpNotEqual, .cmpLessThan, .cmpMoreThan, .cmpLessThanOrEqual, .cmpMoreThanOrEqual, .pushValue,
    .pop1, .pop2, .jump, .jumpIfFalse, .exit, .call, .entryPoint, .makeFrame, .returnNothing,
    .returnValue, .storeLocal, .loadLocal, .print, .makeArray, .arrayLength, .makeIter, .iterNext,
    .callNative]

def count : Nat :=
  all.length

def toByte (op : Opcode) : UInt8 :=
  .ofNat op.ctorIdx

/-- `all` with random access, for decoding. -/
def table : Array Opcode :=
  all.toArray

def ofByte? (byte : UInt8) : Option Opcode :=
  table[byte.toNat]?

def name : Opcode → String
  | .halt => "HALT"
  | .and => "AND"
  | .or => "OR"
  | .not => "NOT"
  | .mul => "MUL"
  | .div => "DIV"
  | .mod => "MOD"
  | .add => "ADD"
  | .sub => "SUB"
  | .neg => "NEG"
  | .dup1 => "DUP_1"
  | .dup2 => "DUP_2"
  | .rot2 => "ROT_2"
  | .cmpEqual => "CMP_EQUAL"
  | .cmpNotEqual => "CMP_NOT_EQUAL"
  | .cmpLessThan => "CMP_LESS_THAN"
  | .cmpMoreThan => "CMP_MORE_THAN"
  | .cmpLessThanOrEqual => "CMP_LESS_THAN_OR_EQUAL"
  | .cmpMoreThanOrEqual => "CMP_MORE_THAN_OR_EQUAL"
  | .pushValue => "PUSH_VALUE"
  | .pop1 => "POP_1"
  | .pop2 => "POP_2"
  | .jump => "JUMP"
  | .jumpIfFalse => "JUMP_IF_FALSE"
  | .exit => "EXIT"
  | .call => "CALL"
  | .entryPoint => "ENTRY_POINT"
  | .makeFrame => "MAKE_FRAME"
  | .returnNothing => "RETURN_NOTHING"
  | .returnValue => "RETURN_VALUE"
  | .storeLocal => "STORE_LOCAL"
  | .loadLocal => "LOAD_LOCAL"
  | .print => "PRINT"
  | .makeArray => "MAKE_ARRAY"
  | .arrayLength => "ARRAY_LENGTH"
  | .makeIter => "MAKE_ITER"
  | .iterNext => "ITER_NEXT"
  | .callNative => "CALL_NATIVE"

def ofName? (name : String) : Option Opcode :=
  all.find? (·.name == name)

/-- The operands that an operation takes, in order. -/
def operands : Opcode → List OperandKind
  | .pushValue => [.constant]
  | .jump | .jumpIfFalse | .call | .entryPoint | .iterNext => [.address]
  | .exit | .storeLocal | .loadLocal | .callNative => [.numeric]
  | .makeFrame => [.numeric, .numeric]
  | _ => []

def operandCount (op : Opcode) : Nat :=
  op.operands.length

/-- The number of bytes of an encoded instruction. -/
def encodedLength (op : Opcode) : Nat :=
  1 + 4 * op.operandCount

/-- Whether the operand is a place in the code. -/
def hasTarget (op : Opcode) : Bool :=
  op.operands.contains .address

end Opcode

end ScriptMachine
