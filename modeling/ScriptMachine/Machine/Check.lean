import ScriptMachine.Machine.Fault

/-!
# Checks around an instruction

A machine may be asked to check every instruction against the stack before it runs and to look at the
stack afterwards. The checks only read. What they accept runs as it does without them.
-/

namespace ScriptMachine.Check

abbrev Outcome := Except ViolationCause Unit

/-- The stack holds at least `needed` values. -/
def depth (stack : Stack) (needed : Nat) : Outcome :=
  if stack.depth < needed then .error (.stackDepth needed stack.depth) else .ok ()

/-- The value `n` slots below the top passes a test. -/
def typed (stack : Stack) (n : Nat) (expected : String) (test : Value → Bool) : Outcome := do
  depth stack (n + 1)
  let value := Slots.read stack.slots (stack.depth - 1 - n)
  if test value then .ok () else .error (.operandType expected value.typeName)

def number (stack : Stack) (n : Nat) : Outcome :=
  typed stack n "number" (·.number?.isSome)

def bool (stack : Stack) (n : Nat) : Outcome :=
  typed stack n "bool" (·.bool?.isSome)

/-- An operand fits a byte. -/
def byte (value : UInt32) : Outcome :=
  if 255 < value.toNat then .error (.operandTooLarge value) else .ok ()

/-- A local belongs to the running call. -/
def localSlot (stack : Stack) (index : UInt32) : Outcome :=
  match stack.currentFrame with
  | none => .error .noFrame
  | some frame =>
    if frame.reserved ≤ index.toNat then .error (.localOutOfRange index frame.reserved) else .ok ()

/-- An operand names something that exists. -/
def operand (program : Program) (kind : OperandKind) (value : UInt32) : Outcome :=
  match kind with
  | .address => if program.code.size ≤ value.toNat then .error (.addressOutOfRange value) else .ok ()
  | .constant =>
    if program.constants.size ≤ value.toNat then .error (.constantOutOfRange value) else .ok ()
  | .numeric => .ok ()

def operands (program : Program) (i : Instruction) : Outcome :=
  (i.op.operands.zip [i.first, i.second]).forM fun (kind, value) => operand program kind value

/-- The number on top counts values that are on the stack. -/
def elementCount (stack : Stack) : Outcome := do
  number stack 0
  match Slots.read stack.slots (stack.depth - 1) with
  | .number x =>
    if x.isCount then depth stack (x.toCount + 1) else .error (.operandType "element count" "number")
  | _ => .ok ()

/-- What has to hold of the stack before an operation. -/
def operation (stack : Stack) (program : Program) (env : Environment) (i : Instruction) : Outcome :=
  match i.op with
  | .and | .or => do
    bool stack 0
    bool stack 1
  | .not | .jumpIfFalse => bool stack 0
  | .mul | .div | .mod | .add | .sub | .cmpLessThan | .cmpMoreThan | .cmpLessThanOrEqual
  | .cmpMoreThanOrEqual => do
    number stack 0
    number stack 1
  | .neg => number stack 0
  | .cmpEqual | .cmpNotEqual | .dup2 | .rot2 | .pop2 => depth stack 2
  | .dup1 | .pop1 | .print => depth stack 1
  | .storeLocal => do
    depth stack 1
    localSlot stack i.first
  | .loadLocal => localSlot stack i.first
  | .call =>
    if program.opensFrameAt i.first.toNat then .ok () else .error (.callTargetNotFrame i.first)
  | .makeFrame => do
    byte i.first
    byte i.second
    typed stack 0 "return address" (·.number?.isSome)
    depth stack (i.first.toNat + 1)
  | .makeArray => elementCount stack
  | .arrayLength | .makeIter => typed stack 0 "array" (·.array?.isSome)
  | .iterNext => typed stack 0 "iterator" (·.iterator?.isSome)
  | .callNative =>
    match env.get? i.first.toNat with
    | some native => depth stack native.arity.toNat
    | none => .error (.importOutOfRange i.first)
  | .halt | .pushValue | .jump | .exit | .entryPoint | .returnNothing | .returnValue => .ok ()

def before (stack : Stack) (program : Program) (env : Environment) (i : Instruction) : Outcome := do
  operands program i
  operation stack program env i

def after (stack : Stack) : Outcome :=
  if stack.capacity < stack.depth then .error (.stackOutOfBounds stack.depth)
  else
    match stack.frame with
    | none => .ok ()
    | some index =>
      if index < stack.depth && (Slots.read stack.slots index).isFrame then .ok ()
      else .error (.frameCorrupted index)

def fault (i : Instruction) (cause : ViolationCause) : Fault :=
  .validation ⟨i.offset, i.op, cause⟩

end ScriptMachine.Check
