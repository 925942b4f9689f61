import ScriptMachine.Machine.Fault

/-!
# One instruction

`Machine.step` carries out one instruction. It never looks at the cycle budget or at the checks around
an instruction. An instruction that fails may have popped some of its operands; the machine it leaves
is part of the outcome.

Of two operands the left one is on top, because operands are compiled right to left.
-/

namespace ScriptMachine

/-- Where a run goes after an instruction. -/
inductive Flow where
  | next
  | jump (place : Nat)
  | done (value : Value)
  deriving DecidableEq, Repr

namespace Machine

/-- A machine operation: it keeps the state also when it fails. -/
abbrev Action := EStateM Fault Machine

/-! ### Working on the parts of a machine -/

@[inline] def onStack {α : Type} (action : Stack.Action α) : Action α := fun ⟨stack, heap, events⟩ =>
  match action stack with
  | .ok a stack => .ok a ⟨stack, heap, events⟩
  | .error e stack => .error (.ofStack e) ⟨stack, heap, events⟩

@[inline] def readStack {α : Type} (read : Stack → Except StackError α) : Action α := fun m =>
  match read m.stack with
  | .ok a => .ok a m
  | .error e => .error (.ofStack e) m

@[inline] def onHeap {α : Type} (action : Heap.Action α) : Action α := fun ⟨stack, heap, events⟩ =>
  match action heap with
  | .ok a heap => .ok a ⟨stack, heap, events⟩
  | .error e heap => .error (.allocationFailed e) ⟨stack, heap, events⟩

def emit (new : List Event) : Action Unit := fun ⟨stack, heap, events⟩ =>
  .ok () ⟨stack, heap, events ++ new⟩

def push (value : Value) : Action Unit :=
  onStack (Stack.push value)

def pop : Action Value :=
  onStack Stack.pop

def drop (count : Nat) : Action Unit :=
  onStack (Stack.drop count)

def peek (n : Nat) : Action Value :=
  readStack (·.peek n)

/-- A value that has to have a type. -/
def expect {α : Type} (op : Opcode) (expected : String) (as : Value → Option α) (value : Value) :
    Action α :=
  match as value with
  | some a => pure a
  | none => throw (.typeMismatch op expected value.typeName)

def popNumber (op : Opcode) : Action Number := do
  expect op "number" Value.number? (← pop)

def popBool (op : Opcode) : Action Bool := do
  expect op "bool" Value.bool? (← pop)

def popArray (op : Opcode) : Action (Address × UInt32) := do
  expect op "array" Value.array? (← pop)

/-! ### Operators -/

/-- Equality as `CMP_EQUAL` sees it: numbers may differ by less than the tolerance. -/
def valuesEqual : Value → Value → Bool
  | .number x, .number y => x.close y
  | v, w => v.same w

def arithmetic (op : Opcode) (x y : Number) : Except Fault Value :=
  match op with
  | .mul => .ok (.number (x.mul y))
  | .div => .ok (.number (x.div y))
  | .add => .ok (.number (x.add y))
  | .sub => .ok (.number (x.sub y))
  | .mod =>
    match x.mod? y with
    | some r => .ok (.number r)
    | none => .error .divisionByZero
  | .cmpLessThan => .ok (.bool (x.less y))
  | .cmpMoreThan => .ok (.bool (y.less x))
  | .cmpLessThanOrEqual => .ok (.bool (x.lessOrSame y))
  | _ => .ok (.bool (y.lessOrSame x))

/-- Replaces two numbers by the result of an operation on them. -/
def numberOperator (op : Opcode) : Action Flow := do
  let x ← popNumber op
  let y ← popNumber op
  match arithmetic op x y with
  | .ok value => push value
  | .error e => throw e
  return .next

/-- Replaces two bools by the result of an operation on them. Both are always looked at. -/
def boolOperator (op : Opcode) (f : Bool → Bool → Bool) : Action Flow := do
  let a ← popBool op
  let b ← popBool op
  push (.bool (f a b))
  return .next

/-- Replaces two values by whether they are equal, or by whether they differ. -/
def compare (equal : Bool) : Action Flow := do
  let a ← pop
  let b ← pop
  push (.bool (valuesEqual a b == equal))
  return .next

/-! ### Calls -/

/-- The return address of a call that the host makes. -/
def hostReturn : Value :=
  .number (Number.ofInt (-1))

/-- An operand that has to fit a byte. -/
def byteOperand (value : UInt32) : Action UInt8 :=
  if value.toNat ≤ 255 then pure value.toUInt8
  else throw (.badOperand .makeFrame "frame size does not fit a byte")

def leaveCall (withValue : Bool) : Action Flow := fun ⟨stack, heap, events⟩ =>
  match stack.returnFromFrame withValue with
  | (.host value, stack) => .ok (.done value) ⟨stack, heap, events⟩
  | (.resume place, stack) => .ok (.jump place) ⟨stack, heap, events⟩

/-- Calls a native with the topmost values, which stay on the stack if it fails. -/
def callNative (program : Program) (env : Environment) (index : UInt32) : Action Flow := do
  match env.get? index.toNat with
  | none => throw (.badImport index)
  | some native =>
    let arguments ← readStack (·.top native.arity.toNat)
    let response := native.respond ⟨arguments, (← get).memory program⟩
    emit (response.notes.map .noted)
    match response.result with
    | .error message => throw (.native native.name message)
    | .ok value =>
      drop native.arity.toNat
      if native.kind = .function then push value
      return .next

/-! ### Arrays -/

/-- Allocates an array with the live stack as roots. -/
def allocate (count : Nat) : Action Address := fun m =>
  let roots := m.stack.live
  onHeap (Heap.allocate count roots) m

/-- Makes an array of the topmost values, whose number is on top of them. -/
def makeArray : Action Flow := do
  let size ← popNumber .makeArray
  if !size.isCount then
    throw (.badOperand .makeArray "element count must be a non-negative integer")
  let count := size.toCount
  let values ← readStack (·.top count)
  let address ← allocate count
  let _ ← onHeap (Heap.copyInto values address count)
  drop count
  push (.array address (.ofNat count))
  return .next

/-- Pushes the next element of the iterator on top, or drops the iterator and jumps. -/
def iterNext (program : Program) (exit : UInt32) : Action Flow := do
  let (current, remaining) ← expect .iterNext "iterator" Value.iterator? (← peek 0)
  if remaining = 0 then
    drop 1
    return .jump exit.toNat
  match ((← get).memory program).read? current with
  | none => throw (.badAddress current)
  | some element =>
    onStack (Stack.set 0 (.iterator ((current.advance? 1).getD .null) (remaining - 1)))
    push element
    return .next

/-! ### Instructions -/

/-- Carries out an operation that goes on with the next instruction. -/
@[inline] def thenNext (action : Action Unit) : Action Flow := do
  action
  return .next

def step (program : Program) (env : Environment) (i : Instruction) : Action Flow :=
  match i.op with
  | .halt => throw .halted
  | .and => boolOperator .and (· && ·)
  | .or => boolOperator .or (· || ·)
  | .not => do
    let a ← popBool .not
    thenNext (push (.bool !a))
  | .mul => numberOperator .mul
  | .div => numberOperator .div
  | .mod => numberOperator .mod
  | .add => numberOperator .add
  | .sub => numberOperator .sub
  | .neg => do
    let x ← popNumber .neg
    thenNext (push (.number x.neg))
  | .dup1 => do
    let top ← peek 0
    thenNext (push top)
  | .dup2 => do
    let below ← peek 1
    let top ← peek 0
    push below
    thenNext (push top)
  | .rot2 => do
    let a ← pop
    let b ← pop
    push a
    thenNext (push b)
  | .cmpEqual => compare true
  | .cmpNotEqual => compare false
  | .cmpLessThan => numberOperator .cmpLessThan
  | .cmpMoreThan => numberOperator .cmpMoreThan
  | .cmpLessThanOrEqual => numberOperator .cmpLessThanOrEqual
  | .cmpMoreThanOrEqual => numberOperator .cmpMoreThanOrEqual
  | .pushValue =>
    match program.constants[i.first.toNat]? with
    | some value => thenNext (push value)
    | none => throw (.badConstant i.first)
  | .pop1 => thenNext (drop 1)
  | .pop2 => thenNext (drop 2)
  | .jump => return .jump i.first.toNat
  | .jumpIfFalse => do
    let condition ← popBool .jumpIfFalse
    return if condition then .next else .jump i.first.toNat
  | .exit => return .done (.number (Number.ofInt i.first.toInt32.toInt))
  | .call => do
    push (.number (Number.ofNat i.nextOffset))
    return .jump i.first.toNat
  | .entryPoint => do
    if program.opensFrameAt i.first.toNat then push hostReturn
    return .jump i.first.toNat
  | .makeFrame => do
    let arguments ← byteOperand i.first
    let locals ← byteOperand i.second
    thenNext (onStack (Stack.makeFrame arguments locals))
  | .returnNothing => leaveCall false
  | .returnValue => leaveCall true
  | .storeLocal => do
    let value ← pop
    thenNext (onStack (Stack.store i.first.toNat value))
  | .loadLocal => do
    let value ← readStack (·.load i.first.toNat)
    thenNext (push value)
  | .print => do
    let value ← pop
    let line := ((← get).memory program).render value
    thenNext (emit [.printed line])
  | .makeArray => makeArray
  | .arrayLength => do
    let (_, length) ← popArray .arrayLength
    thenNext (push (.number (Number.ofNat length.toNat)))
  | .makeIter => do
    let (address, length) ← popArray .makeIter
    thenNext (push (.iterator address length))
  | .iterNext => iterNext program i.first
  | .callNative => callNative program env i.first

end Machine

end ScriptMachine
