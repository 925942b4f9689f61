import ScriptMachine.Machine.Fault
import ScriptMachine.Script

/-!
# What expressions mean

Literals, locals, operators and `len` compute a value from the locals of the running call and change
nothing. Here their values are computed from the tree, with no stack and no code. The right operand of
an operator comes before the left one, both are always evaluated, and the type of the left one is
looked at first.
-/

namespace ScriptMachine

/-- The value as a type that an operation asks for. -/
def Value.require {α : Type} (op : Opcode) (type : String) (as : Value → Option α) (value : Value) :
    Except Fault α :=
  match as value with
  | some a => .ok a
  | none => .error (.typeMismatch op type value.typeName)

/-- How a fault of an operation shows. With the checks on, an operand of a wrong type is found by the
check before the instruction at a place. -/
def Fault.shownAt (validate : Bool) (place : Nat) : Fault → Fault
  | .typeMismatch op expected found =>
    if validate then .validation ⟨place, op, .operandType expected found⟩
    else .typeMismatch op expected found
  | fault => fault

/-- Two values agree when they are numbers that differ by less than the tolerance, or the same. -/
def Value.agrees : Value → Value → Bool
  | .number x, .number y => (x.sub y).abs.less Number.tolerance
  | v, w => v == w

namespace UnaryOp

def apply (op : UnaryOp) (value : Value) : Except Fault Value :=
  match op with
  | .neg => do
    let x ← value.require .neg "number" Value.number?
    return .number x.neg
  | .not => do
    let a ← value.require .not "bool" Value.bool?
    return .bool (!a)

end UnaryOp

namespace BinaryOp

def onNumbers (op : BinaryOp) (left right : Value) (f : Number → Number → Except Fault Value) :
    Except Fault Value := do
  let x ← left.require op.opcode "number" Value.number?
  let y ← right.require op.opcode "number" Value.number?
  f x y

def onBools (op : BinaryOp) (left right : Value) (f : Bool → Bool → Bool) : Except Fault Value := do
  let a ← left.require op.opcode "bool" Value.bool?
  let b ← right.require op.opcode "bool" Value.bool?
  return .bool (f a b)

def apply (op : BinaryOp) (left right : Value) : Except Fault Value :=
  match op with
  | .add => op.onNumbers left right fun x y => .ok (.number (x.add y))
  | .sub => op.onNumbers left right fun x y => .ok (.number (x.sub y))
  | .mul => op.onNumbers left right fun x y => .ok (.number (x.mul y))
  | .div => op.onNumbers left right fun x y => .ok (.number (x.div y))
  | .mod => op.onNumbers left right fun x y =>
    if y.toInt32 = 0 then .error .divisionByZero
    else .ok (.number (.ofInt (Int.tmod x.toInt32 y.toInt32)))
  | .less => op.onNumbers left right fun x y => .ok (.bool (x.less y))
  | .greater => op.onNumbers left right fun x y => .ok (.bool (y.less x))
  | .lessEqual => op.onNumbers left right fun x y => .ok (.bool (x.lessOrSame y))
  | .greaterEqual => op.onNumbers left right fun x y => .ok (.bool (y.lessOrSame x))
  | .and => op.onBools left right (· && ·)
  | .or => op.onBools left right (· || ·)
  | .equal => .ok (.bool (left.agrees right))
  | .notEqual => .ok (.bool (!left.agrees right))

end BinaryOp

def Value.count (value : Value) : Except Fault Value := do
  let (_, length) ← value.require .arrayLength "array" Value.array?
  return .number (.ofNat length.toNat)

/-- The array of a text literal: the first constant that reads as the text. -/
def Memory.literal (memory : Memory) (text : String) : Value :=
  (memory.constants.find? fun v => memory.text? v == some text).getD .nothing

/-- The nodes that compute a value and do nothing else. -/
inductive Expression where
  | number (span : Span) (value : Number)
  | bool (span : Span) (value : Bool)
  | text (span : Span) (value : String)
  | read (span : Span) (name : String)
  | unary (span : Span) (op : UnaryOp) (inner : Expression)
  | binary (span : Span) (op : BinaryOp) (left right : Expression)
  | length (span : Span) (inner : Expression)

namespace Expression

def node : Expression → Node
  | .number span value => .number span value
  | .bool span value => .bool span value
  | .text span value => .text span value
  | .read span name => .read span name
  | .unary span op inner => .unary span op inner.node
  | .binary span op left right => .binary span op left.node right.node
  | .length span inner => .call span "len" [inner.node]

/-- The value of an expression, or the first fault on the way to it. -/
def evaluate (memory : Memory) (locals : String → Value) : Expression → Except Fault Value
  | .number _ value => .ok (.number value)
  | .bool _ value => .ok (.bool value)
  | .text _ value => .ok (memory.literal value)
  | .read _ name => .ok (locals name)
  | .unary _ op inner => do
    let value ← inner.evaluate memory locals
    op.apply value
  | .binary _ op left right => do
    let second ← right.evaluate memory locals
    let first ← left.evaluate memory locals
    op.apply first second
  | .length _ inner => do
    let value ← inner.evaluate memory locals
    value.count

/-- How many values wait on the stack at once, besides the one that is being computed. -/
def waiting : Expression → Nat
  | .number _ _ | .bool _ _ | .text _ _ | .read _ _ => 0
  | .unary _ _ inner | .length _ inner => inner.waiting
  | .binary _ _ left right => max right.waiting (left.waiting + 1)

def texts : Expression → List String
  | .number _ _ | .bool _ _ | .read _ _ => []
  | .text _ value => [value]
  | .unary _ _ inner | .length _ inner => inner.texts
  | .binary _ _ left right => left.texts ++ right.texts

end Expression

end ScriptMachine
