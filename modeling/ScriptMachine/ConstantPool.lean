import ScriptMachine.Slots
import ScriptMachine.Value.Packed

/-!
# The constant pool

Constants are collected while a script is compiled. The pool only grows, and a value that is already
there, bit for bit, is not added again. An array constant is a run of element constants followed by
one array value that points at the run; two arrays of the same elements share that value.
-/

namespace ScriptMachine

/-- The constants of a program under construction. -/
structure ConstantPool where
  values : Slots
  deriving DecidableEq, Inhabited, Repr

namespace ConstantPool

def empty : ConstantPool :=
  ⟨#[]⟩

def size (pool : ConstantPool) : Nat :=
  pool.values.size

def get? (pool : ConstantPool) (index : Nat) : Option Value :=
  pool.values[index]?

/-- Appends a value and returns its index; `none` when the pool cannot address another value. -/
def push? (pool : ConstantPool) (value : Value) : Option (Nat × ConstantPool) :=
  if pool.size ≤ maxOffset then some (pool.size, ⟨pool.values.push value⟩) else none

/-- The index of a value, which is appended unless it is there already. -/
def insert? (pool : ConstantPool) (value : Value) : Option (Nat × ConstantPool) :=
  match pool.values.findIdx? (·.samePacked value) with
  | some index => some (index, pool)
  | none => pool.push? value

def pushAll? (pool : ConstantPool) : List Value → Option ConstantPool
  | [] => some pool
  | value :: rest =>
    match pool.push? value with
    | none => none
    | some (_, pool) => pool.pushAll? rest

/-- The elements that an array value of the pool points at, if all of them are in the pool. -/
def run? (pool : ConstantPool) (address : Address) (length : Nat) : Option (List Value) :=
  match address with
  | .constant start =>
    if start.toNat + length ≤ pool.size then
      some (Slots.slice pool.values start.toNat (start.toNat + length))
    else none
  | .null => if length = 0 then some [] else none
  | .mutable _ => none

/-- Whether a value is an array over exactly these elements. -/
def describes (pool : ConstantPool) (elements : List Value) (value : Value) : Bool :=
  match value with
  | .array address length =>
    length.toNat == elements.length &&
      match pool.run? address elements.length with
      | some run => run.map packed == elements.map packed
      | none => false
  | _ => false
where
  packed (v : Value) : UInt64 := v.packed

/-- The index of an array over these elements. Unless there is one already, the elements are
appended as a run, followed by the array. -/
def insertArray? (pool : ConstantPool) (elements : List Value) : Option (Nat × ConstantPool) :=
  if maxArrayLength < elements.length then none
  else
    match pool.values.findIdx? (pool.describes elements) with
    | some index => some (index, pool)
    | none =>
      match pool.pushAll? elements with
      | none => none
      | some filled =>
        let address := if elements.isEmpty then .null else .constant (.ofNat pool.size)
        filled.push? (.array address (.ofNat elements.length))

/-- The index of a text, which is the array of its characters. -/
def insertText? (pool : ConstantPool) (text : String) : Option (Nat × ConstantPool) :=
  pool.insertArray? (text.toList.map .char)

end ConstantPool

end ScriptMachine
