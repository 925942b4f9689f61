import ScriptMachine.Heap

/-!
# Memory

The two address spaces seen together: the constants of a program and the heap of a machine. Reading
does not change either, and code that only looks at values does not care where they live.
-/

namespace ScriptMachine

/-- The constants and the heap that addresses refer to. -/
structure Memory where
  constants : Slots
  heap : Heap
  deriving DecidableEq, Repr

namespace Memory

def read? (memory : Memory) (address : Address) : Option Value :=
  match address with
  | .null => none
  | .constant index => memory.constants[index.toNat]?
  | .mutable _ => memory.heap.get? address

/-- The elements of an array, wherever they live. -/
def resolve? (memory : Memory) (address : Address) (length : Nat) : Option (List Value) :=
  if length = 0 then some []
  else
    match address with
    | .null => none
    | .constant start =>
      if start.toNat + length ≤ memory.constants.size then
        some (Slots.slice memory.constants start.toNat (start.toNat + length))
      else none
    | .mutable _ => memory.heap.elements? address length

/-- The text of an array of characters. -/
def text? (memory : Memory) (value : Value) : Option String :=
  match value with
  | .array address length =>
    (memory.resolve? address length.toNat).bind fun elements =>
      (elements.mapM Value.char?).map String.ofList
  | _ => none

/-- How deep nested arrays are written out. -/
def renderDepth : Nat :=
  16

/-- The text of a value with its elements, written out `depth` arrays deep. -/
def renderTo (memory : Memory) : (depth : Nat) → Value → String
  | depth, value =>
    match value with
    | .char c => c.toString
    | .array address length =>
      if length = 0 then "[]"
      else
        match depth with
        | 0 => "[...]"
        | depth + 1 =>
          match memory.resolve? address length.toNat with
          | none => value.text
          | some elements =>
            match elements.mapM Value.char? with
            | some chars => String.ofList chars
            | none =>
              elements.foldl (fun line e => line ++ " " ++ memory.renderTo depth e) "[" ++ " ]"
    | other => other.text

/-- The text of a value as it is printed: an array of characters is its text, any other array is
written out element by element. -/
def render (memory : Memory) (value : Value) : String :=
  memory.renderTo renderDepth value

end Memory

end ScriptMachine
