import ScriptMachine.Value

/-!
# Slots

The stack and the heap both keep their values in a fixed row of slots. Reading outside the row gives
nothing and writing outside it does nothing, so every operation here is total; what the stack and the
heap promise about their indices makes sure that neither happens.
-/

namespace ScriptMachine

/-- A row of values. -/
abbrev Slots := Array Value

namespace Slots

/-- A row of `count` slots that hold nothing. -/
def empty (count : Nat) : Slots :=
  Array.replicate count .nothing

def read (slots : Slots) (index : Nat) : Value :=
  slots.getD index .nothing

def slice (slots : Slots) (start stop : Nat) : List Value :=
  (slots.extract start stop).toList

def write (slots : Slots) (start : Nat) : List Value → Slots
  | [] => slots
  | value :: rest => write (slots.setIfInBounds start value) (start + 1) rest

/-- Makes `count` slots from `start` on hold nothing. -/
def clear (slots : Slots) (start : Nat) : (count : Nat) → Slots
  | 0 => slots
  | count + 1 => clear (slots.setIfInBounds start .nothing) (start + 1) count

/-- Moves the `count` values from `start` on one slot up, the topmost first. -/
def shiftUp (slots : Slots) (start : Nat) : (count : Nat) → Slots
  | 0 => slots
  | count + 1 =>
    shiftUp (slots.setIfInBounds (start + count + 1) (read slots (start + count))) start count

end Slots

end ScriptMachine
