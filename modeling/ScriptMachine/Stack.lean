import ScriptMachine.Slots

/-!
# The stack

A fixed number of slots of which the lowest `depth` are live. Call frames are values among the
others: a call pushes its arguments and a return marker, `makeFrame` turns the marker into a frame
below the arguments, and `returnFromFrame` drops everything from the frame on. Slots above the live
ones keep what they held, and `frame` may point at such a slot after its frame was popped.

An operation that fails may already have popped its input; the state it leaves is part of the result.
-/

namespace ScriptMachine

inductive StackError where
  | overflow
  | underflow
  | noFrame
  | badReturnMarker (found : Value)
  | localOutOfRange (index depth : Nat)
  deriving DecidableEq, Repr

namespace StackError

def message : StackError → String
  | .overflow => "stack overflow"
  | .underflow => "stack underflow"
  | .noFrame => "no active call frame"
  | .badReturnMarker found => "expected a return address, found " ++ found.typeName
  | .localOutOfRange index depth =>
    "local " ++ toString index ++ " is outside the live stack (depth " ++ toString depth ++ ")"

end StackError

structure Stack where
  slots : Slots
  depth : Nat
  frame : Option Nat
  deriving DecidableEq, Inhabited, Repr

/-- Where a return leads: back to the host with a value, or to a place in the code. -/
inductive Return where
  | host (value : Value)
  | resume (place : Nat)
  deriving DecidableEq, Repr

namespace Stack

/-- A stack operation: it keeps the state also when it fails. -/
abbrev Action := EStateM StackError Stack

def empty (capacity : Nat) : Stack :=
  ⟨Slots.empty capacity, 0, none⟩

def capacity (s : Stack) : Nat :=
  s.slots.size

/-- The live values, bottom first. -/
def live (s : Stack) : List Value :=
  Slots.slice s.slots 0 s.depth

/-- Clears the stack and every slot. -/
def reset (s : Stack) : Stack :=
  empty s.capacity

/-! ### Reading -/

/-- The value `n` slots below the top. -/
def peek (s : Stack) (n : Nat) : Except StackError Value :=
  if n < s.depth then .ok (Slots.read s.slots (s.depth - 1 - n)) else .error .underflow

/-- The topmost `n` values, bottom first. -/
def top (s : Stack) (n : Nat) : Except StackError (List Value) :=
  if n ≤ s.depth then .ok (Slots.slice s.slots (s.depth - n) s.depth) else .error .underflow

/-- The frame of the running call, if the slot that `frame` points at holds one. -/
def currentFrame (s : Stack) : Option Frame :=
  match s.frame with
  | none => none
  | some index => (Slots.read s.slots index).frame?

/-- The position of the topmost frame among the lowest `n` slots. -/
def frameBelow (s : Stack) : Nat → Option Nat
  | 0 => none
  | n + 1 => if (Slots.read s.slots n).isFrame then some n else s.frameBelow n

/-- The position of the topmost live frame. -/
def findFrame (s : Stack) : Option Nat :=
  s.frameBelow s.depth

/-- The slot of a local of the running call. -/
def localSlot (s : Stack) (index : Nat) : Except StackError Nat :=
  match s.frame with
  | none => .error .noFrame
  | some frame =>
    let slot := frame + 1 + index
    if slot < s.depth then .ok slot else .error (.localOutOfRange index s.depth)

def load (s : Stack) (index : Nat) : Except StackError Value :=
  match s.localSlot index with
  | .ok slot => .ok (Slots.read s.slots slot)
  | .error e => .error e

/-! ### Changing -/

def push (value : Value) : Action Unit := fun ⟨slots, depth, frame⟩ =>
  if depth < slots.size then .ok () ⟨slots.setIfInBounds depth value, depth + 1, frame⟩
  else .error .overflow ⟨slots, depth, frame⟩

def pop : Action Value := fun ⟨slots, depth, frame⟩ =>
  match depth with
  | 0 => .error .underflow ⟨slots, 0, frame⟩
  | n + 1 => .ok (Slots.read slots n) ⟨slots, n, frame⟩

/-- Overwrites the value `n` slots below the top. -/
def set (n : Nat) (value : Value) : Action Unit := fun ⟨slots, depth, frame⟩ =>
  if n < depth then .ok () ⟨slots.setIfInBounds (depth - 1 - n) value, depth, frame⟩
  else .error .underflow ⟨slots, depth, frame⟩

def drop (n : Nat) : Action Unit := fun ⟨slots, depth, frame⟩ =>
  if n ≤ depth then .ok () ⟨slots, depth - n, frame⟩
  else .error .underflow ⟨slots, depth, frame⟩

def store (index : Nat) (value : Value) : Action Unit := fun s =>
  match s.localSlot index with
  | .error e => .error e s
  | .ok slot =>
    let ⟨slots, depth, frame⟩ := s
    .ok () ⟨slots.setIfInBounds slot value, depth, frame⟩

/-- Opens a frame below the topmost `arguments` values. The other locals start as nothing. -/
def openFrame (frame : Frame) : Action Unit := fun ⟨slots, depth, current⟩ =>
  let arguments := frame.arguments.toNat
  let base := depth - arguments
  let newDepth := base + 1 + arguments + frame.locals.toNat
  if depth < arguments then .error .underflow ⟨slots, depth, current⟩
  else if slots.size < newDepth then .error .overflow ⟨slots, depth, current⟩
  else
    let shifted := (Slots.shiftUp slots base arguments).setIfInBounds base (.frame frame)
    .ok () ⟨Slots.clear shifted (base + 1 + arguments) frame.locals.toNat, newDepth, some base⟩

/-- Opens the frame of a call whose return marker is on top. The marker is popped even when the call
then fails. -/
def makeFrame (arguments locals : UInt8) : Action Unit := do
  match ← pop with
  | .number place => openFrame ⟨.ofInt place.toInt32, arguments, locals⟩
  | other => throw (.badReturnMarker other)

/-- The value that a return carries to the host. -/
def hostResult (s : Stack) (withValue : Bool) : Value :=
  if withValue then
    match s.peek 0 with
    | .ok value => value
    | .error _ => .nothing
  else .nothing

/-- The value that a return carries to its caller: the top, if it lies above the reserved slots. -/
def pendingResult (s : Stack) (withValue : Bool) (bodyStart : Nat) : Option Value :=
  if withValue && decide (bodyStart + 1 < s.depth) then some (Slots.read s.slots (s.depth - 1))
  else none

/-- Ends the running call. A call of the host, or a return outside any call, empties the stack.
Otherwise the stack is cut at the frame, the carried value is pushed, and the frame below takes over. -/
def returnFromFrame (withValue : Bool) (s : Stack) : Return × Stack :=
  match s.frame, s.currentFrame with
  | some index, some frame =>
    if frame.returnsToHost then toHost
    else
      let pending := s.pendingResult withValue (index + frame.reserved)
      let ⟨slots, _, _⟩ := s
      let cut : Stack :=
        match pending with
        | none => ⟨slots, index, none⟩
        | some value => ⟨slots.setIfInBounds index value, index + 1, none⟩
      let outer := cut.findFrame
      (.resume frame.returnTo.toInt.toNat, { cut with frame := outer })
  | _, _ => toHost
where
  toHost : Return × Stack :=
    let result := s.hostResult withValue
    (.host result, { s with depth := 0, frame := none })

end Stack

end ScriptMachine
