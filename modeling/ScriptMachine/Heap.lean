import ScriptMachine.Heap.Bitmap
import ScriptMachine.Slots

/-!
# The heap

Arrays that a script builds live in a fixed number of slots, with one bit per slot that says whether
it is in use. Nothing is ever freed by hand: when no free block is found, `collect` works out from the
roots which slots can still be reached, and the search is tried once more. Values never move.
-/

namespace ScriptMachine

/-- What is wrong with the sizes that a heap or a machine is asked to have. -/
inductive SettingsError where
  | emptyHeap
  | heapOutOfReach
  | memoryTooSmall
  | noCycles
  deriving DecidableEq, Repr

namespace SettingsError

def message : SettingsError → String
  | .emptyHeap => "heap_size must be > 0"
  | .heapOutOfReach => "heap does not fit in the 30-bit mutable address space"
  | .memoryTooSmall => "memory_size must hold at least one stack and one heap slot"
  | .noCycles => "cycle_limit must be > 0"

end SettingsError

inductive HeapError where
  | settings (cause : SettingsError)
  | tooLarge (requested capacity : Nat)
  | exhausted (requested : Nat)
  | outOfBounds (address : Address)
  deriving DecidableEq, Repr

namespace HeapError

def message : HeapError → String
  | .settings cause => "invalid heap settings: " ++ cause.message
  | .tooLarge requested capacity =>
    "cannot allocate " ++ toString requested ++ " slots, heap holds " ++ toString capacity
  | .exhausted requested => "not enough free memory for " ++ toString requested ++ " slots"
  | .outOfBounds address => "address " ++ address.text ++ " is not on the heap"

end HeapError

/-- The size of a heap and the mutable address of its first slot. -/
structure HeapSettings where
  size : Nat := 2048
  base : Nat := 2048
  deriving DecidableEq, Repr

namespace HeapSettings

def check (settings : HeapSettings) : Except SettingsError Unit :=
  if settings.size = 0 then .error .emptyHeap
  else if maxOffset + 1 < settings.base + settings.size then .error .heapOutOfReach
  else .ok ()

end HeapSettings

/-- Array memory with its bitmap of slots in use. -/
structure Heap where
  slots : Slots
  marks : Bitmap
  base : Nat
  collections : Nat
  deriving DecidableEq, Inhabited, Repr

namespace Heap

/-- A heap operation: it keeps the state also when it fails. -/
abbrev Action := EStateM HeapError Heap

/-- A heap without slots in use. -/
def create (settings : HeapSettings) : Except HeapError Heap :=
  match settings.check with
  | .error cause => .error (.settings cause)
  | .ok () =>
    .ok ⟨Slots.empty settings.size, Bitmap.empty settings.size, settings.base, 0⟩

def capacity (h : Heap) : Nat :=
  h.slots.size

def used (h : Heap) : Nat :=
  h.marks.count

def isMarked (h : Heap) (slot : Nat) : Bool :=
  decide (slot < h.capacity) && h.marks.isSet slot

/-! ### Addresses -/

/-- The first of the `length` slots at an address, if all of them are on this heap. -/
def slotAt? (h : Heap) (address : Address) (length : Nat) : Option Nat :=
  match address with
  | .mutable offset =>
    if h.base ≤ offset.toNat ∧ offset.toNat - h.base + length ≤ h.capacity then
      some (offset.toNat - h.base)
    else none
  | _ => none

def contains (h : Heap) (address : Address) : Bool :=
  (h.slotAt? address 1).isSome

def get? (h : Heap) (address : Address) : Option Value :=
  (h.slotAt? address 1).map (Slots.read h.slots)

def elements? (h : Heap) (address : Address) (length : Nat) : Option (List Value) :=
  if length = 0 then some []
  else (h.slotAt? address length).map fun start => Slots.slice h.slots start (start + length)

/-- The slots that a value refers to, as their start and number: those of an array, and those that an
iterator has not visited yet. -/
def range? (h : Heap) (value : Value) : Option (Nat × Nat) :=
  match value with
  | .array address length | .iterator address length =>
    if length = 0 then none else (h.slotAt? address length.toNat).map (·, length.toNat)
  | _ => none

/-! ### Collection -/

/-- The ranges that the slots of a range refer to, the last one first. -/
def rangesIn (h : Heap) (range : Nat × Nat) : List (Nat × Nat) :=
  ((Slots.slice h.slots range.1 (range.1 + range.2)).filterMap h.range?).reverse

/-- Marks the pending ranges and everything that can be reached from them. A range whose first slot
is marked already is passed over. Every round marks a slot that was not marked before, so that as many
rounds as there are slots, and one more, are enough. -/
def mark (h : Heap) : (rounds : Nat) → (pending : List (Nat × Nat)) → Bitmap → Bitmap
  | 0, _, marks => marks
  | rounds + 1, pending, marks =>
    match pending.dropWhile fun range => marks.isSet range.1 with
    | [] => marks
    | range :: rest =>
      h.mark rounds (h.rangesIn range ++ rest) (marks.setRange range.1 range.2)

/-- The bitmap of the slots that can be reached from the roots; the last root is followed first. -/
def reachableMarks (h : Heap) (roots : List Value) : Bitmap :=
  h.mark (h.capacity + 1) (roots.filterMap h.range?).reverse (Bitmap.empty h.capacity)

/-- Works out anew which slots are in use. -/
def collect (roots : List Value) (h : Heap) : Heap :=
  { h with marks := h.reachableMarks roots, collections := h.collections + 1 }

/-! ### Allocation -/

/-- Takes the `count` slots from `start` into use, and returns their address. -/
def take (count start : Nat) : Action Address := fun ⟨slots, marks, base, collections⟩ =>
  .ok (.mutable (.ofNat (base + start)))
    ⟨Slots.clear slots start count, marks.setRange start count, base, collections⟩

/-- Allocates `count` slots that hold nothing, and returns their address. If no free block is found,
everything that the roots do not reach is given up first. No slots have no address. -/
@[inline] def allocate (count : Nat) (roots : List Value) : Action Address := fun h =>
  if count = 0 then .ok .null h
  else if h.capacity < count ∨ maxArrayLength < count then .error (.tooLarge count h.capacity) h
  else
    match h.marks.findFree? h.capacity count with
    | some start => take count start h
    | none =>
      let h := h.collect roots
      match h.marks.findFree? h.capacity count with
      | some start => take count start h
      | none => .error (.exhausted count) h

/-- Copies values into an array, as many as it has room for, and returns their number. -/
def copyInto (values : List Value) (address : Address) (length : Nat) : Action Nat := fun h =>
  let count := min values.length length
  if count = 0 then .ok 0 h
  else
    match h.slotAt? address length with
    | none => .error (.outOfBounds address) h
    | some start =>
      let ⟨slots, marks, base, collections⟩ := h
      .ok count ⟨Slots.write slots start (values.take count), marks, base, collections⟩

end Heap

end ScriptMachine
