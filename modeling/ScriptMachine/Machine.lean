import ScriptMachine.Native
import ScriptMachine.Stack

/-!
# The machine

A machine has a stack and a heap, and remembers what happened that the host can see: lines that the
script printed and notes that natives left. Half of the memory is stack and the rest is heap, whose
addresses follow those of the stack.
-/

namespace ScriptMachine

structure Settings where
  memorySize : Nat := 4096
  cycleLimit : Nat := 1000000
  validate : Bool := false
  deriving DecidableEq, Repr

namespace Settings

def stackSize (s : Settings) : Nat :=
  s.memorySize / 2

/-- The heap takes what the stack leaves. -/
def heapSettings (s : Settings) : HeapSettings :=
  ⟨s.memorySize - s.stackSize, s.stackSize⟩

def check (s : Settings) : Except SettingsError Unit :=
  if s.memorySize < 2 then .error .memoryTooSmall
  else if s.cycleLimit = 0 then .error .noCycles
  else .ok ()

end Settings

/-- Something that the host can see. -/
inductive Event where
  | printed (line : String)
  | noted (note : String)
  deriving DecidableEq, Repr

/-- A machine between two instructions. -/
structure Machine where
  stack : Stack
  heap : Heap
  events : Array Event := #[]
  deriving DecidableEq, Inhabited, Repr

namespace Machine

def create (settings : Settings) : Except HeapError Machine :=
  match settings.check with
  | .error cause => .error (.settings cause)
  | .ok () =>
    match Heap.create settings.heapSettings with
    | .error e => .error e
    | .ok heap => .ok { stack := Stack.empty settings.stackSize, heap := heap }

/-- The memory that a program sees. -/
def memory (m : Machine) (program : Program) : Memory :=
  ⟨program.constants, m.heap⟩

/-- Gives up everything on the heap that the stack does not reach. -/
def collect (m : Machine) : Machine :=
  let roots := m.stack.live
  { m with heap := m.heap.collect roots }

end Machine

end ScriptMachine
