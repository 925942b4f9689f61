import Mathlib
import ScriptMachine.Proofs.Binding
import ScriptMachine.Proofs.Heap.Allocation

/-!
# Making an array

The values of a new array lie on the stack while room is found for them, so they are roots of the
collection that may be needed, together with everything below them. Only when they are stored do they
leave the stack, and from then on the array keeps in reach what they refer to. So nothing that the stack
reaches is lost or overwritten, however full the heap is and whatever the values are.
-/

namespace ScriptMachine

theorem Memory.resolve?_of_elements? {memory : Memory} {address : Address} {length : Nat}
    {values : List Value} (h : memory.heap.elements? address length = some values) :
    memory.resolve? address length = some values := by
  unfold Heap.elements? at h
  unfold Memory.resolve?
  by_cases hzero : length = 0
  · rwa [if_pos hzero] at h ⊢
  · rw [if_neg hzero] at h ⊢
    cases address with
    | null => cases h
    | constant start => cases h
    | mutable offset =>
      dsimp only
      rwa [Heap.elements?, if_neg hzero]

namespace Machine

open Outcome
open Heap (InRange)

variable {program : Program} {env : Environment} {m m' : Machine} {i : Instruction}
  {below values spare : List Value} {frame : Option Nat} {heap : Heap} {events : Array Event} {size : Number}

/-! ### The instruction taken apart -/

/-- The machine with these live values, and otherwise with these parts. -/
def holding (live spare : List Value) (frame : Option Nat) (heap : Heap) (events : Array Event) : Machine :=
  ⟨.filled live spare frame, heap, events⟩

@[simp] theorem live_holding (live spare : List Value) (frame : Option Nat) (heap : Heap)
    (events : Array Event) : (holding live spare frame heap events).stack.live = live :=
  Stack.live_filled live spare frame

theorem pop_holding (live : List Value) (value : Value) :
    pop (holding (live ++ [value]) spare frame heap events)
      = .ok value (holding live (value :: spare) frame heap events) := by
  simp only [pop, onStack, holding, Stack.pop_filled]

theorem popNumber_holding (op : Opcode) (live : List Value) (size : Number) :
    popNumber op (holding (live ++ [Value.number size]) spare frame heap events)
      = .ok size (holding live (.number size :: spare) frame heap events) := by
  rw [popNumber, bind_of_ok (pop_holding _ _)]
  rfl

theorem drop_holding :
    drop values.length (holding (below ++ values) spare frame heap events)
      = .ok () (holding below (values ++ spare) frame heap events) := by
  simp only [drop, onStack, holding, Stack.drop_filled]

theorem push_holding (live : List Value) (old value : Value) :
    push value (holding live (old :: spare) frame heap events)
      = .ok () (holding (live ++ [value]) spare frame heap events) := by
  simp only [push, onStack, holding, Stack.push_filled_cons]

/-- Room for the values is looked for while they are on the stack. -/
theorem makeArray_holding (hcount : size.isCount = true) (hsize : size.toCount = values.length) :
    makeArray (holding (below ++ values ++ [Value.number size]) spare frame heap events)
      = (allocate values.length >>= fun address =>
          onHeap (Heap.copyInto values address values.length) >>= fun _ =>
          drop values.length >>= fun _ =>
          push (.array address (.ofNat values.length)) >>= fun _ => pure .next)
        (holding (below ++ values) (.number size :: spare) frame heap events) := by
  have htop : readStack (·.top values.length)
      (holding (below ++ values) (.number size :: spare) frame heap events)
      = .ok values (holding (below ++ values) (.number size :: spare) frame heap events) := by
    simp only [readStack, holding, Stack.top_filled]
  rw [makeArray, bind_of_ok (popNumber_holding _ _ _)]
  simp only [hcount, hsize, Bool.not_true, Bool.false_eq_true, if_false]
  rw [bind_of_ok htop]

theorem makeArray_eq_ok (spare : List Value) (frame : Option Nat) (events : Array Event) {address : Address}
    {copied : Nat} {fresh stored : Heap} (hcount : size.isCount = true)
    (hsize : size.toCount = values.length)
    (hallocate : Heap.allocate values.length (below ++ values) heap = .ok address fresh)
    (hcopy : Heap.copyInto values address values.length fresh = .ok copied stored) :
    ∃ spare', makeArray (holding (below ++ values ++ [Value.number size]) spare frame heap events)
      = .ok .next
        (holding (below ++ [Value.array address (.ofNat values.length)]) spare' frame stored events) := by
  have hfirst : allocate values.length (holding (below ++ values) (.number size :: spare) frame heap events)
      = .ok address (holding (below ++ values) (.number size :: spare) frame fresh events) := by
    simp only [allocate, onHeap, holding, Stack.live_filled, hallocate]
  have hsecond : onHeap (Heap.copyInto values address values.length)
      (holding (below ++ values) (.number size :: spare) frame fresh events)
      = .ok copied (holding (below ++ values) (.number size :: spare) frame stored events) := by
    simp only [onHeap, holding, hcopy]
  -- The number of the values has left a slot, so there is room for the array.
  obtain ⟨old, spare', hspare⟩ : ∃ old spare', values ++ Value.number size :: spare = old :: spare' := by
    cases values with
    | nil => exact ⟨_, _, rfl⟩
    | cons value rest => exact ⟨_, _, rfl⟩
  refine ⟨spare', ?_⟩
  rw [makeArray_holding hcount hsize, bind_of_ok hfirst, bind_of_ok hsecond, bind_of_ok drop_holding, hspare,
    bind_of_ok (push_holding _ _ _)]
  rfl

theorem makeArray_eq_error {e : HeapError} {left : Heap} (hcount : size.isCount = true)
    (hsize : size.toCount = values.length)
    (hallocate : Heap.allocate values.length (below ++ values) heap = .error e left) :
    makeArray (holding (below ++ values ++ [Value.number size]) spare frame heap events)
      = .error (.allocationFailed e)
        (holding (below ++ values) (.number size :: spare) frame left events) := by
  have hfirst : allocate values.length (holding (below ++ values) (.number size :: spare) frame heap events)
      = .error (.allocationFailed e)
        (holding (below ++ values) (.number size :: spare) frame left events) := by
    simp only [allocate, onHeap, holding, Stack.live_filled, hallocate]
  rw [makeArray_holding hcount hsize, bind_of_error hfirst]

theorem exists_holding (hdepth : m.stack.depth ≤ m.stack.capacity) :
    ∃ spare, m = holding m.stack.live spare m.stack.frame m.heap m.events := by
  obtain ⟨spare, hstack⟩ := Stack.exists_filled hdepth
  refine ⟨spare, ?_⟩
  rw [holding, ← hstack]

/-- The action fails for another reason than that the heap has no room. -/
def FailsOtherwise {α : Type} (action : Action α) (m : Machine) : Prop :=
  ∃ fault m', action m = .error fault m' ∧ ∀ e, fault ≠ .allocationFailed e

theorem FailsOtherwise.bind {α β : Type} {x : Action α} (h : FailsOtherwise x m) (f : α → Action β) :
    FailsOtherwise (x >>= f) m := by
  obtain ⟨fault, m', hx, hfault⟩ := h
  exact ⟨fault, m', bind_of_error hx, hfault⟩

theorem popNumber_cases (op : Opcode) (live : List Value) :
    FailsOtherwise (popNumber op) (holding live spare frame heap events) ∨
      ∃ rest size, live = rest ++ [Value.number size] := by
  rcases List.eq_nil_or_concat' live with rfl | ⟨rest, last, rfl⟩
  · exact .inl ⟨_, _, rfl, by simp [Fault.ofStack]⟩
  by_cases hnumber : ∃ size, last = .number size
  · obtain ⟨size, rfl⟩ := hnumber
    exact .inr ⟨rest, size, rfl⟩
  · left
    refine ⟨.typeMismatch op "number" last.typeName, holding rest (last :: spare) frame heap events, ?_,
      by simp⟩
    rw [popNumber, bind_of_ok (pop_holding _ _)]
    cases last with
    | number size => exact absurd ⟨size, rfl⟩ hnumber
    | _ => rfl

theorem top_cases (live : List Value) (count : Nat) :
    FailsOtherwise (readStack (·.top count)) (holding live spare frame heap events) ∨
      ∃ below values, live = below ++ values ∧ values.length = count := by
  rcases Nat.lt_or_ge live.length count with hshort | henough
  · have htop : (Stack.filled live spare frame).top count = .error .underflow :=
      if_neg (Nat.not_le.mpr hshort)
    refine .inl ⟨.ofStack .underflow, holding live spare frame heap events, ?_, by simp [Fault.ofStack]⟩
    simp only [readStack, holding, htop]
  · exact .inr (Stack.exists_top live henough)

/-- The instruction finds a number of values and the values below it, or fails before it comes to the
heap. -/
theorem makeArray_cases (live spare : List Value) (frame : Option Nat) (heap : Heap) (events : Array Event) :
    FailsOtherwise makeArray (holding live spare frame heap events) ∨
      ∃ below values size, live = below ++ values ++ [Value.number size] ∧ size.isCount = true ∧
        size.toCount = values.length := by
  rcases popNumber_cases .makeArray live with hfails | ⟨rest, size, rfl⟩
  · exact .inl (hfails.bind _)
  by_cases hcount : size.isCount = true
  · rcases top_cases rest size.toCount with hfails | ⟨below, values, rfl, hlength⟩
    · left
      obtain ⟨fault, m', htop, hfault⟩ := hfails
      refine ⟨fault, m', ?_, hfault⟩
      rw [makeArray, bind_of_ok (popNumber_holding _ _ _)]
      simp only [hcount, Bool.not_true, Bool.false_eq_true, if_false]
      exact bind_of_error htop
    · exact .inr ⟨below, values, size, rfl, hcount, hlength.symm⟩
  · left
    refine ⟨.badOperand .makeArray "element count must be a non-negative integer",
      holding rest (.number size :: spare) frame heap events, ?_, by simp⟩
    rw [makeArray, bind_of_ok (popNumber_holding _ _ _)]
    simp only [hcount]
    rfl

/-! ### What it does to the heap -/

/-- Every slot that the live stack reaches is marked, and ranges in its reach that overlap end at the same
slot. -/
structure Safe (m : Machine) : Prop where
  marked : ∀ range slot, m.heap.Reachable m.stack.live range → InRange range slot →
    m.heap.isMarked slot = true
  tails : m.heap.TailsMeet m.stack.live

/-- Values that are made into an array move from the stack to the heap, and nothing in reach is touched. -/
theorem makeArray_of_safe (spare : List Value) (frame : Option Nat) (events : Array Event) {address : Address}
    {fresh : Heap} (hs : heap.Safe (below ++ values ++ [Value.number size])) (hcount : size.isCount = true)
    (hsize : size.toCount = values.length)
    (hallocate : Heap.allocate values.length (below ++ values) heap = .ok address fresh) :
    ∃ spare' stored, makeArray (holding (below ++ values ++ [Value.number size]) spare frame heap events)
        = .ok .next
          (holding (below ++ [Value.array address (.ofNat values.length)]) spare' frame stored events) ∧
      stored.Safe (below ++ [Value.array address (.ofNat values.length)]) ∧
      stored.elements? address (UInt32.ofNat values.length).toNat = some values ∧
      ∀ range slot, heap.Reachable (below ++ values ++ [Value.number size]) range → InRange range slot →
        Slots.read stored.slots slot = Slots.read heap.slots slot := by
  have hroots : heap.Safe (below ++ values) := hs.mono (List.subset_append_left _ _)
  obtain ⟨stored, hcopy, hstored, helements, hkept⟩ :=
    hroots.store (List.subset_append_right _ _) hallocate
  obtain ⟨spare', hmake⟩ := makeArray_eq_ok spare frame events hcount hsize hallocate hcopy
  refine ⟨spare', stored, hmake, hstored.mono ?_, helements, fun range slot hrange hslot => ?_⟩
  · refine List.append_subset.mpr ⟨?_, List.subset_append_right _ _⟩
    exact fun v hv => List.mem_append_left _ (List.mem_append_left _ hv)
  · -- The number on top refers to nothing.
    exact hkept range slot (hrange.of_inert rfl) hslot

theorem safe_iff {settings : Settings} (hm : m.Intact settings) : m.Safe ↔ m.heap.Safe m.stack.live := by
  constructor
  · intro hs
    refine ⟨hm.heap.shaped, fun range slot hrange hslot => ?_, hs.tails⟩
    exact (Bool.and_eq_true_iff.mp (hs.marked range slot hrange hslot)).2
  · intro hs
    refine ⟨fun range slot hrange hslot => ?_, hs.tails⟩
    have hbound : slot < m.heap.capacity := Nat.lt_of_lt_of_le hslot.2 hrange.bounds.2
    rw [Heap.isMarked, hs.marked range slot hrange hslot, decide_eq_true hbound, Bool.and_true]

/-- An array is made of the topmost values, the bottom-most first, and takes their place on the stack. All
that the stack reached keeps its values, and the new stack reaches nothing but what is marked. If there is
no room for the array, no slot of the heap has changed. -/
theorem making_an_array_is_safe {settings : Settings} (program : Program) (env : Environment)
    (hop : i.op = .makeArray) (hm : m.Intact settings) (hs : m.Safe) :
    (∀ flow m', step program env i m = .ok flow m' →
      ∃ below values size address length, m.stack.live = below ++ values ++ [Value.number size] ∧
        size.toCount = values.length ∧ flow = .next ∧
        m'.stack.live = below ++ [Value.array address length] ∧ m'.stack.frame = m.stack.frame ∧
        length.toNat = values.length ∧ (m'.memory program).resolve? address length.toNat = some values ∧
        (∀ range slot, m.heap.Reachable m.stack.live range → InRange range slot →
          Slots.read m'.heap.slots slot = Slots.read m.heap.slots slot) ∧
        m'.Intact settings ∧ m'.Safe) ∧
    ∀ cause m', step program env i m = .error (.allocationFailed cause) m' →
      m'.heap.slots = m.heap.slots := by
  have hstep : step program env i m = makeArray m := by rw [step, hop]
  have hheap := (safe_iff hm).mp hs
  obtain ⟨spare, hholding⟩ := exists_holding (m := m) hm.stack.depth_le_size
  generalize m.stack.live = live, m.stack.frame = frame, m.heap = heap, m.events = events at hholding
  subst hholding
  rcases makeArray_cases live spare frame heap events with
    ⟨fault, failed, hfails, hfault⟩ | ⟨below, values, size, rfl, hcount, hsize⟩
  · rw [hstep, hfails]
    constructor
    · intro flow m' h
      cases h
    · intro cause m' h
      cases h
      exact absurd rfl (hfault cause)
  replace hheap : heap.Safe (below ++ values ++ [Value.number size]) := by
    rw [live_holding] at hheap
    exact hheap
  cases hallocate : Heap.allocate values.length (below ++ values) heap with
  | error e left =>
    rw [hstep, makeArray_eq_error hcount hsize hallocate]
    constructor
    · intro flow m' h
      cases h
    · intro cause m' h
      cases h
      rcases Heap.allocate_error hallocate with rfl | rfl
      · rfl
      · rfl
  | ok address fresh =>
    obtain ⟨spare', stored, hmake, hstored, helements, hkept⟩ :=
      makeArray_of_safe spare frame events hheap hcount hsize hallocate
    rw [hmake] at hstep
    have hintact := (maintains_step i).of_ok hm hstep
    rw [hstep]
    constructor
    · intro flow m' h
      cases h
      refine ⟨below, values, size, address, .ofNat values.length, rfl, hsize, rfl, live_holding .., rfl,
        Heap.toNat_of_allocate hallocate, Memory.resolve?_of_elements? helements, hkept, hintact,
        (safe_iff hintact).mpr ?_⟩
      rw [live_holding]
      exact hstored
    · intro cause m' h
      cases h

/-- A machine of eight slots: an array of one slot lies on the stack under another value and the number of
both, and the other slots of the heap belong to an array that nothing refers to. -/
def crowded : Machine :=
  ⟨⟨#[.array (.mutable 4) 1, .bool false, .number (.ofNat 2), .nothing], 3, none⟩,
    ⟨#[.bool true, .nothing, .nothing, .nothing], ⟨#[15]⟩, 4, 0⟩, #[]⟩

def crowding : List HostOperation :=
  [.onHeap (.allocate 1 []), .onHeap (.copyInto [.bool true] (.mutable 4) 1), .onHeap (.allocate 3 []),
    .onStack (.operate (.push (.array (.mutable 4) 1))), .onStack (.operate (.push (.bool false))),
    .onStack (.operate (.push (.number (.ofNat 2))))]

theorem intact_crowded : crowded.Intact { memorySize := 8 } := by
  obtain ⟨new, hcreate⟩ : ∃ new, create { memorySize := 8 } = .ok new := ⟨_, rfl⟩
  have hintact := (intact_create hcreate).afterAll crowding
  have hcrowded : afterAll crowding new = crowded := by
    cases hcreate
    cbv
  rwa [hcrowded] at hintact

theorem range_of_crowded {range : Nat × Nat} (hrange : crowded.heap.Reachable crowded.stack.live range) :
    range = (0, 1) := by
  cases hrange with
  | root hvalue hrange =>
    have hlive : crowded.stack.live = [.array (.mutable 4) 1, .bool false, .number (.ofNat 2)] := rfl
    simp only [hlive, List.mem_cons, List.not_mem_nil, or_false] at hvalue
    rcases hvalue with rfl | rfl | rfl
    · exact (Option.some.inj hrange).symm
    · cases hrange
    · cases hrange
  | @slot outer _ slot houter hslot hrange =>
    have hbound : slot < 4 := Nat.lt_of_lt_of_le hslot.2 houter.bounds.2
    interval_cases slot <;> cases hrange

theorem safe_crowded : crowded.Safe := by
  refine ⟨fun range slot hrange hslot => ?_, fun range other slot hrange hother _ _ => ?_⟩
  · obtain rfl := range_of_crowded hrange
    obtain rfl : slot = 0 := by
      have hlt := hslot.2
      omega
    rfl
  · rw [range_of_crowded hrange, range_of_crowded hother]

/-- The instruction collects first. The array on the stack is kept because it is to be an element, and what
is made of it follows it on the heap. -/
theorem making_an_array_is_safe_sample : ∃ m', crowded.Intact { memorySize := 8 } ∧ crowded.Safe ∧
    step {} {} ⟨0, .makeArray, 0, 0⟩ crowded = .ok .next m' ∧ m'.heap.collections = 1 ∧
    m'.stack.live = [.array (.mutable 5) 2] ∧
    (m'.memory {}).resolve? (.mutable 5) 2 = some [.array (.mutable 4) 1, .bool false] ∧
    Slots.read m'.heap.slots 0 = .bool true ∧ m'.Safe := by
  obtain ⟨m', hstep, hcollections, hlive⟩ : ∃ m',
      step {} {} ⟨0, .makeArray, 0, 0⟩ crowded = .ok .next m' ∧ m'.heap.collections = 1 ∧
        m'.stack.live = [.array (.mutable 5) 2] := by
    refine ⟨⟨⟨#[.array (.mutable 5) 2, .bool false, .number (.ofNat 2), .nothing], 1, none⟩,
      ⟨#[.bool true, .array (.mutable 4) 1, .bool false, .nothing], ⟨#[7]⟩, 4, 1⟩, #[]⟩, ?_, rfl, rfl⟩
    cbv
  obtain ⟨below, values, size, address, length, hbefore, -, -, hafter, -, -, hresolve, hkept, -, hsafe⟩ :=
    (making_an_array_is_safe {} {} (i := ⟨0, .makeArray, 0, 0⟩) rfl intact_crowded safe_crowded).1 _ _ hstep
  have htop : [] ++ [Value.array (.mutable 5) 2] = below ++ [Value.array address length] :=
    hlive.symm.trans hafter
  obtain ⟨rfl, harray⟩ := List.append_inj' htop rfl
  cases harray
  have helements : [Value.array (.mutable 4) 1, .bool false] ++ [Value.number (.ofNat 2)]
      = values ++ [Value.number size] := hbefore
  obtain ⟨rfl, -⟩ := List.append_inj' helements rfl
  have hfirst : crowded.heap.Reachable crowded.stack.live (0, 1) := .root (List.mem_cons_self ..) rfl
  exact ⟨m', intact_crowded, safe_crowded, hstep, hcollections, hlive, hresolve,
    hkept (0, 1) 0 hfirst ⟨Nat.le_refl 0, Nat.zero_lt_one⟩, hsafe⟩

end Machine

end ScriptMachine
