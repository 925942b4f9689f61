import Mathlib
import ScriptMachine.Proofs.Activation
import ScriptMachine.Proofs.Slots

/-!
# A stack that is never left

Frames are values, so a frame may be forged, popped or left behind above the live slots, and whatever
a call does next relies on it. What no operation can break is small: the row keeps its size, the
depth stays within it, and the running call's frame is one of its slots.

Reading outside a row gives nothing and writing outside it does nothing. That this never comes to
pass is said by a second version of every operation in which each access is guarded: it has no outcome
at all when an index or a slice lies outside the row. On an intact stack the two versions agree.
-/

namespace ScriptMachine

/-! ### Guarded access -/

namespace Slots

def slice? (slots : Slots) (start stop : Nat) : Option (List Value) :=
  if start ≤ stop ∧ stop ≤ slots.size then some (slice slots start stop) else none

def set? (slots : Slots) (index : Nat) (value : Value) : Option Slots :=
  if index < slots.size then some (slots.setIfInBounds index value) else none

/-- Makes the slots from `start` up to `stop` hold nothing. -/
def clear? (slots : Slots) (start stop : Nat) : Option Slots :=
  if start ≤ stop ∧ stop ≤ slots.size then some (clear slots start (stop - start)) else none

/-- What is moved and where it is moved to both have to be in the row. -/
def shiftUp? (slots : Slots) (start count : Nat) : Option Slots :=
  if start + count ≤ slots.size ∧ start + 1 + count ≤ slots.size then some (shiftUp slots start count)
  else none

def write? (slots : Slots) (start : Nat) (values : List Value) : Option Slots :=
  if start + values.length ≤ slots.size then some (write slots start values) else none

@[simp] theorem size_shiftUp (count : Nat) (slots : Slots) (start : Nat) :
    (shiftUp slots start count).size = slots.size := by
  induction count generalizing slots with
  | zero => rfl
  | succ count ih => rw [shiftUp, ih, Array.size_setIfInBounds]

variable {slots : Slots} {start stop count index : Nat} {value : Value}

theorem slice?_eq (hstart : start ≤ stop) (hstop : stop ≤ slots.size) :
    slice? slots start stop = some (slice slots start stop) :=
  if_pos ⟨hstart, hstop⟩

theorem set?_eq (h : index < slots.size) : set? slots index value = some (slots.setIfInBounds index value) :=
  if_pos h

end Slots

namespace Stack

/-! ### Guarded operations -/

namespace Guarded

/-- The outcome of an action. A guarded action has none when an access is out of range. -/
abbrev Result (α : Type) := EStateM.Result StackError Stack α

def live (s : Stack) : Option (List Value) :=
  Slots.slice? s.slots 0 s.depth

def peek (s : Stack) (n : Nat) : Option (Except StackError Value) :=
  if n < s.depth then (s.slots[s.depth - 1 - n]?).map .ok else some (.error .underflow)

def top (s : Stack) (n : Nat) : Option (Except StackError (List Value)) :=
  if n ≤ s.depth then (Slots.slice? s.slots (s.depth - n) s.depth).map .ok
  else some (.error .underflow)

def currentFrame (s : Stack) : Option (Option Frame) :=
  match s.frame with
  | none => some none
  | some index => (s.slots[index]?).map Value.frame?

def frameBelow (s : Stack) : Nat → Option (Option Nat)
  | 0 => some none
  | n + 1 => do
    let value ← s.slots[n]?
    if value.isFrame then return some n else frameBelow s n

def findFrame (s : Stack) : Option (Option Nat) :=
  frameBelow s s.depth

def load (s : Stack) (index : Nat) : Option (Except StackError Value) :=
  match s.localSlot index with
  | .ok slot => (s.slots[slot]?).map .ok
  | .error e => some (.error e)

def pop (s : Stack) : Option (Result Value) :=
  match s.depth with
  | 0 => some (.error .underflow s)
  | n + 1 => (s.slots[n]?).map fun value => .ok value { s with depth := n }

def set (n : Nat) (value : Value) (s : Stack) : Option (Result Unit) :=
  if n < s.depth then
    (Slots.set? s.slots (s.depth - 1 - n) value).map fun slots => .ok () { s with slots := slots }
  else some (.error .underflow s)

def store (index : Nat) (value : Value) (s : Stack) : Option (Result Unit) :=
  match s.localSlot index with
  | .error e => some (.error e s)
  | .ok slot => (Slots.set? s.slots slot value).map fun slots => .ok () { s with slots := slots }

def openFrame (frame : Frame) : Stack → Option (Result Unit) := fun ⟨slots, depth, current⟩ =>
  let arguments := frame.arguments.toNat
  let base := depth - arguments
  let newDepth := base + 1 + arguments + frame.locals.toNat
  if depth < arguments then some (.error .underflow ⟨slots, depth, current⟩)
  else if slots.size < newDepth then some (.error .overflow ⟨slots, depth, current⟩)
  else do
    let shifted ← Slots.shiftUp? slots base arguments
    let framed ← Slots.set? shifted base (.frame frame)
    let cleared ← Slots.clear? framed (base + 1 + arguments) newDepth
    return .ok () ⟨cleared, newDepth, some base⟩

def makeFrame (arguments locals : UInt8) (s : Stack) : Option (Result Unit) := do
  match ← pop s with
  | .error e t => return .error e t
  | .ok (.number place) t => openFrame ⟨.ofInt place.toInt32, arguments, locals⟩ t
  | .ok other t => return .error (.badReturnMarker other) t

def hostResult (s : Stack) (withValue : Bool) : Option Value :=
  if withValue ∧ 0 < s.depth then s.slots[s.depth - 1]? else some .nothing

def pendingResult (s : Stack) (withValue : Bool) (bodyStart : Nat) : Option (Option Value) :=
  if withValue ∧ bodyStart + 1 < s.depth then (s.slots[s.depth - 1]?).map some else some none

/-- The stack cut at a frame, with the carried value in the place of the frame. -/
def cutAt (s : Stack) (index : Nat) : Option Value → Option Stack
  | none => some ⟨s.slots, index, none⟩
  | some value => (Slots.set? s.slots index value).map fun slots => ⟨slots, index + 1, none⟩

def toHost (s : Stack) (withValue : Bool) : Option (Return × Stack) :=
  (hostResult s withValue).map fun value => (.host value, { s with depth := 0, frame := none })

def returnFromFrame (withValue : Bool) (s : Stack) : Option (Return × Stack) := do
  let current ← currentFrame s
  match s.frame, current with
  | some index, some frame =>
    if frame.returnsToHost then toHost s withValue
    else do
      let pending ← pendingResult s withValue (index + frame.reserved)
      let cut ← cutAt s index pending
      let outer ← findFrame cut
      return (.resume frame.returnTo.toInt.toNat, { cut with frame := outer })
  | _, _ => toHost s withValue

end Guarded

/-- Every index and every slice that an operation takes lies in the row. -/
structure AccessesInRange (s : Stack) : Prop where
  live : Guarded.live s = some s.live
  peek : ∀ n, Guarded.peek s n = some (s.peek n)
  top : ∀ n, Guarded.top s n = some (s.top n)
  currentFrame : Guarded.currentFrame s = some s.currentFrame
  findFrame : Guarded.findFrame s = some s.findFrame
  load : ∀ index, Guarded.load s index = some (s.load index)
  pop : Guarded.pop s = some (Stack.pop s)
  set : ∀ n value, Guarded.set n value s = some (Stack.set n value s)
  store : ∀ index value, Guarded.store index value s = some (Stack.store index value s)
  makeFrame : ∀ arguments locals,
    Guarded.makeFrame arguments locals s = some (Stack.makeFrame arguments locals s)
  returnFromFrame : ∀ withValue, Guarded.returnFromFrame withValue s = some (s.returnFromFrame withValue)

/-- The shape that every operation keeps. -/
structure Intact (capacity : Nat) (s : Stack) : Prop where
  capacity_eq : s.capacity = capacity
  depth_le : s.depth ≤ capacity
  frame_lt : ∀ index, s.frame = some index → index < capacity

variable {s : Stack} {capacity : Nat}

/-! ### Intact stacks are in range -/

namespace Intact

theorem read_eq (h : s.Intact capacity) {index : Nat} (hindex : index < capacity) :
    s.slots[index]? = some (Slots.read s.slots index) := by
  have hcapacity : s.slots.size = capacity := h.capacity_eq
  exact Slots.getElem?_eq_read (hcapacity ▸ hindex)

theorem depth_le_size (h : s.Intact capacity) : s.depth ≤ s.slots.size := by
  have hcapacity : s.slots.size = capacity := h.capacity_eq
  rw [hcapacity]
  exact h.depth_le

theorem guarded_currentFrame (h : s.Intact capacity) :
    Guarded.currentFrame s = some s.currentFrame := by
  unfold Guarded.currentFrame Stack.currentFrame
  cases hframe : s.frame with
  | none => rfl
  | some index => simp only [h.read_eq (h.frame_lt index hframe), Option.map_some]

theorem guarded_frameBelow (h : s.Intact capacity) {n : Nat} (hn : n ≤ capacity) :
    Guarded.frameBelow s n = some (s.frameBelow n) := by
  induction n with
  | zero => rfl
  | succ n ih =>
    simp only [Guarded.frameBelow, Stack.frameBelow, h.read_eq hn, ih (Nat.le_of_succ_le hn)]
    show (if _ then _ else _) = _
    split <;> rfl

theorem guarded_findFrame (h : s.Intact capacity) : Guarded.findFrame s = some s.findFrame :=
  h.guarded_frameBelow h.depth_le

theorem slot_lt (h : s.Intact capacity) {index slot : Nat} (hslot : s.localSlot index = .ok slot) :
    slot < s.slots.size := by
  have hdepth := h.depth_le_size
  unfold localSlot at hslot
  split at hslot
  · cases hslot
  · dsimp only at hslot
    split at hslot
    · cases hslot
      omega
    · cases hslot

theorem guarded_pop (h : s.Intact capacity) : Guarded.pop s = some (Stack.pop s) := by
  have hdepth := h.depth_le
  obtain ⟨slots, depth, frame⟩ := s
  cases depth with
  | zero => rfl
  | succ n =>
    have hread := h.read_eq hdepth
    simp only [Guarded.pop, Stack.pop, hread, Option.map_some]

/-- The frame, the arguments above it and the other locals all lie in the row. -/
theorem guarded_openFrame (s : Stack) (frame : Frame) :
    Guarded.openFrame frame s = some (Stack.openFrame frame s) := by
  obtain ⟨slots, depth, current⟩ := s
  simp only [Guarded.openFrame, Stack.openFrame]
  generalize hbase : depth - frame.arguments.toNat = base
  split
  · rfl
  · split
    · rfl
    · rename_i harguments hroom
      have hshift : Slots.shiftUp? slots base frame.arguments.toNat
          = some (Slots.shiftUp slots base frame.arguments.toNat) := if_pos (by omega)
      have hset : base < (Slots.shiftUp slots base frame.arguments.toNat).size := by
        rw [Slots.size_shiftUp]
        omega
      simp only [hshift, Slots.set?_eq hset, Slots.clear?, Array.size_setIfInBounds, Slots.size_shiftUp,
        Option.bind_eq_bind, Option.bind_some]
      rw [if_pos (by omega), Nat.add_sub_cancel_left]
      rfl

theorem popped (h : s.Intact capacity) {n : Nat} (hn : n ≤ s.depth) :
    Intact capacity ⟨s.slots, n, s.frame⟩ :=
  ⟨h.capacity_eq, hn.trans h.depth_le, h.frame_lt⟩

theorem guarded_makeFrame (h : s.Intact capacity) (arguments locals : UInt8) :
    Guarded.makeFrame arguments locals s = some (Stack.makeFrame arguments locals s) := by
  rw [Guarded.makeFrame, h.guarded_pop]
  obtain ⟨slots, depth, frame⟩ := s
  cases depth with
  | zero => rfl
  | succ n =>
    have hpop : Stack.pop ⟨slots, n + 1, frame⟩ = .ok (Slots.read slots n) ⟨slots, n, frame⟩ := rfl
    simp only [Stack.makeFrame, bind, EStateM.bind, hpop, Option.bind]
    cases Slots.read slots n with
    | number place => exact guarded_openFrame _ _
    | _ => rfl

theorem guarded_hostResult (h : s.Intact capacity) (withValue : Bool) :
    Guarded.hostResult s withValue = some (s.hostResult withValue) := by
  have hdepth := h.depth_le
  unfold Guarded.hostResult Stack.hostResult Stack.peek
  cases withValue with
  | false => rfl
  | true =>
    by_cases hpos : 0 < s.depth
    · have hlt : s.depth - 1 < capacity := by omega
      simp [hpos, h.read_eq hlt]
    · simp [hpos]

theorem guarded_pendingResult (h : s.Intact capacity) (withValue : Bool) (bodyStart : Nat) :
    Guarded.pendingResult s withValue bodyStart = some (s.pendingResult withValue bodyStart) := by
  have hdepth := h.depth_le
  unfold Guarded.pendingResult Stack.pendingResult
  by_cases habove : bodyStart + 1 < s.depth
  · have hlt : s.depth - 1 < capacity := by omega
    have hread := h.read_eq hlt
    cases withValue with
    | false => simp
    | true => simp [habove, hread]
  · simp [habove]

theorem guarded_toHost (h : s.Intact capacity) (withValue : Bool) :
    Guarded.toHost s withValue = some (returnFromFrame.toHost withValue s) := by
  rw [Guarded.toHost, h.guarded_hostResult]
  rfl

/-- The stack cut at a frame, with the carried value in the place of the frame. -/
def cut (s : Stack) (index : Nat) : Option Value → Stack
  | none => ⟨s.slots, index, none⟩
  | some value => ⟨s.slots.setIfInBounds index value, index + 1, none⟩

theorem intact_cut (h : s.Intact capacity) {index : Nat} (hindex : index < capacity)
    (pending : Option Value) : Intact capacity (cut s index pending) := by
  have hsize : s.slots.size = capacity := h.capacity_eq
  cases pending with
  | none => exact ⟨hsize, hindex.le, by simp [cut]⟩
  | some value =>
    refine ⟨?_, hindex, by simp [cut]⟩
    rw [Stack.capacity, cut, Array.size_setIfInBounds]
    exact hsize

theorem guarded_cutAt (h : s.Intact capacity) {index : Nat} (hindex : index < capacity)
    (pending : Option Value) : Guarded.cutAt s index pending = some (cut s index pending) := by
  have hsize : s.slots.size = capacity := h.capacity_eq
  cases pending with
  | none => rfl
  | some value =>
    rw [Guarded.cutAt, Slots.set?_eq (hsize ▸ hindex)]
    rfl

/-- A return either goes to the host or cuts the stack at the frame of the running call. -/
theorem returnFromFrame_cases (s : Stack) (withValue : Bool) :
    (s.returnFromFrame withValue = returnFromFrame.toHost withValue s ∧
      ∀ index frame, s.frame = some index → s.currentFrame = some frame → frame.returnsToHost = true) ∨
    ∃ index frame, s.frame = some index ∧ s.currentFrame = some frame ∧ frame.returnsToHost = false ∧
      s.returnFromFrame withValue = (.resume frame.returnTo.toInt.toNat,
        { cut s index (s.pendingResult withValue (index + frame.reserved)) with
          frame := (cut s index (s.pendingResult withValue (index + frame.reserved))).findFrame }) := by
  unfold Stack.returnFromFrame
  cases hframe : s.frame with
  | none => exact .inl ⟨rfl, by simp⟩
  | some index =>
    cases hcurrent : s.currentFrame with
    | none => exact .inl ⟨rfl, by simp⟩
    | some frame =>
      cases hhost : frame.returnsToHost with
      | true => exact .inl ⟨by simp [hhost], by simpa using hhost⟩
      | false =>
        refine .inr ⟨index, frame, rfl, rfl, hhost, ?_⟩
        simp only [hhost, Bool.false_eq_true, if_false]
        cases s.pendingResult withValue (index + frame.reserved) <;> rfl

theorem guarded_returnFromFrame (h : s.Intact capacity) (withValue : Bool) :
    Guarded.returnFromFrame withValue s = some (s.returnFromFrame withValue) := by
  rw [Guarded.returnFromFrame, h.guarded_currentFrame]
  obtain ⟨hreturn, hhost⟩ | ⟨index, frame, hframe, hcurrent, hhost, hreturn⟩ :=
    returnFromFrame_cases s withValue
  · rw [hreturn, ← h.guarded_toHost]
    cases hframe : s.frame with
    | none => rfl
    | some index =>
      cases hcurrent : s.currentFrame with
      | none => rfl
      | some frame => simp [hhost index frame hframe hcurrent]
  · have hindex := h.frame_lt index hframe
    have hpending := h.guarded_pendingResult withValue (index + frame.reserved)
    simp only [hreturn, hframe, hcurrent, hhost, hpending, h.guarded_cutAt hindex,
      (h.intact_cut hindex _).guarded_findFrame, Option.bind_eq_bind, Option.bind_some,
      Bool.false_eq_true, if_false]
    rfl

/-- On an intact stack no access is out of range. -/
theorem accessesInRange (h : s.Intact capacity) : s.AccessesInRange where
  live := Slots.slice?_eq (Nat.zero_le _) h.depth_le_size
  peek n := by
    have hdepth := h.depth_le
    unfold Guarded.peek Stack.peek
    split
    · have hlt : s.depth - 1 - n < capacity := by omega
      rw [h.read_eq hlt]
      rfl
    · rfl
  top n := by
    unfold Guarded.top Stack.top
    split
    · rw [Slots.slice?_eq (Nat.sub_le _ _) h.depth_le_size]
      rfl
    · rfl
  currentFrame := h.guarded_currentFrame
  findFrame := h.guarded_findFrame
  load index := by
    unfold Guarded.load Stack.load
    cases hslot : s.localSlot index with
    | error e => rfl
    | ok slot => simp only [Slots.getElem?_eq_read (h.slot_lt hslot), Option.map_some]
  pop := h.guarded_pop
  set n value := by
    have hdepth := h.depth_le_size
    by_cases hn : n < s.depth
    · have hslot : s.depth - 1 - n < s.slots.size := by omega
      simp only [Guarded.set, Stack.set, hn, if_true, Slots.set?_eq hslot, Option.map_some]
    · simp only [Guarded.set, Stack.set, hn, if_false]
  store index value := by
    unfold Guarded.store Stack.store
    cases hslot : s.localSlot index with
    | error e => rfl
    | ok slot => simp only [Slots.set?_eq (h.slot_lt hslot), Option.map_some]
  makeFrame := h.guarded_makeFrame
  returnFromFrame := h.guarded_returnFromFrame

end Intact

/-! ### Every operation keeps a stack intact -/

/-- What a host may do with the stack of a machine. -/
inductive Method where
  | operate (op : Operation)
  | makeFrame (arguments locals : UInt8)
  | returnFromFrame (withValue : Bool)
  | reset

def Method.apply : Method → Stack → Stack
  | .operate op => op.perform
  | .makeFrame arguments locals => leftBy (Stack.makeFrame arguments locals)
  | .returnFromFrame withValue => fun s => (s.returnFromFrame withValue).2
  | .reset => Stack.reset

namespace Intact

theorem empty (capacity : Nat) : Intact capacity (Stack.empty capacity) :=
  ⟨by simp [Stack.capacity, Stack.empty], Nat.zero_le _, by simp [Stack.empty]⟩

theorem write (h : s.Intact capacity) (index : Nat) (value : Value) {depth : Nat} (hdepth : depth ≤ capacity) :
    Intact capacity ⟨s.slots.setIfInBounds index value, depth, s.frame⟩ :=
  ⟨Array.size_setIfInBounds.trans h.capacity_eq, hdepth, h.frame_lt⟩

theorem operate (h : s.Intact capacity) (op : Operation) : Intact capacity (op.perform s) := by
  have hdepth := h.depth_le
  have hsize : s.slots.size = capacity := h.capacity_eq
  cases op with
  | push value =>
    simp only [Operation.perform, leftBy, Stack.push]
    by_cases hroom : s.depth < s.slots.size
    · simp only [hroom, if_true]
      exact h.write s.depth value (by omega)
    · simp only [hroom, if_false]
      exact h
  | pop =>
    obtain ⟨slots, depth, frame⟩ := s
    cases depth with
    | zero => exact h
    | succ n => exact h.popped (Nat.le_succ n)
  | drop count =>
    simp only [Operation.perform, leftBy, Stack.drop]
    by_cases hcount : count ≤ s.depth
    · simp only [hcount, if_true]
      exact h.popped (Nat.sub_le _ _)
    · simp only [hcount, if_false]
      exact h
  | set count value =>
    simp only [Operation.perform, leftBy, Stack.set]
    by_cases hcount : count < s.depth
    · simp only [hcount, if_true]
      exact h.write _ value hdepth
    · simp only [hcount, if_false]
      exact h
  | load index => exact h
  | store index value =>
    simp only [Operation.perform, leftBy, Stack.store]
    cases s.localSlot index with
    | error e => exact h
    | ok slot => exact h.write slot value hdepth

theorem openFrame (h : s.Intact capacity) (frame : Frame) : Intact capacity (leftBy (Stack.openFrame frame) s) := by
  obtain ⟨slots, depth, current⟩ := s
  have hsize : slots.size = capacity := h.capacity_eq
  simp only [leftBy, Stack.openFrame]
  by_cases harguments : depth < frame.arguments.toNat
  · simp only [harguments, if_true]
    exact h
  · by_cases hroom :
        slots.size < depth - frame.arguments.toNat + 1 + frame.arguments.toNat + frame.locals.toNat
    · simp only [harguments, hroom, if_true, if_false]
      exact h
    · simp only [harguments, hroom, if_false]
      refine ⟨?_, by simp only; omega, ?_⟩
      · simpa [Stack.capacity] using hsize
      · intro index hindex
        cases hindex
        omega

theorem makeFrame (h : s.Intact capacity) (arguments locals : UInt8) :
    Intact capacity (leftBy (Stack.makeFrame arguments locals) s) := by
  obtain ⟨slots, depth, frame⟩ := s
  cases depth with
  | zero => exact h
  | succ n =>
    have hpop : Stack.pop ⟨slots, n + 1, frame⟩ = .ok (Slots.read slots n) ⟨slots, n, frame⟩ := rfl
    have hpopped : Intact capacity ⟨slots, n, frame⟩ := h.popped (Nat.le_succ n)
    simp only [leftBy, Stack.makeFrame, bind, EStateM.bind, hpop]
    cases Slots.read slots n with
    | number place => exact hpopped.openFrame _
    | _ => exact hpopped

theorem returnFromFrame (h : s.Intact capacity) (withValue : Bool) :
    Intact capacity (s.returnFromFrame withValue).2 := by
  obtain ⟨hreturn, -⟩ | ⟨index, frame, hframe, -, -, hreturn⟩ := returnFromFrame_cases s withValue
  · rw [hreturn]
    exact ⟨h.capacity_eq, Nat.zero_le _, fun index hindex => by cases hindex⟩
  · have hcut := h.intact_cut (h.frame_lt index hframe)
      (s.pendingResult withValue (index + frame.reserved))
    rw [hreturn]
    refine ⟨hcut.capacity_eq, hcut.depth_le, ?_⟩
    intro outer houter
    exact (isFrame_of_frameBelow houter).1.trans_le hcut.depth_le

/-- No method breaks the stack. -/
theorem apply (h : s.Intact capacity) (method : Method) : Intact capacity (method.apply s) := by
  cases method with
  | operate op => exact h.operate op
  | makeFrame arguments locals => exact h.makeFrame arguments locals
  | returnFromFrame withValue => exact h.returnFromFrame withValue
  | reset =>
    have hreset := Intact.empty s.capacity
    rw [h.capacity_eq] at hreset
    rw [Method.apply, Stack.reset, h.capacity_eq]
    exact hreset

end Intact

end Stack

end ScriptMachine
