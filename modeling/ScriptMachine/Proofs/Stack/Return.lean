import Mathlib
import ScriptMachine.Proofs.Stack.Intact

/-!
# What a return leaves of the stack

A return cuts the stack at the frame of the running call, wherever that frame is. While it is below
the top, this only takes values away. After the frame itself has been dropped, with values from below
it, the cut lies above the top, and the slots in between come back to life with what they held.

Only the methods that take values from the top can bring a stack into that state. As long as they leave
the frame of the running call alone, every return truncates.
-/

namespace ScriptMachine.Stack

variable {s t : Stack} {capacity index : Nat}

/-! ### Cutting the stack -/

/-- The second stack has the lower values of the first one, and above them at most the value that was on
top. None of its slots had been given up. -/
structure Truncates (s t : Stack) : Prop where
  values : ∃ (kept : Nat) (carried : Option Value),
    t.live = s.live.take kept ++ carried.toList ∧ ∀ v ∈ carried, s.peek 0 = .ok v
  depth_le : t.depth ≤ s.depth

/-- The running call returns to a caller, and its frame lies above the top with a slot in between. -/
def Overhangs (s : Stack) (index : Nat) : Prop :=
  s.frame = some index ∧ s.depth < index ∧
    ∃ frame, s.currentFrame = some frame ∧ frame.returnsToHost = false

theorem pendingResult_eq_some {withValue : Bool} {bodyStart : Nat} {value : Value}
    (h : s.pendingResult withValue bodyStart = some value) :
    bodyStart + 1 < s.depth ∧ s.peek 0 = .ok value := by
  unfold pendingResult at h
  split at h
  · rename_i habove
    simp only [Bool.and_eq_true, decide_eq_true_eq] at habove
    cases h
    exact ⟨habove.2, peek_eq_ok.mpr ⟨by omega, rfl⟩⟩
  · cases h

/-- A cut at a frame that is not above the top truncates. -/
theorem truncates_cut (h : s.Intact capacity) (hindex : index ≤ s.depth) {pending : Option Value}
    (hpending : ∀ v ∈ pending, index < s.depth ∧ s.peek 0 = .ok v) (frame : Option Nat) :
    Truncates s { Intact.cut s index pending with frame := frame } := by
  have hsize : s.depth ≤ s.slots.toList.length := h.depth_le_size
  have hkept : s.live.take index = s.slots.toList.take index := by
    rw [live_eq_take, List.take_take, Nat.min_eq_left hindex]
  cases pending with
  | none =>
    refine ⟨⟨index, none, ?_, by simp⟩, hindex⟩
    rw [hkept, Option.toList_none, List.append_nil]
    exact live_eq_take _
  | some value =>
    obtain ⟨hlt, htop⟩ := hpending value rfl
    refine ⟨⟨index, some value, ?_, by simpa using htop⟩, hlt⟩
    have hvalue : (s.slots.toList.set index value)[index]? = some value :=
      List.getElem?_set_self (by omega)
    rw [hkept, live_eq_take]
    simp only [Intact.cut, Array.toList_setIfInBounds]
    rw [List.take_add_one, hvalue, List.take_set_of_le (Nat.le_refl _)]

/-- On an intact stack a return truncates unless the frame of the running call overhangs. -/
theorem Intact.truncates_iff (h : s.Intact capacity) (withValue : Bool) :
    Truncates s (s.returnFromFrame withValue).2 ↔ ∀ index, ¬ s.Overhangs index := by
  obtain ⟨hreturn, hhost⟩ | ⟨index, frame, hframe, hcurrent, hresume, hreturn⟩ :=
    returnFromFrame_cases s withValue
  · have htruncates : Truncates s (s.returnFromFrame withValue).2 := by
      rw [hreturn]
      exact ⟨⟨0, none, by simp [live_eq_take, returnFromFrame.toHost], by simp⟩, Nat.zero_le _⟩
    refine iff_of_true htruncates ?_
    rintro index ⟨hframe, -, frame, hcurrent, hresume⟩
    exact absurd (hhost index frame hframe hcurrent) (by simp [hresume])
  · have hdepth : index ≤ (s.returnFromFrame withValue).2.depth := by
      rw [hreturn]
      cases s.pendingResult withValue (index + frame.reserved) with
      | none => exact Nat.le_refl _
      | some value => exact Nat.le_succ _
    constructor
    · rintro htruncates above ⟨habove, hlt, -⟩
      obtain rfl : index = above := Option.some.inj (hframe.symm.trans habove)
      exact absurd (hdepth.trans htruncates.depth_le) (Nat.not_le.mpr hlt)
    · intro hover
      have hindex : index ≤ s.depth :=
        Nat.not_lt.mp fun hlt => hover index ⟨hframe, hlt, frame, hcurrent, hresume⟩
      rw [hreturn]
      refine truncates_cut h hindex (fun v hv => ?_) _
      obtain ⟨habove, htop⟩ := pendingResult_eq_some hv
      exact ⟨by omega, htop⟩

/-- What comes back to life are the slots between the top and the frame. -/
theorem Overhangs.live_return (h : s.Overhangs index) (withValue : Bool) :
    (s.returnFromFrame withValue).2.live = s.live ++ Slots.slice s.slots s.depth index := by
  obtain ⟨hframe, hlt, frame, hcurrent, hresume⟩ := h
  obtain ⟨-, hhost⟩ | ⟨found, marker, hfound, hmarker, -, hreturn⟩ :=
    Intact.returnFromFrame_cases s withValue
  · exact absurd (hhost index frame hframe hcurrent) (by simp [hresume])
  · obtain rfl : found = index := Option.some.inj (hfound.symm.trans hframe)
    -- The frame is above the top, so that there is no value above its slots to carry over.
    cases hpending : s.pendingResult withValue (found + marker.reserved) with
    | some value => exact absurd (pendingResult_eq_some hpending).1 (by omega)
    | none =>
      rw [hreturn, hpending, live_eq_take, live_eq_take, Slots.slice, Array.toList_extract, List.extract,
        ← List.take_add, Nat.add_sub_cancel' hlt.le]
      rfl

/-! ### Methods that leave the frame alone -/

/-- The frame of the running call is below the top. -/
def Seated (s : Stack) : Prop :=
  ∀ index, s.frame = some index → index < s.depth

/-- The method does not take the frame of the running call from the top. -/
def Method.Spares (s : Stack) : Method → Prop
  | .operate .pop | .makeFrame _ _ => ∀ index, s.frame = some index → index + 1 < s.depth
  | .operate (.drop count) => ∀ index, s.frame = some index → count ≤ s.depth → index + count < s.depth
  | _ => True

namespace Seated

theorem not_overhangs (h : s.Seated) (index : Nat) : ¬ s.Overhangs index :=
  fun hover => Nat.lt_asymm (h index hover.1) hover.2.1

/-- Taking one value from above the frame leaves it where it is. -/
theorem popped {slots : Slots} {depth : Nat} {frame : Option Nat}
    (hspares : ∀ index, frame = some index → index + 1 < depth + 1) : Seated ⟨slots, depth, frame⟩ :=
  fun index hindex => Nat.lt_of_succ_lt_succ (hspares index hindex)

theorem operate (h : s.Seated) {op : Operation} (hspares : (Method.operate op).Spares s) :
    (op.perform s).Seated := by
  cases op with
  | push value =>
    simp only [Operation.perform, leftBy, Stack.push]
    by_cases hroom : s.depth < s.slots.size
    · simp only [hroom, if_true]
      exact fun index hindex => Nat.lt_succ_of_lt (h index hindex)
    · simp only [hroom, if_false]
      exact h
  | pop =>
    obtain ⟨slots, depth, frame⟩ := s
    cases depth with
    | zero => exact h
    | succ depth => exact popped hspares
  | drop count =>
    simp only [Operation.perform, leftBy, Stack.drop]
    by_cases hcount : count ≤ s.depth
    · simp only [hcount, if_true]
      exact fun index hindex => Nat.lt_sub_of_add_lt (hspares index hindex hcount)
    · simp only [hcount, if_false]
      exact h
  | set count value =>
    simp only [Operation.perform, leftBy, Stack.set]
    by_cases hcount : count < s.depth
    · simp only [hcount, if_true]
      exact h
    · simp only [hcount, if_false]
      exact h
  | load index => exact h
  | store index value =>
    simp only [Operation.perform, leftBy, Stack.store]
    cases s.localSlot index <;> exact h

/-- A new frame lies below its arguments, and so below the top. -/
theorem openFrame (h : s.Seated) (frame : Frame) : (leftBy (Stack.openFrame frame) s).Seated := by
  obtain ⟨slots, depth, current⟩ := s
  simp only [leftBy, Stack.openFrame]
  split_ifs
  · exact h
  · exact h
  · rintro index ⟨⟩
    simp only
    omega

theorem makeFrame (h : s.Seated) {arguments locals : UInt8}
    (hspares : (Method.makeFrame arguments locals).Spares s) :
    (leftBy (Stack.makeFrame arguments locals) s).Seated := by
  obtain ⟨slots, depth, frame⟩ := s
  cases depth with
  | zero => exact h
  | succ depth =>
    have hpop : Stack.pop ⟨slots, depth + 1, frame⟩ = .ok (Slots.read slots depth) ⟨slots, depth, frame⟩ :=
      rfl
    have hpopped : Seated ⟨slots, depth, frame⟩ := popped hspares
    simp only [leftBy, Stack.makeFrame, bind, EStateM.bind, hpop]
    cases Slots.read slots depth with
    | number place => exact hpopped.openFrame _
    | _ => exact hpopped

/-- A return looks for the next frame among the values that are left. -/
theorem returnFromFrame (s : Stack) (withValue : Bool) : (s.returnFromFrame withValue).2.Seated := by
  obtain ⟨hreturn, -⟩ | ⟨index, frame, -, -, -, hreturn⟩ := Intact.returnFromFrame_cases s withValue
  · rw [hreturn]
    exact fun index hindex => by cases hindex
  · rw [hreturn]
    exact fun outer houter => (isFrame_of_frameBelow houter).1

theorem apply (h : s.Seated) {method : Method} (hspares : method.Spares s) :
    (method.apply s).Seated := by
  cases method with
  | operate op => exact h.operate hspares
  | makeFrame arguments locals => exact h.makeFrame hspares
  | returnFromFrame withValue => exact returnFromFrame s withValue
  | reset => exact fun index hindex => by cases hindex

end Seated

/-! ### Every history -/

def afterMethods (methods : List Method) (s : Stack) : Stack :=
  methods.foldl (fun s method => method.apply s) s

/-- None of the methods takes the frame of the call that is running at its time. -/
def AllSpare : List Method → Stack → Prop
  | [], _ => True
  | method :: rest, s => method.Spares s ∧ AllSpare rest (method.apply s)

theorem Intact.afterMethods (h : s.Intact capacity) (methods : List Method) :
    (afterMethods methods s).Intact capacity := by
  induction methods generalizing s with
  | nil => exact h
  | cons method rest ih => exact ih (h.apply method)

theorem Seated.afterMethods (h : s.Seated) {methods : List Method} (hspare : AllSpare methods s) :
    (afterMethods methods s).Seated := by
  induction methods generalizing s with
  | nil => exact h
  | cons method rest ih => exact ih (h.apply hspare.1) hspare.2

/-- After any history of a new stack, a return truncates exactly if the frame of the running call does
not overhang. If it does, the slots up to the frame come back to life with the values that they held.
That never happens in a history in which no method takes the frame of the running call away. -/
theorem return_truncates_iff (capacity : Nat) (methods : List Method) (withValue : Bool) :
    let s := afterMethods methods (empty capacity)
    let t := (s.returnFromFrame withValue).2
    (Truncates s t ↔ ∀ index, ¬ s.Overhangs index) ∧
    (∀ index, s.Overhangs index → t.live = s.live ++ Slots.slice s.slots s.depth index) ∧
    (AllSpare methods (empty capacity) → Truncates s t) := by
  intro s t
  have hintact : s.Intact capacity := (Intact.empty capacity).afterMethods methods
  have hempty : (empty capacity).Seated := fun index hindex => by cases hindex
  refine ⟨hintact.truncates_iff withValue, fun index hover => hover.live_return withValue, fun hspare => ?_⟩
  exact (hintact.truncates_iff withValue).mpr (hempty.afterMethods hspare).not_overhangs

/-- Opens a frame above one value and drops both. -/
def droppedFrame : List Method :=
  [.operate (.push (.bool true)), .operate (.push (.number 5)), .makeFrame 0 0, .operate (.drop 2)]

/-- The return after it brings the dropped value back. -/
theorem return_revives_dropped :
    (afterMethods droppedFrame (empty 2)).live = [] ∧
    (afterMethods droppedFrame (empty 2)).returnFromFrame false
      = (.resume 5, ⟨#[.bool true, .frame ⟨5, 0, 0⟩], 1, none⟩) ∧
    ((afterMethods droppedFrame (empty 2)).returnFromFrame false).2.live = [.bool true] ∧
    ¬ Truncates (afterMethods droppedFrame (empty 2))
      ((afterMethods droppedFrame (empty 2)).returnFromFrame false).2 := by
  refine ⟨by decide, by decide, by decide, fun h => ?_⟩
  exact absurd h.depth_le (by decide)

end ScriptMachine.Stack
