import Mathlib
import ScriptMachine.Stack
import ScriptMachine.Proofs.Outcome

/-!
# What stack operations do to the live values

Every stack that does not reach above its capacity is its live values, the values left in the slots
above them, and the current frame. Written in that form each operation is one equation between lists:
slots and indices are opened here and nowhere else. The slots above the live values are part of the
form because a return looks only at indices, so that what a call left there must be known to stay out
of sight.
-/

namespace ScriptMachine

namespace Slots

theorem read_toArray (values : List Value) (index : Nat) :
    read values.toArray index = values.getD index .nothing := by
  simp [read, Array.getD_eq_getD_getElem?]

/-- Moving values up overwrites the slot behind them and leaves a copy in front of them. -/
theorem shiftUp_toArray (front moved : List Value) (behind : Value) (rest : List Value) :
    ∃ copy, shiftUp (front ++ (moved ++ behind :: rest)).toArray front.length moved.length
      = (front ++ (copy :: (moved ++ rest))).toArray := by
  induction moved using List.reverseRecOn generalizing behind rest with
  | nil => exact ⟨behind, rfl⟩
  | append_singleton moved last ih =>
    obtain ⟨copy, hcopy⟩ := ih last (last :: rest)
    refine ⟨copy, ?_⟩
    have hread : read (front ++ (moved ++ [last] ++ behind :: rest)).toArray
        (front.length + moved.length) = last := by
      simp [read_toArray]
    have hset : (front ++ (moved ++ [last] ++ behind :: rest)).toArray.setIfInBounds
        (front.length + moved.length + 1) last = (front ++ (moved ++ last :: last :: rest)).toArray := by
      simp [List.set_append_right, Nat.add_assoc]
    rw [List.length_append, List.length_singleton, shiftUp, hread, hset, hcopy]
    simp

theorem clear_toArray (front cleared rest : List Value) :
    clear (front ++ (cleared ++ rest)).toArray front.length cleared.length
      = (front ++ (List.replicate cleared.length Value.nothing ++ rest)).toArray := by
  induction cleared generalizing front with
  | nil => rfl
  | cons first cleared ih =>
    have hset : (front ++ (first :: cleared ++ rest)).toArray.setIfInBounds front.length .nothing
        = (front ++ [Value.nothing] ++ (cleared ++ rest)).toArray := by
      simp
    have hrest := ih (front ++ [Value.nothing])
    rw [List.length_append, List.length_singleton] at hrest
    rw [List.length_cons, clear, hset, hrest, List.replicate_succ]
    simp

end Slots

namespace Stack

/-- The stack with these live values, with these values in the slots above, and with this frame. -/
def filled (live spare : List Value) (frame : Option Nat) : Stack :=
  ⟨(live ++ spare).toArray, live.length, frame⟩

variable {live spare below values above : List Value} {value : Value} {frame : Option Nat}

@[simp] theorem live_filled (live spare : List Value) (frame : Option Nat) :
    (filled live spare frame).live = live := by
  simp [filled, Stack.live, Slots.slice, List.extract]

@[simp] theorem depth_filled (live spare : List Value) (frame : Option Nat) :
    (filled live spare frame).depth = live.length :=
  rfl

@[simp] theorem frame_filled (live spare : List Value) (frame : Option Nat) :
    (filled live spare frame).frame = frame :=
  rfl

theorem live_eq_take (s : Stack) : s.live = s.slots.toList.take s.depth := by
  simp [live, Slots.slice, List.extract]

theorem exists_filled {s : Stack} (h : s.depth ≤ s.capacity) : ∃ spare, s = filled s.live spare s.frame := by
  obtain ⟨slots, depth, frame⟩ := s
  simp only [capacity] at h
  refine ⟨slots.toList.drop depth, ?_⟩
  rw [filled, live_eq_take, List.take_append_drop, List.length_take, Array.length_toList, Nat.min_eq_left h]

theorem read_filled (spare : List Value) (frame : Option Nat) {index : Nat} (h : index < below.length) :
    Slots.read (filled (below ++ above) spare frame).slots index = below[index] := by
  rw [filled, Slots.read_toArray, List.append_assoc, List.getD_eq_getElem?_getD,
    List.getElem?_append_left h, List.getElem?_eq_getElem h]
  rfl

theorem peek_eq_ok {s : Stack} {n : Nat} {v : Value} :
    s.peek n = .ok v ↔ n < s.depth ∧ Slots.read s.slots (s.depth - 1 - n) = v := by
  unfold peek
  by_cases hn : n < s.depth
  · simp [hn]
  · simp [hn]

/-! ### Values above the frame -/

theorem push_filled_nil (value : Value) (live : List Value) (frame : Option Nat) :
    push value (filled live [] frame) = .error .overflow (filled live [] frame) := by
  simp [push, filled]

theorem push_filled_cons (value : Value) (live : List Value) (old : Value) (spare : List Value)
    (frame : Option Nat) :
    push value (filled live (old :: spare) frame) = .ok () (filled (live ++ [value]) spare frame) := by
  simp [push, filled]

theorem pop_filled (live : List Value) (value : Value) (spare : List Value) (frame : Option Nat) :
    pop (filled (live ++ [value]) spare frame) = .ok value (filled live (value :: spare) frame) := by
  simp [pop, filled, Slots.read_toArray]

theorem drop_filled (live dropped spare : List Value) (frame : Option Nat) :
    drop dropped.length (filled (live ++ dropped) spare frame)
      = .ok () (filled live (dropped ++ spare) frame) := by
  simp [drop, filled]

theorem set_filled (live : List Value) (old value : Value) (top spare : List Value)
    (frame : Option Nat) :
    set top.length value (filled (live ++ old :: top) spare frame)
      = .ok () (filled (live ++ value :: top) spare frame) := by
  have hindex : (live ++ old :: top).length - 1 - top.length = live.length := by
    simp only [List.length_append, List.length_cons]
    omega
  simp only [set, filled, hindex]
  simp
  omega

/-! ### Locals -/

theorem localSlot_filled (below : List Value) (marker : Value) (above spare : List Value) {index : Nat}
    (h : index < values.length) :
    (filled (below ++ marker :: (values ++ above)) spare (some below.length)).localSlot index
      = .ok (below.length + 1 + index) := by
  have hlive : below.length + 1 + index < (below ++ marker :: (values ++ above)).length := by
    rw [List.length_append, List.length_cons, List.length_append]
    omega
  exact if_pos hlive

theorem load_filled (below : List Value) (marker : Value) (above spare : List Value) {index : Nat}
    (h : index < values.length) :
    (filled (below ++ marker :: (values ++ above)) spare (some below.length)).load index
      = .ok values[index] := by
  have hget : (below ++ marker :: (values ++ above) ++ spare)[below.length + 1 + index]?
      = some values[index] := by
    rw [List.append_assoc, List.getElem?_append_right (by omega),
      show below.length + 1 + index - below.length = index + 1 by omega, List.cons_append,
      List.getElem?_cons_succ, List.append_assoc, List.getElem?_append_left h, List.getElem?_eq_getElem h]
  rw [load, localSlot_filled below marker above spare h]
  simp only [filled, Slots.read_toArray, List.getD_eq_getElem?_getD, hget, Option.getD_some]

theorem store_filled (below : List Value) (marker value : Value) (above spare : List Value) {index : Nat}
    (h : index < values.length) :
    store index value (filled (below ++ marker :: (values ++ above)) spare (some below.length))
      = .ok () (filled (below ++ marker :: (values.set index value ++ above)) spare
          (some below.length)) := by
  rw [store, localSlot_filled below marker above spare h]
  simp [filled, Nat.add_assoc, Nat.add_comm 1, h]

/-! ### Frames -/

/-- Opening a frame succeeds exactly when the marker and the further locals find room. -/
theorem openFrame_filled (opened : Frame) (below arguments spare : List Value) (frame : Option Nat)
    (hcount : opened.arguments.toNat = arguments.length) :
    openFrame opened (filled (below ++ arguments) spare frame)
      = if spare.length < 1 + opened.locals.toNat then
          .error .overflow (filled (below ++ arguments) spare frame)
        else .ok () (filled
          (below ++ .frame opened :: (arguments ++ List.replicate opened.locals.toNat .nothing))
          (spare.drop (1 + opened.locals.toNat)) (some below.length)) := by
  have hbase : (below ++ arguments).length - arguments.length = below.length := by
    rw [List.length_append]
    omega
  have hroom : (below ++ arguments ++ spare).toArray.size
      < below.length + 1 + arguments.length + opened.locals.toNat ↔
        spare.length < 1 + opened.locals.toNat := by
    simp only [List.size_toArray, List.length_append]
    omega
  have hdepth : ¬ (below ++ arguments).length < arguments.length := by
    rw [List.length_append]
    omega
  simp only [openFrame, filled, hcount, hbase, if_neg hdepth, hroom]
  by_cases hfull : spare.length < 1 + opened.locals.toNat
  · rw [if_pos hfull, if_pos hfull]
  · rw [if_neg hfull, if_neg hfull]
    obtain ⟨old, rest, rfl⟩ : ∃ old rest, spare = old :: rest := by
      apply List.exists_cons_of_ne_nil
      rintro rfl
      simp at hfull
    obtain ⟨copy, hcopy⟩ := Slots.shiftUp_toArray below arguments old rest
    have hframe : (below ++ copy :: (arguments ++ rest)).toArray.setIfInBounds below.length
        (.frame opened) = (below ++ .frame opened :: arguments ++
          (rest.take opened.locals.toNat ++ rest.drop opened.locals.toNat)).toArray := by
      simp
    have hlocals : (rest.take opened.locals.toNat).length = opened.locals.toNat := by
      rw [List.length_take]
      simp only [List.length_cons] at hfull
      omega
    have hclear := Slots.clear_toArray (below ++ .frame opened :: arguments)
      (rest.take opened.locals.toNat) (rest.drop opened.locals.toNat)
    rw [hlocals, List.length_append, List.length_cons] at hclear
    rw [List.append_assoc, hcopy, hframe, show below.length + 1 + arguments.length
      = below.length + (arguments.length + 1) by omega, hclear]
    simp [Nat.add_comm 1]
    omega

theorem makeFrame_filled (below : List Value) (marker : Number) (spare : List Value)
    (frame : Option Nat) (arguments locals : UInt8) :
    makeFrame arguments locals (filled (below ++ [.number marker]) spare frame)
      = openFrame ⟨.ofInt marker.toInt32, arguments, locals⟩
          (filled below (.number marker :: spare) frame) := by
  show EStateM.bind pop _ _ = _
  simp only [EStateM.bind, pop_filled]

/-- A stack on which a frame was made has all of its live values in slots. -/
theorem depth_le_of_makeFrame {s t : Stack} {arguments locals : UInt8} {u : Unit}
    (h : makeFrame arguments locals s = .ok u t) : s.depth ≤ s.capacity := by
  obtain ⟨marker, popped, hpop, hopen⟩ := Outcome.bind_eq_ok.mp h
  obtain ⟨slots, depth, frame⟩ := s
  cases depth with
  | zero => exact Nat.zero_le _
  | succ depth =>
    have hpopped : popped = ⟨slots, depth, frame⟩ := by
      cases hpop
      rfl
    subst hpopped
    cases marker with
    | number place =>
      simp only [openFrame] at hopen
      split at hopen
      · cases hopen
      · split at hopen
        · cases hopen
        · simp only [capacity]
          omega
    | _ => exact absurd hopen Outcome.throw_ne_ok

theorem frameBelow_congr {s t : Stack} {d : Nat} (h : ∀ k < d, Slots.read t.slots k = Slots.read s.slots k) :
    t.frameBelow d = s.frameBelow d := by
  induction d with
  | zero => rfl
  | succ d ih =>
    rw [frameBelow, frameBelow, h d (Nat.lt_succ_self d), ih fun k hk => h k (Nat.lt_succ_of_lt hk)]

theorem isFrame_of_frameBelow {s : Stack} {d index : Nat} (h : s.frameBelow d = some index) :
    index < d ∧ (Slots.read s.slots index).isFrame = true := by
  induction d with
  | zero => cases h
  | succ d ih =>
    rw [frameBelow] at h
    split at h
    · rename_i hframe
      cases h
      exact ⟨Nat.lt_succ_self _, hframe⟩
    · obtain ⟨hlt, hframe⟩ := ih h
      exact ⟨Nat.lt_succ_of_lt hlt, hframe⟩

/-- The position of the topmost frame among values, if there is one. -/
def IsTopFrame (values : List Value) : Option Nat → Prop
  | none => ∀ v ∈ values, v.isFrame = false
  | some index => ∃ front marker back, values = front ++ .frame marker :: back ∧
      front.length = index ∧ ∀ v ∈ back, v.isFrame = false

theorem isTopFrame_marker (below : List Value) (marker : Frame) (h : ∀ v ∈ values, v.isFrame = false) :
    IsTopFrame (below ++ .frame marker :: values) (some below.length) :=
  ⟨below, marker, values, rfl, rfl, h⟩

theorem IsTopFrame.append (h : IsTopFrame values frame) (habove : ∀ v ∈ above, v.isFrame = false) :
    IsTopFrame (values ++ above) frame := by
  cases frame with
  | none =>
    intro v hv
    rcases List.mem_append.mp hv with hv | hv
    · exact h v hv
    · exact habove v hv
  | some index =>
    obtain ⟨front, marker, back, rfl, hindex, hback⟩ := h
    refine ⟨front, marker, back ++ above, by simp, hindex, ?_⟩
    intro v hv
    rcases List.mem_append.mp hv with hv | hv
    · exact hback v hv
    · exact habove v hv

/-- The search for a frame passes over everything else. -/
theorem frameBelow_append (s : Stack) (front back rest : List Value)
    (hslots : s.slots = (front ++ (back ++ rest)).toArray) (hback : ∀ v ∈ back, v.isFrame = false) :
    s.frameBelow (front.length + back.length) = s.frameBelow front.length := by
  induction back using List.reverseRecOn generalizing rest with
  | nil => rfl
  | append_singleton back last ih =>
    have hread : Slots.read s.slots (front.length + back.length) = last := by
      simp [hslots, Slots.read_toArray]
    have hlast : last.isFrame = false := hback last (by simp)
    rw [List.length_append, List.length_singleton, ← Nat.add_assoc, frameBelow, hread, hlast]
    exact ih _ (by simpa using hslots) fun v hv => hback v (by simp [hv])

theorem findFrame_filled (h : IsTopFrame live frame) (spare : List Value) (current : Option Nat) :
    (filled live spare current).findFrame = frame := by
  cases frame with
  | none =>
    have hnone := frameBelow_append (filled live spare current) [] live spare rfl h
    simpa [findFrame, frameBelow] using hnone
  | some index =>
    obtain ⟨front, marker, back, rfl, rfl, hback⟩ := h
    have hsome := frameBelow_append (filled (front ++ .frame marker :: back) spare current)
      (front ++ [.frame marker]) back spare (by simp [filled]) hback
    have hread : Slots.read (filled (front ++ .frame marker :: back) spare current).slots front.length
        = .frame marker := by
      simp [filled, Slots.read_toArray]
    rw [List.length_append, List.length_singleton, frameBelow, hread] at hsome
    simpa [findFrame, Value.isFrame, Nat.add_assoc, Nat.add_comm 1] using hsome

/-- What a return carries over: the topmost value, if one is asked for and there is one. -/
def carried (withValue : Bool) (above : List Value) : Option Value :=
  if withValue then above.getLast? else none

/-- The carried value is the top of the stack, if the stack reaches above what is reserved. -/
theorem toList_carried (withValue : Bool) (reserved above : List Value) :
    (carried withValue above).toList
      = if withValue = true ∧ reserved.length < (reserved ++ above).length then
          (reserved ++ above).getLast?.toList
        else [] := by
  rw [carried]
  by_cases habove : above = []
  · simp [habove]
  · have hreserved : reserved.length < (reserved ++ above).length := by
      have := List.length_pos_iff.mpr habove
      rw [List.length_append]
      omega
    simp only [hreserved, and_true, List.getLast?_append_of_ne_nil _ habove]
    split <;> rfl

theorem mem_of_carried {withValue : Bool} (h : carried withValue above = some value) :
    value ∈ above := by
  rw [carried] at h
  split at h
  · exact List.mem_of_getLast? h
  · simp at h

theorem pendingResult_filled (below : List Value) (marker : Value) (values above spare : List Value)
    (frame : Option Nat) (withValue : Bool) :
    (filled (below ++ marker :: (values ++ above)) spare frame).pendingResult withValue
      (below.length + values.length) = carried withValue above := by
  rw [pendingResult, carried, depth_filled]
  by_cases hvalue : withValue = true
  · rw [hvalue, Bool.true_and, if_pos rfl]
    rcases List.eq_nil_or_concat' above with rfl | ⟨front, last, rfl⟩
    · rw [if_neg]
      · rfl
      · simp only [decide_eq_true_eq, List.length_append, List.length_cons, List.length_nil]
        omega
    · have hlive : below ++ marker :: (values ++ (front ++ [last]))
          = below ++ marker :: (values ++ front) ++ [last] := by
        simp
      rw [if_pos]
      · rw [hlive]
        generalize below ++ marker :: (values ++ front) = lower
        simp [filled, Slots.read_toArray]
      · simp only [decide_eq_true_eq, List.length_append, List.length_cons, List.length_nil]
        omega
  · rw [if_neg hvalue, if_neg]
    simp [hvalue]

/-- A return to a caller leaves what was below the frame, and the carried value on top of it. -/
theorem returnFromFrame_filled (marker : Frame) (values spare : List Value) (withValue : Bool)
    (hhost : marker.returnsToHost = false) (hreserved : marker.reserved = values.length)
    (hbelow : IsTopFrame below frame) (habove : ∀ v ∈ above, v.isFrame = false) :
    ∃ rest, (filled (below ++ .frame marker :: (values ++ above)) spare (some below.length)).returnFromFrame
        withValue
      = (.resume marker.returnTo.toInt.toNat,
          filled (below ++ (carried withValue above).toList) rest frame) := by
  have hcurrent : (filled (below ++ .frame marker :: (values ++ above)) spare
      (some below.length)).currentFrame = some marker := by
    simp [currentFrame, filled, Slots.read_toArray, Value.frame?]
  have hpending := pendingResult_filled below (.frame marker) values above spare (some below.length)
    withValue
  have htop : IsTopFrame (below ++ (carried withValue above).toList) frame := by
    apply hbelow.append
    intro v hv
    exact habove v (mem_of_carried (Option.mem_toList.mp hv))
  simp only [returnFromFrame, frame_filled, hcurrent, hhost, hreserved, hpending, Bool.false_eq_true,
    if_false]
  cases hcarried : carried withValue above with
  | none =>
    rw [hcarried, Option.toList_none, List.append_nil] at htop
    have hfound := findFrame_filled htop (.frame marker :: (values ++ above) ++ spare) none
    refine ⟨.frame marker :: (values ++ above) ++ spare, ?_⟩
    simpa [filled] using hfound
  | some value =>
    rw [hcarried, Option.toList_some] at htop
    have hfound := findFrame_filled htop (values ++ above ++ spare) none
    refine ⟨values ++ above ++ spare, ?_⟩
    simpa [filled] using hfound

end Stack

end ScriptMachine
