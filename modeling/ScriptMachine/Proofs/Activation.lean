import Mathlib
import ScriptMachine.Proofs.Number
import ScriptMachine.Proofs.Stack

/-!
# A call keeps to its own slots

A running call owns the slots of its locals and whatever it pushes above them. As long as it touches
nothing else and every call that it makes behaves in the same way, its locals hold what it stored in
them, the slots below its frame stay as they were, and its return finds the frame of its caller
again. That the calls inside it may nest to any depth is an induction on the run: a call that has
ended left nothing behind but at most one value.
-/

namespace ScriptMachine.Stack

inductive Operation where
  | push (value : Value)
  | pop
  | drop (count : Nat)
  | set (count : Nat) (value : Value)
  | load (index : Nat)
  | store (index : Nat) (value : Value)
  deriving DecidableEq, Repr

def leftBy {α : Type} (action : Action α) (s : Stack) : Stack :=
  match action s with
  | .ok _ t => t
  | .error _ t => t

namespace Operation

def perform : Operation → Stack → Stack
  | .push value => leftBy (Stack.push value)
  | .pop => leftBy Stack.pop
  | .drop count => leftBy (Stack.drop count)
  | .set count value => leftBy (Stack.set count value)
  | .load _ => id
  | .store index value => leftBy (Stack.store index value)

/-- The operation brings no frame onto the stack, reaches no slot below `floor` but the first `size`
locals, and takes nothing away from below `floor`. -/
def Within (floor size : Nat) (s : Stack) : Operation → Prop
  | .push value => value.isFrame = false
  | .pop => floor < s.depth
  | .drop count => floor + count ≤ s.depth
  | .set count value => floor + count < s.depth ∧ value.isFrame = false
  | .load index => index < size
  | .store index value => index < size ∧ value.isFrame = false

/-- The stores of a call after the operation, the latest one first. -/
def record (stores : List (Nat × Value)) : Operation → List (Nat × Value)
  | .store index value => (index, value) :: stores
  | _ => stores

end Operation

/-- `Runs base size s stores t`: the call whose frame lies at `base`, with `size` locals above it, comes
from `s` to `t`, and `stores` are its own stores. A call that it makes takes its arguments from what
the caller has pushed, runs in the same way, and returns. -/
inductive Runs : (base size : Nat) → Stack → List (Nat × Value) → Stack → Prop where
  | start {base size : Nat} {s : Stack} : Runs base size s [] s
  | step {base size : Nat} {s t : Stack} {stores : List (Nat × Value)} {op : Operation}
      (hruns : Runs base size s stores t) (hop : op.Within (base + 1 + size) size t) :
      Runs base size s (op.record stores) (op.perform t)
  | call {base size place : Nat} {s t u v w : Stack} {stores inner : List (Nat × Value)}
      {arguments locals : UInt8} {withValue : Bool} (hruns : Runs base size s stores t)
      (harguments : base + 1 + size + arguments.toNat ≤ t.depth) (hplace : place ≤ 0x1000000)
      (hmarker : push (.number (.ofNat place)) t = .ok () u)
      (hmake : makeFrame arguments locals u = .ok () v)
      (hbody : Runs (t.depth - arguments.toNat) (arguments.toNat + locals.toNat) v inner w) :
      Runs base size s stores (w.returnFromFrame withValue).2

/-- What a call last stored in a local: at first an argument is there, or nothing. -/
def lastStored (arguments : List Value) (stores : List (Nat × Value)) (index : Nat) : Value :=
  (stores.lookup index).getD (arguments.getD index .nothing)

/-- The locals of a call after its stores, the latest one first. -/
def stored (locals : List Value) (stores : List (Nat × Value)) : List Value :=
  stores.foldr (fun store values => values.set store.1 store.2) locals

@[simp] theorem length_stored (locals : List Value) (stores : List (Nat × Value)) :
    (stored locals stores).length = locals.length := by
  induction stores with
  | nil => rfl
  | cons store stores ih =>
    rw [stored, List.foldr_cons, List.length_set]
    exact ih

theorem getElem?_stored (arguments : List Value) (stores : List (Nat × Value)) {fresh index : Nat}
    (h : index < arguments.length + fresh) :
    (stored (arguments ++ List.replicate fresh .nothing) stores)[index]?
      = some (lastStored arguments stores index) := by
  induction stores with
  | nil =>
    by_cases hargument : index < arguments.length
    · rw [stored, List.foldr_nil, List.getElem?_append_left hargument, lastStored,
        List.getD_eq_getElem _ _ hargument, List.getElem?_eq_getElem hargument]
      rfl
    · rw [stored, List.foldr_nil, List.getElem?_append_right (by omega),
        List.getElem?_replicate_of_lt (by omega), lastStored, List.getD_eq_default _ _ (by omega)]
      rfl
  | cons store stores ih =>
    have hlength := length_stored (arguments ++ List.replicate fresh .nothing) stores
    rw [List.length_append, List.length_replicate] at hlength
    rw [stored, List.foldr_cons, ← stored, List.getElem?_set, lastStored, List.lookup_cons]
    by_cases hindex : store.1 = index
    · simp [hindex, hlength, h]
    · rw [if_neg hindex, ih, lastStored, beq_false_of_ne (Ne.symm hindex)]

/-- The call with this frame on top of `below` is running, with these values in its locals. -/
def Running (below : List Value) (marker : Frame) (locals : List Value) (s : Stack) : Prop :=
  ∃ operands spare, s = filled (below ++ .frame marker :: (locals ++ operands)) spare (some below.length) ∧
    (∀ v ∈ locals, v.isFrame = false) ∧ ∀ v ∈ operands, v.isFrame = false

variable {below locals : List Value} {marker : Frame} {s t : Stack}

/-- The topmost values of a list, and those below them. -/
theorem exists_top (values : List Value) {count : Nat} (h : count ≤ values.length) :
    ∃ front back, values = front ++ back ∧ back.length = count := by
  refine ⟨values.take (values.length - count), values.drop (values.length - count), by simp, ?_⟩
  rw [List.length_drop]
  omega

theorem Running.push (h : Running below marker locals s) {value : Value} (hvalue : value.isFrame = false) :
    Running below marker locals (leftBy (Stack.push value) s) := by
  obtain ⟨operands, spare, rfl, hlocals, hoperands⟩ := h
  by_cases hfull : spare = []
  · subst hfull
    rw [leftBy, push_filled_nil]
    exact ⟨operands, [], rfl, hlocals, hoperands⟩
  · obtain ⟨old, spare, rfl⟩ := List.exists_cons_of_ne_nil hfull
    rw [leftBy, push_filled_cons]
    refine ⟨operands ++ [value], spare, by simp, hlocals, ?_⟩
    rw [List.forall_mem_append]
    exact ⟨hoperands, List.forall_mem_singleton.mpr hvalue⟩

theorem Running.drop (h : Running below marker locals s) {count : Nat}
    (hcount : below.length + 1 + locals.length + count ≤ s.depth) :
    Running below marker locals (leftBy (Stack.drop count) s) := by
  obtain ⟨operands, spare, rfl, hlocals, hoperands⟩ := h
  simp only [depth_filled, List.length_append, List.length_cons] at hcount
  obtain ⟨kept, dropped, rfl, rfl⟩ := exists_top operands (show count ≤ operands.length by omega)
  have hdrop := drop_filled (below ++ .frame marker :: (locals ++ kept)) dropped spare (some below.length)
  rw [List.append_assoc, List.cons_append, List.append_assoc] at hdrop
  rw [leftBy, hdrop]
  exact ⟨kept, _, rfl, hlocals, (List.forall_mem_append.mp hoperands).1⟩

theorem leftBy_pop (s : Stack) : leftBy Stack.pop s = leftBy (Stack.drop 1) s := by
  obtain ⟨slots, depth, frame⟩ := s
  cases depth <;> rfl

theorem Running.set (h : Running below marker locals s) {count : Nat} {value : Value}
    (hcount : below.length + 1 + locals.length + count < s.depth) (hvalue : value.isFrame = false) :
    Running below marker locals (leftBy (Stack.set count value) s) := by
  obtain ⟨operands, spare, rfl, hlocals, hoperands⟩ := h
  simp only [depth_filled, List.length_append, List.length_cons] at hcount
  obtain ⟨front, top, rfl, htop⟩ := exists_top operands (show count + 1 ≤ operands.length by omega)
  obtain ⟨old, back, rfl⟩ := List.exists_cons_of_length_eq_add_one htop
  have hset := set_filled (below ++ .frame marker :: (locals ++ front)) old value back spare
    (some below.length)
  rw [Nat.succ.inj htop, List.append_assoc, List.cons_append, List.append_assoc] at hset
  rw [leftBy, hset]
  refine ⟨front ++ value :: back, spare, by simp, hlocals, ?_⟩
  rw [List.forall_mem_append, List.forall_mem_cons] at hoperands ⊢
  exact ⟨hoperands.1, hvalue, hoperands.2.2⟩

theorem Running.store (h : Running below marker locals s) {index : Nat} {value : Value}
    (hindex : index < locals.length) (hvalue : value.isFrame = false) :
    Running below marker (locals.set index value) (leftBy (Stack.store index value) s) := by
  obtain ⟨operands, spare, rfl, hlocals, hoperands⟩ := h
  rw [leftBy, store_filled _ _ _ _ _ hindex]
  refine ⟨operands, spare, rfl, ?_, hoperands⟩
  intro v hv
  rcases List.mem_or_eq_of_mem_set hv with hv | rfl
  · exact hlocals v hv
  · exact hvalue

theorem Running.load (h : Running below marker locals s) {index : Nat} (hindex : index < locals.length) :
    s.load index = .ok locals[index] := by
  obtain ⟨operands, spare, rfl, -, -⟩ := h
  exact load_filled _ _ _ _ hindex

/-- An operation of a running call changes its locals by what it stores, and nothing below them. -/
theorem Running.step {arguments : List Value} {stores : List (Nat × Value)} {op : Operation}
    (h : Running below marker (stored arguments stores) s)
    (hop : op.Within (below.length + 1 + arguments.length) arguments.length s) :
    Running below marker (stored arguments (op.record stores)) (op.perform s) := by
  rw [← length_stored arguments stores] at hop
  cases op with
  | push value => exact h.push hop
  | pop =>
    show Running _ _ _ (leftBy Stack.pop s)
    rw [leftBy_pop]
    exact h.drop hop
  | drop count => exact h.drop hop
  | set count value => exact h.set hop.1 hop.2
  | load index => exact h
  | store index value => exact h.store hop.1 hop.2

/-! ### Entering and leaving a call -/

/-- The frame of a call that returns to a place in the code. -/
def callFrame (place : Nat) (arguments locals : UInt8) : Frame :=
  ⟨.ofInt place, arguments, locals⟩

theorem toInt_callFrame {place : Nat} (hplace : place ≤ 0x1000000) (arguments locals : UInt8) :
    (callFrame place arguments locals).returnTo.toInt = place := by
  rw [callFrame, Int32.toInt_ofInt_of_le] <;> omega

theorem returnsToHost_callFrame {place : Nat} (hplace : place ≤ 0x1000000) (arguments locals : UInt8) :
    (callFrame place arguments locals).returnsToHost = false := by
  rw [Frame.returnsToHost, toInt_callFrame hplace, decide_eq_false_iff_not]
  omega

/-- A frame that is made over arguments that are no frames starts a running call. -/
theorem running_makeFrame {arguments spare : List Value} {frame : Option Nat} {count further : UInt8}
    {place : Nat} (hplace : place ≤ 0x1000000) (hcount : count.toNat = arguments.length)
    (harguments : ∀ v ∈ arguments, v.isFrame = false)
    (h : makeFrame count further (filled (below ++ arguments ++ [.number (.ofNat place)]) spare frame)
      = .ok () t) :
    Running below (callFrame place count further)
      (arguments ++ List.replicate further.toNat .nothing) t := by
  rw [makeFrame_filled, openFrame_filled _ _ _ _ _ hcount, Number.toInt32_ofNat_of_le hplace] at h
  split at h
  · simp at h
  · cases h
    refine ⟨[], _, by rw [List.append_nil]; rfl, ?_, by simp⟩
    rw [List.forall_mem_append]
    refine ⟨harguments, ?_⟩
    intro v hv
    rw [(List.mem_replicate.mp hv).2]
    rfl

/-- A running call returns to its caller, whose frame is the topmost one below. -/
theorem Running.returns {place : Nat} {count further : UInt8} {frame : Option Nat}
    (h : Running below (callFrame place count further) locals s) (hplace : place ≤ 0x1000000)
    (hsize : count.toNat + further.toNat = locals.length) (hbelow : IsTopFrame below frame)
    (withValue : Bool) :
    ∃ operands spare rest,
      s = filled (below ++ .frame (callFrame place count further) :: (locals ++ operands)) spare
        (some below.length) ∧
      (∀ v ∈ operands, v.isFrame = false) ∧
      s.returnFromFrame withValue
        = (.resume place, filled (below ++ (carried withValue operands).toList) rest frame) := by
  obtain ⟨operands, spare, rfl, -, hoperands⟩ := h
  obtain ⟨rest, hreturn⟩ := returnFromFrame_filled _ locals spare withValue
    (returnsToHost_callFrame hplace count further) hsize hbelow hoperands
  refine ⟨operands, spare, rest, rfl, hoperands, ?_⟩
  rw [hreturn, toInt_callFrame hplace]
  rfl

/-- Whatever a running call does in its own slots, and however deep its calls nest, it goes on running
with its own stores in its locals. -/
theorem Runs.running {base size : Nat} {stores : List (Nat × Value)} (h : Runs base size s stores t)
    {arguments : List Value} (hs : Running below marker arguments s) (hbase : base = below.length)
    (hsize : size = arguments.length) : Running below marker (stored arguments stores) t := by
  induction h generalizing below marker arguments with
  | start => exact hs
  | step hruns hop ih =>
    subst hbase hsize
    exact (ih hs rfl rfl).step hop
  | @call base size place s t u v w stores inner count further withValue hruns harguments hplace
      hmarker hmake hbody ih ihbody =>
    subst hbase hsize
    obtain ⟨operands, spare, rfl, hlocals, hoperands⟩ := ih hs rfl rfl
    rw [depth_filled] at harguments hbody ihbody
    simp only [List.length_append, List.length_cons, length_stored] at harguments
    obtain ⟨kept, taken, rfl, htaken⟩ := exists_top operands
      (show count.toNat ≤ operands.length by omega)
    obtain ⟨hkept, hplain⟩ := List.forall_mem_append.mp hoperands
    have hunder : below ++ .frame marker :: (stored arguments stores ++ (kept ++ taken))
        = below ++ .frame marker :: (stored arguments stores ++ kept) ++ taken := by
      simp
    -- What the caller keeps lies below the frame of the call, its own frame topmost there.
    have htop : IsTopFrame (below ++ .frame marker :: (stored arguments stores ++ kept))
        (some below.length) := by
      apply isTopFrame_marker
      rw [List.forall_mem_append]
      exact ⟨hlocals, hkept⟩
    rw [hunder] at hmarker ihbody
    obtain ⟨old, spare, rfl⟩ : ∃ old rest, spare = old :: rest := by
      apply List.exists_cons_of_ne_nil
      rintro rfl
      simp [push_filled_nil] at hmarker
    rw [push_filled_cons] at hmarker
    cases hmarker
    have hentered := running_makeFrame hplace htaken.symm hplain hmake
    have hinner := ihbody hentered (by rw [List.length_append, ← htaken, Nat.add_sub_cancel])
      (by rw [List.length_append, List.length_replicate, htaken])
    obtain ⟨above, -, rest, -, habove, hreturn⟩ := hinner.returns hplace
      (by rw [length_stored, List.length_append, List.length_replicate, htaken]) htop withValue
    rw [hreturn]
    refine ⟨kept ++ (carried withValue above).toList, rest, by simp, hlocals, ?_⟩
    rw [List.forall_mem_append]
    refine ⟨hkept, ?_⟩
    intro v hv
    exact habove v (mem_of_carried (Option.mem_toList.mp hv))

/-- A call keeps to itself: at every point of its run each local holds what the call last stored there
and the slots below its frame are as they were, and a return leads back to the marker, leaves at most
one value and makes the frame of the caller the current one. -/
theorem call_keeps_to_itself {s t u : Stack} {below arguments : List Value} {place : Nat}
    {count further : UInt8} {stores : List (Nat × Value)}
    (hlive : s.live = below ++ arguments ++ [.number (.ofNat place)]) (hplace : place ≤ 0x1000000)
    (hframe : IsTopFrame below s.frame) (harguments : ∀ v ∈ arguments, v.isFrame = false)
    (hcount : count.toNat = arguments.length) (hmake : makeFrame count further s = .ok () t)
    (hruns : Runs below.length (arguments.length + further.toNat) t stores u) :
    (∀ index < arguments.length + further.toNat,
      u.load index = .ok (lastStored arguments stores index)) ∧
    (∀ index < below.length, Slots.read u.slots index = Slots.read s.slots index) ∧
    ∀ withValue, ∃ v, u.returnFromFrame withValue = (.resume place, v) ∧
      v.live = below ++ (if withValue = true ∧ below.length + 1 + (arguments.length + further.toNat) < u.depth
        then u.live.getLast?.toList else []) ∧
      v.frame = s.frame := by
  obtain ⟨spare, hs⟩ := exists_filled (depth_le_of_makeFrame hmake)
  rw [hlive] at hs
  rw [hs] at hmake
  have hsize : (arguments ++ List.replicate further.toNat Value.nothing).length
      = arguments.length + further.toNat := by
    rw [List.length_append, List.length_replicate]
  have hrunning := hruns.running (running_makeFrame hplace hcount harguments hmake) rfl hsize.symm
  refine ⟨?_, ?_, ?_⟩
  · intro index hindex
    have hlocal : index < (stored (arguments ++ List.replicate further.toNat .nothing) stores).length := by
      rw [length_stored, hsize]
      exact hindex
    rw [hrunning.load hlocal]
    have hstored := getElem?_stored arguments stores hindex
    rw [List.getElem?_eq_getElem hlocal] at hstored
    rw [Option.some.inj hstored]
  · intro index hindex
    obtain ⟨operands, rest, rfl, -, -⟩ := hrunning
    rw [hs, List.append_assoc, read_filled _ _ hindex, read_filled _ _ hindex]
  · intro withValue
    obtain ⟨operands, spare, rest, hu, -, hreturn⟩ := hrunning.returns hplace
      (by rw [length_stored, hsize, hcount]) hframe withValue
    have hcarried := toList_carried withValue (below ++ .frame (callFrame place count further) ::
      stored (arguments ++ List.replicate further.toNat .nothing) stores) operands
    have hreserved : (below ++ .frame (callFrame place count further) ::
        stored (arguments ++ List.replicate further.toNat .nothing) stores).length
        = below.length + 1 + (arguments.length + further.toNat) := by
      rw [List.length_append, List.length_cons, length_stored, hsize]
      omega
    rw [hreserved, List.append_assoc, List.cons_append] at hcarried
    refine ⟨_, hreturn, ?_, frame_filled _ _ _⟩
    rw [live_filled, hcarried, hu, live_filled, depth_filled]

/-- A call of the host with one local and one operand has pushed two arguments and a marker. -/
def sampleStack : Stack :=
  filled [.frame ⟨-1, 0, 1⟩, .bool true, .char 'o', .number 5, .number 6, .number 17]
    (List.replicate 12 .nothing) (some 0)

/-- The call has stored to its further local and has pushed two arguments for a call of itself. -/
def sampleCaller : Stack :=
  [.store 2 (.char 'x'), .push (.number 4), .push (.number 3)].foldl (fun s op => Operation.perform op s)
    (leftBy (makeFrame 2 1) sampleStack)

/-- The inner call has stored to its first argument and has pushed a result. -/
def sampleCallee : Stack :=
  [.store 0 (.char 'y'), .push (.char 'z')].foldl (fun s op => Operation.perform op s)
    (leftBy (makeFrame 2 1) (leftBy (push (.number (.ofNat 9))) sampleCaller))

theorem runs_sampleStack :
    Runs 3 3 (leftBy (makeFrame 2 1) sampleStack) [(2, .char 'x')]
      (sampleCallee.returnFromFrame true).2 := by
  have hstart : Runs 3 3 (leftBy (makeFrame 2 1) sampleStack) [] (leftBy (makeFrame 2 1) sampleStack) :=
    .start
  have hstored := hstart.step (show Operation.Within 7 3 _ (.store 2 (.char 'x')) from ⟨by decide, rfl⟩)
  have hcaller : Runs 3 3 (leftBy (makeFrame 2 1) sampleStack) [(2, .char 'x')] sampleCaller :=
    (hstored.step (show Operation.Within 7 3 _ (.push (.number 4)) from rfl)).step
      (show Operation.Within 7 3 _ (.push (.number 3)) from rfl)
  have hentered : Runs 7 3 (leftBy (makeFrame 2 1) (leftBy (push (.number (.ofNat 9))) sampleCaller)) []
      (leftBy (makeFrame 2 1) (leftBy (push (.number (.ofNat 9))) sampleCaller)) :=
    .start
  have hoverwritten := hentered.step
    (show Operation.Within 11 3 _ (.store 0 (.char 'y')) from ⟨by decide, rfl⟩)
  have hcallee : Runs 7 3 (leftBy (makeFrame 2 1) (leftBy (push (.number (.ofNat 9))) sampleCaller))
      [(0, .char 'y')] sampleCallee :=
    hoverwritten.step (show Operation.Within 11 3 _ (.push (.char 'z')) from rfl)
  exact @Runs.call 3 3 9 _ sampleCaller _ _ sampleCallee _ _ 2 1 true hcaller (by decide) (by decide) rfl
    rfl hcallee

theorem call_keeps_to_itself_sample : ∃ u, Runs 3 3 (leftBy (makeFrame 2 1) sampleStack) [(2, .char 'x')] u ∧
    u.load 0 = .ok (.number 5) ∧ u.load 2 = .ok (.char 'x') ∧ ∃ v,
      u.returnFromFrame true = (.resume 17, v) ∧
        v.live = [.frame ⟨-1, 0, 1⟩, .bool true, .char 'o', .char 'z'] ∧ v.frame = some 0 := by
  have hsample : sampleStack.live = [.frame ⟨-1, 0, 1⟩, .bool true, .char 'o']
      ++ [.number 5, .number 6] ++ [.number (.ofNat 17)] := by
    rw [sampleStack, live_filled]
    rfl
  have hframe : IsTopFrame [.frame ⟨-1, 0, 1⟩, .bool true, .char 'o'] sampleStack.frame :=
    isTopFrame_marker [] ⟨-1, 0, 1⟩ (by decide)
  obtain ⟨hload, -, hreturn⟩ := call_keeps_to_itself hsample (by decide) hframe (by decide)
    (show (2 : UInt8).toNat = 2 from rfl) (show makeFrame 2 1 sampleStack = .ok () _ from rfl)
    runs_sampleStack
  obtain ⟨v, hv, hlive, hcurrent⟩ := hreturn true
  refine ⟨_, runs_sampleStack, hload 0 (by decide), hload 2 (by decide), v, hv, ?_, hcurrent⟩
  rw [hlive]
  rfl

end ScriptMachine.Stack
