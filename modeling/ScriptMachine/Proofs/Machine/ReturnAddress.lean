import Mathlib
import ScriptMachine.Proofs.Machine.Steering
import ScriptMachine.Proofs.Number
import ScriptMachine.Proofs.Relocation
import ScriptMachine.Proofs.Stack

/-!
# Where a call comes back to

A call leaves the place behind it as a number on the stack. The frame that is opened over this number
keeps it as a signed word, and the return takes the place from there. A number holds twenty-four bits
and the word reaches to `2 ^ 31`, while the linker accepts any code that unsigned words address. So
every call in code of up to `2 ^ 24` bytes comes back to the instruction behind it, and in longer code
some calls come back elsewhere.
-/

namespace ScriptMachine

namespace Stack

variable {s : Stack} {d : Nat}

theorem makeFrame_none {slots : Slots} {frame : Option Nat} {marker : Number} (hroom : d < slots.size)
    (htop : Slots.read slots d = .number marker) :
    makeFrame 0 0 ⟨slots, d + 1, frame⟩
      = .ok () ⟨slots.setIfInBounds d (.frame ⟨.ofInt marker.toInt32, 0, 0⟩), d + 1, some d⟩ := by
  have hpop : pop ⟨slots, d + 1, frame⟩ = .ok (.number marker) ⟨slots, d, frame⟩ := by
    rw [← htop]
    rfl
  rw [makeFrame, Outcome.bind_of_ok hpop]
  simp [openFrame, Slots.shiftUp, Slots.clear, Nat.not_lt.mpr hroom]

theorem returnFromFrame_false {marker : Frame} (hframe : s.frame = some d)
    (hmarker : Slots.read s.slots d = .frame marker) (hhost : marker.returnsToHost = false) :
    s.returnFromFrame false
      = (.resume marker.returnTo.toInt.toNat, ⟨s.slots, d, s.frameBelow d⟩) := by
  have hcurrent : s.currentFrame = some marker := by simp [currentFrame, hframe, hmarker, Value.frame?]
  simp only [returnFromFrame, hframe, hcurrent, hhost]
  exact congrArg (fun frame => (_, Stack.mk s.slots d frame)) (frameBelow_congr fun _ _ => rfl)

end Stack

namespace Check

variable {stack : Stack}

theorem after_iff : after stack = .ok () ↔ stack.depth ≤ stack.capacity ∧
    ∀ index, stack.frame = some index →
      index < stack.depth ∧ (Slots.read stack.slots index).isFrame = true := by
  rw [after]
  by_cases hdepth : stack.capacity < stack.depth
  · simp [hdepth]
  · cases hframe : stack.frame with
    | none => simp [hdepth, Nat.not_lt.mp hdepth]
    | some index => simp [hdepth, Nat.not_lt.mp hdepth]

end Check

namespace Machine

open Outcome

variable {program : Program} {env : Environment} {validate : Bool} {i : Instruction} {m : Machine} {d : Nat}

theorem fetch_eq_ok {place : Nat} (h : fetch program place = .ok i) :
    Instruction.decodeAt program.code place = .ok i := by
  unfold fetch at h
  split at h
  · cases h
  · split at h
    · rename_i hdecode
      cases h
      exact hdecode
    · cases h

/-! ### The three instructions -/

/-- The machine with so many values on its stack, the frame of a call on top of them and nothing above
it. -/
def withFrame (m : Machine) (depth : Nat) (frame : Frame) : Machine :=
  ⟨⟨m.stack.slots.setIfInBounds depth (.frame frame), depth + 1, some depth⟩, m.heap, m.events⟩

theorem capacity_withFrame (m : Machine) (depth : Nat) (frame : Frame) :
    (m.withFrame depth frame).stack.capacity = m.stack.capacity :=
  Array.size_setIfInBounds

theorem read_withFrame (h : d < m.stack.capacity) (frame : Frame) :
    Slots.read (m.withFrame d frame).stack.slots d = .frame frame :=
  (Slots.read_set _ _ _ _).trans (if_pos ⟨rfl, h⟩)

/-- The machine whose call at a depth has ended without a value. -/
def backAt (m : Machine) (depth : Nat) : Machine :=
  ⟨⟨m.stack.slots, depth, m.stack.frameBelow depth⟩, m.heap, m.events⟩

/-- The check after an instruction still accepts a stack when a value comes on top. -/
theorem Pushes.after {n : Machine} {value : Value} (h : m.Pushes value n)
    (hroom : m.stack.depth < m.stack.capacity) (hafter : Check.after m.stack = .ok ()) :
    Check.after n.stack = .ok () := by
  have hdepth := h.depth
  have hcapacity := h.capacity
  obtain ⟨-, hframe⟩ := Check.after_iff.mp hafter
  refine Check.after_iff.mpr ⟨by omega, fun index hindex => ?_⟩
  obtain ⟨hlive, hmarker⟩ := hframe index (h.frame.symm.trans hindex)
  exact ⟨by omega, by rw [h.below index hlive]; exact hmarker⟩

theorem passes_call (hfetch : fetch program i.offset = .ok i) (hop : i.op = .call)
    (hopens : program.opensFrameAt i.first.toNat = true) (hroom : m.stack.depth < m.stack.capacity)
    (hafter : validate = true → Check.after m.stack = .ok ()) :
    Passes program env validate [i.offset] i.offset m i.first.toNat
      (m.withResult m.stack.depth (.number (.ofNat i.nextOffset))) := by
  have htarget : i.first.toNat < program.code.size :=
    (Array.getElem?_eq_some_iff.mp (eq_of_beq hopens)).1
  have hbefore : Check.before m.stack program env i = .ok () := by
    rw [Check.before_of_address (by rw [hop]; rfl) htarget, Check.operation, hop]
    exact if_pos hopens
  have hstep : step program env i m
      = .ok (.jump i.first.toNat) (m.withResult m.stack.depth (.number (.ofNat i.nextOffset))) := by
    unfold step
    rw [hop]
    dsimp only
    rw [bind_of_ok (push_eq _ hroom)]
    rfl
  refine .single ?_
  rw [cycle_of_before hfetch fun _ => hbefore, perform_jump hstep, continueAt_of_after]
  intro hvalidate
  exact ((Above.refl m).pushes hroom _).after hroom (hafter hvalidate)

theorem passes_makeFrame_none (hfetch : fetch program i.offset = .ok i) (hop : i.op = .makeFrame)
    (hfirst : i.first = 0) (hsecond : i.second = 0) {marker : Number} (hdepth : m.stack.depth = d + 1)
    (hroom : d < m.stack.capacity) (htop : Slots.read m.stack.slots d = .number marker) :
    Passes program env validate [i.offset] i.offset m i.nextOffset
      (m.withFrame d ⟨.ofInt marker.toInt32, 0, 0⟩) := by
  have hbefore : Check.before m.stack program env i = .ok () := by
    have hmarker : Check.typed m.stack 0 "return address" (·.number?.isSome) = .ok () :=
      Check.typed_top hdepth (by rw [htop]; rfl)
    simp [Check.before, Check.operands, Check.operation, hop, Opcode.operands, Check.operand, hfirst,
      hsecond, Check.byte, hmarker, Check.depth, hdepth, bind, Except.bind, pure, Except.pure]
  have hstep : step program env i m = .ok .next (m.withFrame d ⟨.ofInt marker.toInt32, 0, 0⟩) := by
    have hmake : onStack (Stack.makeFrame 0 0) m
        = .ok () (m.withFrame d ⟨.ofInt marker.toInt32, 0, 0⟩) := by
      obtain ⟨⟨slots, _, frame⟩, heap, events⟩ := m
      cases hdepth
      simp only [onStack, Stack.makeFrame_none hroom htop]
      rfl
    unfold step
    rw [hop]
    simp only [hfirst, hsecond, byteOperand, thenNext]
    exact bind_of_ok hmake
  refine .single ?_
  rw [cycle_of_before hfetch fun _ => hbefore, perform_ok hstep, continueAt_of_after]
  intro _
  exact Check.after_of_frame ((m.capacity_withFrame d _).symm ▸ hroom) rfl (Nat.lt_succ_self d)
    (read_withFrame hroom _)

theorem passes_returnNothing (hfetch : fetch program i.offset = .ok i) (hop : i.op = .returnNothing)
    {marker : Frame} (hframe : m.stack.frame = some d) (hroom : d ≤ m.stack.capacity)
    (hmarker : Slots.read m.stack.slots d = .frame marker) (hhost : marker.returnsToHost = false) :
    Passes program env validate [i.offset] i.offset m marker.returnTo.toInt.toNat (m.backAt d) := by
  have hbefore : Check.before m.stack program env i = .ok () := by
    rw [Check.before_of_operandCount (by rw [hop]; rfl), Check.operation, hop]
  have hstep : step program env i m = .ok (.jump marker.returnTo.toInt.toNat) (m.backAt d) := by
    unfold step
    rw [hop]
    simp only [leaveCall, Stack.returnFromFrame_false hframe hmarker hhost]
    rfl
  refine .single ?_
  rw [cycle_of_before hfetch fun _ => hbefore, perform_jump hstep, continueAt_of_after]
  intro _
  refine Check.after_iff.mpr ⟨hroom, fun index hindex => ?_⟩
  exact Stack.isFrame_of_frameBelow (s := m.stack) hindex

/-! ### A call from beginning to end -/

/-- A call of a function that opens a frame without arguments and locals and returns at once. -/
structure CallsEmpty (program : Program) (call enter leave : Instruction) : Prop where
  calls : fetch program call.offset = .ok call
  call_op : call.op = .call
  enters : fetch program call.first.toNat = .ok enter
  enter_op : enter.op = .makeFrame
  arguments : enter.first = 0
  locals : enter.second = 0
  leaves : fetch program enter.nextOffset = .ok leave
  leave_op : leave.op = .returnNothing

variable {call enter leave : Instruction} {place : Nat}

/-- Where a call comes back to when the instruction behind it is at a place. -/
def resumePlace (place : Nat) : Nat :=
  (Number.ofNat place).toInt32.toNat

theorem resumePlace_eq_iff (h : place.log2 ≤ 63) : resumePlace place = place ↔
    place < 0x80000000 ∧ 2 ^ (place.log2 - 23) ∣ place ∨ place = 0x7fffffff := by
  rw [← Number.toInt32_ofNat_eq_iff h, resumePlace]
  have := (Number.toInt32_ofNat_bounds h).1
  omega

/-- The frame of an empty call in front of a place. -/
def resumeFrame (place : Nat) : Frame :=
  ⟨.ofInt (Number.ofNat place).toInt32, 0, 0⟩

theorem toInt_resumeFrame (h : place.log2 ≤ 63) :
    (resumeFrame place).returnTo.toInt = (Number.ofNat place).toInt32 := by
  obtain ⟨hlow, hhigh⟩ := Number.toInt32_ofNat_bounds h
  rw [resumeFrame, Int32.toInt_ofInt_of_le] <;> omega

theorem returnsToHost_resumeFrame (h : place.log2 ≤ 63) : (resumeFrame place).returnsToHost = false := by
  rw [Frame.returnsToHost, toInt_resumeFrame h, decide_eq_false_iff_not]
  exact Int.not_lt.mpr (Number.toInt32_ofNat_bounds h).1

/-- The machine inside an empty call. The return marker has become the frame. -/
def inCall (m : Machine) (place : Nat) : Machine :=
  (m.withResult m.stack.depth (.number (.ofNat place))).withFrame m.stack.depth (resumeFrame place)

theorem capacity_inCall (m : Machine) (place : Nat) : (m.inCall place).stack.capacity = m.stack.capacity :=
  Array.size_setIfInBounds.trans Array.size_setIfInBounds

theorem read_inCall {k : Nat} (h : k < m.stack.depth) :
    Slots.read (m.inCall place).stack.slots k = Slots.read m.stack.slots k := by
  simp only [inCall, withFrame, withResult]
  rw [Slots.read_set, if_neg (by omega), Slots.read_set, if_neg (by omega)]

theorem live_backAt_inCall (m : Machine) (place : Nat) :
    ((m.inCall place).backAt m.stack.depth).stack.live = m.stack.live :=
  (Slots.slice_set _ _ (Nat.le_refl _)).trans (Slots.slice_set _ _ (Nat.le_refl _))

theorem CallsEmpty.log2_le (h : CallsEmpty program call enter leave)
    (hsize : program.code.size ≤ Assembly.maxCodeLength) : (call.offset + 5).log2 ≤ 63 := by
  obtain ⟨-, hend, -⟩ := Instruction.decodeAt_eq_ok (fetch_eq_ok h.calls)
  have hmax : Assembly.maxCodeLength = 0xffffffff := rfl
  have hlength : call.op.encodedLength = 5 := by
    rw [h.call_op]
    rfl
  exact Number.log2_le_of_lt (by omega)

/-- The run through an empty call. What it leaves behind is in a slot above the live values. -/
theorem CallsEmpty.passes (h : CallsEmpty program call enter leave)
    (hsize : program.code.size ≤ Assembly.maxCodeLength) (hroom : m.stack.depth < m.stack.capacity)
    (hafter : validate = true → Check.after m.stack = .ok ()) :
    Passes program env validate [call.offset, enter.offset, leave.offset] call.offset m
      (resumePlace (call.offset + 5)) ((m.inCall (call.offset + 5)).backAt m.stack.depth) := by
  have hplace : call.nextOffset = call.offset + 5 := by
    rw [Instruction.nextOffset, h.call_op]
    rfl
  have hlog := h.log2_le hsize
  have henter := (Instruction.offset_of_decodeAt (fetch_eq_ok h.enters)).1
  have hleave := (Instruction.offset_of_decodeAt (fetch_eq_ok h.leaves)).1
  have hopens : program.opensFrameAt call.first.toNat = true := by
    rw [Program.opensFrameAt, Instruction.byte_of_decodeAt (fetch_eq_ok h.enters), h.enter_op]
    rfl
  have hmarker := (Above.refl m).pushes hroom (.number (.ofNat call.nextOffset))
  have hroom₁ := hmarker.capacity.symm ▸ hroom
  have hcalled : Passes program env validate [call.offset] call.offset m enter.offset _ :=
    henter ▸ passes_call h.calls h.call_op hopens hroom hafter
  have hentered : Passes program env validate [enter.offset] enter.offset _ leave.offset
      (m.inCall call.nextOffset) :=
    hleave ▸ passes_makeFrame_none (henter ▸ h.enters) h.enter_op h.arguments h.locals hmarker.depth
      hroom₁ hmarker.top
  rw [hplace] at hcalled hentered hroom₁
  have hleft : Passes program env validate [leave.offset] leave.offset (m.inCall (call.offset + 5)) _
      ((m.inCall (call.offset + 5)).backAt m.stack.depth) :=
    passes_returnNothing (hleave ▸ h.leaves) h.leave_op rfl
      ((capacity_inCall m _).symm ▸ hroom.le) (read_withFrame hroom₁ _) (returnsToHost_resumeFrame hlog)
  -- The return goes where the frame says, and that is the place as the signed word holds it.
  rw [toInt_resumeFrame hlog] at hleft
  exact hcalled.trans (hentered.trans hleft)

/-! ### Calls at any place -/

/-- A call of an empty function, and the function right behind it, behind so many other
instructions. -/
def draftsBehind (count : Nat) : List Draft :=
  List.replicate count ⟨.halt, 0, 0⟩ ++
    [⟨.call, .ofNat (count + 1), 0⟩, ⟨.makeFrame, 0, 0⟩, ⟨.returnNothing, 0, 0⟩]

theorem getElem?_draftsBehind (count k : Nat) : (draftsBehind count)[count + k]?
    = [⟨.call, .ofNat (count + 1), 0⟩, ⟨.makeFrame, 0, 0⟩, ⟨.returnNothing, 0, 0⟩][k]? := by
  rw [draftsBehind, List.getElem?_append_right (by simp)]
  simp

theorem sum_draftsBehind (count : Nat) : ((draftsBehind count).map Draft.length).sum = count + 15 := by
  have hhalt : Draft.length ⟨.halt, 0, 0⟩ = 1 := rfl
  rw [draftsBehind, List.map_append, List.sum_append, List.map_replicate, hhalt, List.sum_replicate]
  simp [Draft.length, Opcode.encodedLength, Opcode.operandCount, Opcode.operands]

theorem offset_draftsBehind (count : Nat) : (Draft.offsets 0 (draftsBehind count)).getD count 0 = count := by
  have hoffset (start : Nat) (rest : List Draft) :
      (Draft.offsets start (List.replicate count ⟨.halt, 0, 0⟩ ++ rest)).getD count 0 = start + count := by
    -- The start moves with every instruction that is passed.
    induction count generalizing start with
    | zero => cases rest <;> rfl
    | succ count ih =>
      rw [List.replicate_succ, List.cons_append, Draft.offsets, List.getD_cons_succ]
      exact (ih (start + 1)).trans (by omega)
  exact (hoffset 0 _).trans (Nat.zero_add count)

/-- The draft links whenever its code can be addressed. -/
theorem exists_link_draftsBehind {count : Nat} (h : count + 15 ≤ Assembly.maxCodeLength) :
    ∃ linked, Assembly.link ⟨(draftsBehind count).toArray⟩ = .ok linked := by
  have hmax : Assembly.maxCodeLength = 0xffffffff := rfl
  rcases Assembly.link_cases ⟨(draftsBehind count).toArray⟩ with
    ⟨-, hlarge⟩ | ⟨-, position, target, -, hmissing⟩ | ⟨-, hlinks, -⟩
  · have hsum : Assembly.codeLength ⟨(draftsBehind count).toArray⟩ = count + 15 := sum_draftsBehind count
    omega
  · obtain ⟨⟨draft, hdraft, haddress, hbehind⟩, -⟩ := hmissing
    obtain ⟨hhas, rfl⟩ := Draft.mem_operands_address.mp haddress
    have hmem := List.mem_of_getElem? hdraft
    have hcount : (draftsBehind count).toArray.size = count + 3 := by simp [draftsBehind]
    rw [hcount] at hbehind
    rcases List.mem_append.mp hmem with hhalt | hrest
    · rw [List.eq_of_mem_replicate hhalt] at hhas
      cases hhas
    · simp only [List.mem_cons, List.not_mem_nil, or_false] at hrest
      rcases hrest with rfl | rfl | rfl
      · rw [UInt32.toNat_ofNat', Nat.mod_eq_of_lt (by omega)] at hbehind
        omega
      · cases hhas
      · cases hhas
  · exact hlinks

/-- In the linked code the call is where the other instructions end, for each of them is one byte
long. -/
theorem callsEmpty_of_link {count : Nat} {linked : Linked}
    (h : Assembly.link ⟨(draftsBehind count).toArray⟩ = .ok linked)
    (hcode : program.code = linked.code.toArray) :
    ∃ call enter leave, CallsEmpty program call enter leave ∧ call.offset = count := by
  have hsize := Assembly.size_lt h
  rw [List.size_toArray] at hsize
  have hlength : (draftsBehind count).length = count + 3 := by simp [draftsBehind]
  have hfetch (k : Nat) (draft : Draft) (hdraft : (draftsBehind count)[k]? = some draft) :
      fetch program (linked.placed k draft).offset = .ok (linked.placed k draft) := by
    refine Program.fetch_of_mem (List.mem_of_getElem? (i := k) ?_)
    rw [Program.instructions, hcode, Linked.walk_eq_mapIdx h, List.getElem?_mapIdx, List.toList_toArray,
      hdraft]
    rfl
  have hcall := getElem?_draftsBehind count 0
  have henter := getElem?_draftsBehind count 1
  have hleave := getElem?_draftsBehind count 2
  refine ⟨linked.placed count _, linked.placed (count + 1) ⟨.makeFrame, 0, 0⟩,
    linked.placed (count + 2) ⟨.returnNothing, 0, 0⟩,
    ⟨hfetch _ _ hcall, rfl, ?_, rfl, Linked.first_placed _ _ _ _ (by decide) rfl,
      Linked.second_placed _ _ _ _ (by decide), ?_, rfl⟩, ?_⟩
  · rw [Linked.target_placed h count 0 rfl (by omega)]
    exact hfetch _ _ henter
  · rw [Linked.nextOffset_placed h henter]
    exact hfetch _ _ hleave
  · show linked.offsets.getD count 0 = count
    rw [(Assembly.link_eq_ok h).1]
    exact offset_draftsBehind count

/-- A call of an empty function in front of any place that linked code reaches. -/
theorem exists_callsEmpty (count : Nat) (h : count + 15 ≤ Assembly.maxCodeLength) :
    ∃ (a : Assembly) (linked : Linked) (program : Program) (call enter leave : Instruction),
      a.link = .ok linked ∧ program.code = linked.code.toArray ∧
      program.code.size ≤ Assembly.maxCodeLength ∧ CallsEmpty program call enter leave ∧
      call.offset = count := by
  obtain ⟨linked, hlink⟩ := exists_link_draftsBehind h
  have hsize : linked.code.length ≤ Assembly.maxCodeLength := by
    obtain ⟨-, hsum, hcode⟩ := Assembly.link_eq_ok hlink
    rw [Draft.length_assemble hcode]
    exact hsum
  have hcode : ({ code := linked.code.toArray } : Program).code = linked.code.toArray := rfl
  obtain ⟨call, enter, leave, hcalls, hoffset⟩ := callsEmpty_of_link hlink hcode
  exact ⟨_, linked, _, call, enter, leave, hlink, rfl, hsize, hcalls, hoffset⟩

/-- A call of an empty function comes back with the values of the stack, the heap and the events as
they were, on the frame that is topmost among the values. It comes back to the instruction behind it
exactly if the place of that one is below `2 ^ 31` and has no bits below its twenty-four highest ones,
or is the last one below `2 ^ 31`. -/
theorem call_resumes_behind_iff (env : Environment) (validate : Bool) (m : Machine)
    (hcall : CallsEmpty program call enter leave) (hsize : program.code.size ≤ Assembly.maxCodeLength)
    (hroom : m.stack.depth < m.stack.capacity)
    (hafter : validate = true → Check.after m.stack = .ok ()) :
    (∃ n, Passes program env validate [call.offset, enter.offset, leave.offset] call.offset m
        (resumePlace (call.offset + 5)) n ∧
      n.stack.live = m.stack.live ∧ n.stack.capacity = m.stack.capacity ∧
      n.stack.frame = m.stack.findFrame ∧ n.heap = m.heap ∧ n.events = m.events) ∧
    (resumePlace (call.offset + 5) = call.offset + 5 ↔
      call.offset + 5 < 0x80000000 ∧ 2 ^ ((call.offset + 5).log2 - 23) ∣ call.offset + 5 ∨
        call.offset + 5 = 0x7fffffff) ∧
    (call.offset + 5 ≤ 0x1000000 → resumePlace (call.offset + 5) = call.offset + 5) := by
  refine ⟨⟨_, hcall.passes hsize hroom hafter, live_backAt_inCall m _, capacity_inCall m _, ?_, rfl, rfl⟩,
    resumePlace_eq_iff (hcall.log2_le hsize), fun hsmall => ?_⟩
  · exact Stack.frameBelow_congr fun k hk => read_inCall hk
  · rw [resumePlace, Number.toInt32_ofNat_of_le hsmall, Int.toNat_natCast]

/-- A machine inside a call, with room for one more value. -/
def callerMachine : Machine :=
  ⟨⟨#[.frame ⟨-1, 0, 0⟩, .bool true, .nothing], 2, some 0⟩, default, #[]⟩

/-- An even place above `2 ^ 24` is found again, with all checks on. -/
theorem call_resumes_behind_iff_even :
    ∃ (a : Assembly) (linked : Linked) (program : Program) (call enter leave : Instruction),
      a.link = .ok linked ∧ program.code = linked.code.toArray ∧
      CallsEmpty program call enter leave ∧ call.offset + 5 = 0x1000002 ∧
      ∀ env, ∃ n, Passes program env true [call.offset, enter.offset, leave.offset] call.offset
          callerMachine (call.offset + 5) n ∧
        n.stack.live = [.frame ⟨-1, 0, 0⟩, .bool true] ∧ n.stack.frame = some 0 := by
  obtain ⟨a, linked, program, call, enter, leave, hlink, hcode, hsize, hcall, hoffset⟩ :=
    exists_callsEmpty 0xfffffd (by decide)
  have hplace : call.offset + 5 = 0x1000002 := by rw [hoffset]
  refine ⟨a, linked, program, call, enter, leave, hlink, hcode, hcall, hplace, fun env => ?_⟩
  obtain ⟨⟨n, hpasses, hlive, -, hframe, -, -⟩, hexact, -⟩ :=
    call_resumes_behind_iff env true callerMachine hcall hsize (by decide) fun _ => rfl
  rw [hexact.mpr (.inl (by rw [hplace]; decide))] at hpasses
  exact ⟨n, hpasses, hlive.trans (by decide), hframe.trans (by decide)⟩

/-- A call in front of the place `2 ^ 31` comes back one byte too early. -/
theorem call_resumes_elsewhere :
    ∃ (a : Assembly) (linked : Linked) (program : Program) (call enter leave : Instruction),
      a.link = .ok linked ∧ program.code = linked.code.toArray ∧
      CallsEmpty program call enter leave ∧ call.offset + 5 = 0x80000000 ∧
      ∀ (env : Environment) (m : Machine), m.stack.depth < m.stack.capacity →
        ∃ n, Passes program env false [call.offset, enter.offset, leave.offset] call.offset m
          0x7fffffff n := by
  obtain ⟨a, linked, program, call, enter, leave, hlink, hcode, hsize, hcall, hoffset⟩ :=
    exists_callsEmpty 0x7ffffffb (by decide)
  have hplace : call.offset + 5 = 0x80000000 := by rw [hoffset]
  refine ⟨a, linked, program, call, enter, leave, hlink, hcode, hcall, hplace, fun env m hroom => ?_⟩
  have hpasses : Passes program env false _ _ m _ _ := hcall.passes hsize hroom nofun
  rw [hplace, show resumePlace 0x80000000 = 0x7fffffff by decide] at hpasses
  exact ⟨_, hpasses⟩

end Machine

end ScriptMachine
