import Mathlib
import ScriptMachine.Proofs.Machine.Run
import ScriptMachine.Proofs.Machine.Tame
import ScriptMachine.Proofs.Number
import ScriptMachine.Proofs.Script.WellFormed

/-!
# Control stays on instructions

A run of a well-formed program never leaves the instructions of its code. Besides a tame machine this
takes two facts about the top of the stack: where a frame is opened there is a return marker on top,
and where an array is made there is the number of its elements. Both are put there by the only
instructions from which control comes to such a place.
-/

namespace ScriptMachine

open Outcome

/-! ### Reading the code -/

namespace Program

variable {program : Program} {first i j : Instruction} {procedures : List Procedure}

theorem offset_lt_size (hi : i ∈ program.instructions) : i.offset < program.code.size :=
  (Instruction.offset_of_decodeAt (Walk.decodeAt_of_mem hi)).2

theorem fetch_of_mem (hi : i ∈ program.instructions) : Machine.fetch program i.offset = .ok i := by
  have hlt := offset_lt_size hi
  rw [Machine.fetch, if_neg (by omega), Walk.decodeAt_of_mem hi]

theorem isBoundary_of_mem (hi : i ∈ program.instructions) : program.isBoundary i.offset = true :=
  List.any_eq_true.mpr ⟨i, hi, by simp⟩

theorem WellFormed.offset_first (h : program.WellFormed first procedures) : first.offset = 0 := by
  have hhead := (Walk.isChain_go program.code program.code.size 0).2
  have hwalk : Walk.go program.code program.code.size 0 = _ := h.walk
  rw [hwalk] at hhead
  exact hhead first rfl

theorem opensFrameAt_of_mem (hi : i ∈ program.instructions) (hop : i.op = .makeFrame) :
    program.opensFrameAt i.offset = true := by
  rw [opensFrameAt, Instruction.byte_of_decodeAt (Walk.decodeAt_of_mem hi), hop]
  rfl

/-- Nothing but the instruction that opens the frame of a procedure opens a frame. -/
theorem WellFormed.frame_le (h : program.WellFormed first procedures) (hi : i ∈ program.instructions)
    (hop : i.op = .makeFrame) : i.first.toNat ≤ 255 ∧ i.second.toNat ≤ 255 := by
  rcases h.cases hi with rfl | ⟨p, hp, rfl | hbody⟩
  · rcases h.op_first with hfirst | hfirst <;> rw [hfirst] at hop <;> cases hop
  · exact ⟨(h.sound p hp).arguments_le, (h.sound p hp).locals_le⟩
  · exact absurd hop ((h.sound p hp).admits i hbody).no_frame

theorem WellFormed.frame_mem (h : program.WellFormed first procedures) {p : Procedure}
    (hp : p ∈ procedures) : p.frame ∈ program.instructions ∧ p.frame.op = .makeFrame :=
  ⟨h.mem_of_mem hp (List.mem_cons_self ..), (h.sound p hp).opens⟩

/-- Calls lead to instructions that open frames. -/
theorem WellFormed.call_target (h : program.WellFormed first procedures) (hi : i ∈ program.instructions)
    (hop : i.op = .call) :
    ∃ j ∈ program.instructions, j.op = .makeFrame ∧ i.first.toNat = j.offset := by
  obtain ⟨p, hp, -, hadmits⟩ := h.mem_body hi (by simp [hop]) (by simp [hop]) (by simp [hop])
  obtain ⟨q, hq, htarget⟩ := hadmits.call hop
  exact ⟨q.frame, (h.frame_mem hq).1, (h.frame_mem hq).2, htarget⟩

theorem WellFormed.entry_target (h : program.WellFormed first procedures) (hi : i ∈ program.instructions)
    (hop : i.op = .entryPoint) :
    ∃ j ∈ program.instructions, j.op = .makeFrame ∧ i.first.toNat = j.offset := by
  rcases h.cases hi with rfl | ⟨p, hp, rfl | hbody⟩
  · cases hmain : mainProcedure? procedures with
    | none =>
      rw [h.halts hmain] at hop
      cases hop
    | some main =>
      have hmem := h.frame_mem (List.mem_of_find?_eq_some hmain)
      exact ⟨main.frame, hmem.1, hmem.2, (h.enters main hmain).2⟩
  · rw [(h.sound p hp).opens] at hop
    cases hop
  · exact absurd hop ((h.sound p hp).admits i hbody).no_entry

theorem WellFormed.constant_tame (h : program.WellFormed first procedures) {index : Nat} {v : Value}
    (hget : program.constants[index]? = some v) : v.Tame program :=
  Value.tame_of_isFrame (Value.not_isFrame_of_settledAt (h.constants index v hget))

/-- A place behind a call is small enough to be a number exactly. -/
theorem WellFormed.return_lt (h : program.WellFormed first procedures)
    (hsize : program.code.size ≤ 0x1000000) (hi : i ∈ program.instructions) (hop : i.op = .call) :
    i.nextOffset < 0x1000000 := by
  obtain ⟨j, hj, hoffset, -⟩ := h.next hi (by rw [hop]; rfl)
  have := offset_lt_size hj
  omega

theorem WellFormed.isReturn_ofInt (h : program.WellFormed first procedures)
    (hsize : program.code.size ≤ 0x1000000) {place : Int} (hplace : program.IsReturn place) :
    program.IsReturn (Int32.ofInt place).toInt := by
  have hexact : (Int32.ofInt place).toInt = place := by
    rcases hplace with rfl | ⟨i, hi, hop, rfl⟩
    · decide
    · have hlt := h.return_lt hsize hi hop
      have hmod : Int32.size = 4294967296 := rfl
      rw [Int32.toInt_ofInt, hmod, Int.bmod_def]
      split <;> omega
  rwa [hexact]

end Program

namespace Machine

variable {program : Program} {env : Environment} {first i : Instruction} {procedures : List Procedure}
  {m : Machine} {place : Nat}

/-- What an instruction needs of the top of the stack. -/
structure Poised (program : Program) (i : Instruction) (m : Machine) : Prop where
  marker : i.op = .makeFrame →
    ∃ x : Number, m.stack.peek 0 = .ok (.number x) ∧ program.IsReturn x.toInt32
  count : i.op = .makeArray → ∃ x : Number, m.stack.peek 0 = .ok (.number x) ∧ x.isCount = true

def Ready (program : Program) (place : Nat) (m : Machine) : Prop :=
  ∃ i ∈ program.instructions, i.offset = place ∧ Poised program i m

def Onward (program : Program) (i : Instruction) : Flow → Machine → Prop
  | .next, m => Ready program i.nextOffset m
  | .jump place, m => Ready program place m
  | .done _, _ => True

theorem poised_of_ne (hframe : i.op ≠ .makeFrame) (harray : i.op ≠ .makeArray) : Poised program i m :=
  ⟨fun hop => absurd hop hframe, fun hop => absurd hop harray⟩

theorem ready_next (h : program.WellFormed first procedures) (hi : i ∈ program.instructions)
    (hgoes : i.op.goesOn = true) (hop : i.op ≠ .pushValue) (m : Machine) :
    Ready program i.nextOffset m := by
  obtain ⟨j, hj, hoffset, hframe, hcount⟩ := h.next hi hgoes
  exact ⟨j, hj, hoffset, poised_of_ne hframe fun harray => hop (hcount harray).1⟩

theorem ready_pushValue (h : program.WellFormed first procedures) (hi : i ∈ program.instructions)
    (hop : i.op = .pushValue) {v : Value} (hv : program.constants[i.first.toNat]? = some v)
    (htop : m.stack.peek 0 = .ok v) : Ready program i.nextOffset m := by
  obtain ⟨j, hj, hoffset, hframe, hcount⟩ := h.next hi (by rw [hop]; rfl)
  refine ⟨j, hj, hoffset, fun hmake => absurd hmake hframe, fun harray => ?_⟩
  obtain ⟨-, x, hx, hisCount⟩ := hcount harray
  rw [hv] at hx
  cases hx
  exact ⟨x, htop, hisCount⟩

theorem ready_branch (h : program.WellFormed first procedures) (hi : i ∈ program.instructions)
    (hop : i.op.isBranch = true) (m : Machine) : Ready program i.first.toNat m := by
  have hne {op : Opcode} (hother : op.isBranch = false) : i.op ≠ op := by
    rintro rfl
    rw [hop] at hother
    cases hother
  obtain ⟨p, hp, -, hadmits⟩ := h.mem_body hi (hne rfl) (hne rfl) (hne rfl)
  obtain ⟨j, hj, htarget, harray⟩ := hadmits.branch hop
  exact ⟨j, h.mem_of_mem hp (List.mem_cons_of_mem _ hj), htarget.symm,
    poised_of_ne ((h.sound p hp).admits j hj).no_frame harray⟩

theorem ready_return (h : program.WellFormed first procedures) (hplace : program.IsReturn place)
    (m : Machine) : Ready program place m := by
  rcases hplace with hhost | ⟨i, hi, hop, hplace⟩
  · omega
  · obtain rfl : place = i.nextOffset := by omega
    exact ready_next h hi (by rw [hop]; rfl) (by simp [hop]) m

theorem ready_frame {j : Instruction} (hj : j ∈ program.instructions) (hop : j.op = .makeFrame)
    {x : Number} (htop : m.stack.peek 0 = .ok (.number x)) (hreturn : program.IsReturn x.toInt32) :
    Ready program j.offset m :=
  ⟨j, hj, rfl, fun _ => ⟨x, htop, hreturn⟩, fun harray => by rw [hop] at harray; cases harray⟩

/-! ### One instruction -/

/-- The natives answer a call at this point with values that are no frames. -/
def PlainAnswer (program : Program) (env : Environment) (i : Instruction) (m : Machine) : Prop :=
  i.op = .callNative → ∀ native arguments value, env.get? i.first.toNat = some native →
    m.stack.top native.arity.toNat = .ok arguments →
    (native.respond ⟨arguments, m.memory program⟩).result = .ok value → value.isFrame = false

/-- The instruction keeps the machine tame and control on instructions. -/
def Stays (program : Program) (i : Instruction) (action : Action Flow) (m : Machine) : Prop :=
  Ensures (· = m) action (fun flow m' => m'.Tame program ∧ Onward program i flow m')
    (·.losesControl = false)

theorem Keeps.stays {action : Action Flow} (h : Keeps program action (Onward program i))
    (hm : m.Tame program) : Stays program i action m :=
  h.strengthen fun _ hn => hn ▸ hm

theorem KeepsNext.onward {action : Action Flow} (h : KeepsNext program action)
    (hnext : ∀ m', Ready program i.nextOffset m') : Keeps program action (Onward program i) := by
  refine h.weaken fun flow m' hflow => ?_
  rw [hflow]
  exact hnext m'

theorem stays_push (hm : m.Tame program) {value : Value} (hvalue : value.Tame program) {flow : Flow}
    (hflow : ∀ m' : Machine, m'.stack.peek 0 = .ok value → Onward program i flow m') :
    Stays program i (push value >>= fun _ => pure flow) m := by
  have hpush : Ensures (Tame program) (push value >>= fun _ => pure flow)
      (fun a m => m.Tame program ∧ Onward program i a m) (·.losesControl = false) :=
    Ensures.bind (keeps_push hvalue) fun _ => ensures_pure fun m' hm' => ⟨hm'.1, hflow m' hm'.2⟩
  exact hpush.strengthen fun _ hn => hn ▸ hm

theorem pop_of_peek {v : Value} (htop : m.stack.peek 0 = .ok v) (hm : m.Tame program) :
    ∃ m', pop m = .ok v m' ∧ m'.Tame program := by
  have hkeeps := keeps_pop m hm
  obtain ⟨⟨slots, depth, frame⟩, heap, events⟩ := m
  cases depth with
  | zero => simp [Stack.peek] at htop
  | succ n =>
    simp only [Stack.peek, Nat.zero_lt_succ, if_true, Except.ok.injEq] at htop
    subst htop
    exact ⟨_, rfl, hkeeps.1⟩

/-- An action that begins with taking a known value from the top. -/
theorem stays_pop {v : Value} {f : Value → Action Flow} (hm : m.Tame program)
    (htop : m.stack.peek 0 = .ok v) (hf : KeepsNext program (f v))
    (hnext : ∀ m', Ready program i.nextOffset m') : Stays program i (pop >>= f) m := by
  obtain ⟨m', hpop, hm'⟩ := pop_of_peek htop hm
  have hmid : Ensures (· = m) pop (fun a n => a = v ∧ n = m') (fun e : Fault => e.losesControl = false) := by
    rintro n rfl
    rw [hpop]
    exact ⟨rfl, rfl⟩
  refine Ensures.bind hmid fun a => ?_
  rintro n ⟨rfl, rfl⟩
  exact hf.onward hnext n hm'

theorem onStack_bind {α β : Type} (x : Stack.Action α) (f : α → Stack.Action β) :
    onStack (x >>= f) = onStack x >>= fun a => onStack (f a) := by
  funext ⟨stack, heap, events⟩
  show onStack (EStateM.bind x f) _ = EStateM.bind (onStack x) _ _
  simp only [onStack, EStateM.bind]
  cases x stack <;> rfl

theorem stays_makeFrame (h : program.WellFormed first procedures)
    (hsize : program.code.size ≤ 0x1000000) (hi : i ∈ program.instructions) (hop : i.op = .makeFrame)
    (hm : m.Tame program) (hpoised : Poised program i m) :
    Stays program i (step program env i) m := by
  obtain ⟨hfirst, hsecond⟩ := h.frame_le hi hop
  obtain ⟨x, htop, hreturn⟩ := hpoised.marker hop
  have hframe (arguments locals : UInt8) :
      (Value.frame ⟨.ofInt x.toInt32, arguments, locals⟩).Tame program :=
    h.isReturn_ofInt hsize hreturn
  have hnext := ready_next h hi (by rw [hop]; rfl) (by simp [hop])
  unfold step
  rw [hop]
  simp only [byteOperand, hfirst, hsecond, if_true, pure_bind, thenNext, Stack.makeFrame, onStack_bind,
    bind_assoc]
  refine stays_pop hm htop ?_ hnext
  exact (keeps_onStack (Stack.keeps_openFrame (hframe _ _))).bind fun _ _ => keeps_pure fun _ => rfl

theorem stays_makeArray (h : program.WellFormed first procedures) (hi : i ∈ program.instructions)
    (hop : i.op = .makeArray) (hm : m.Tame program) (hpoised : Poised program i m) :
    Stays program i (step program env i) m := by
  obtain ⟨x, htop, hcount⟩ := hpoised.count hop
  have hnext := ready_next h hi (by rw [hop]; rfl) (by simp [hop])
  unfold step
  rw [hop]
  simp only [makeArray, popNumber, bind_assoc]
  refine stays_pop hm htop ?_ hnext
  simp only [expect, Value.number?, pure_bind, hcount, Bool.not_true, Bool.false_eq_true, if_false]
  refine (keeps_top _).bind fun values hvalues => (keeps_allocate _).bind fun address _ => ?_
  refine (keeps_copyInto hvalues _ _).bind fun _ _ => (keeps_drop _).bind fun _ _ => ?_
  exact keepsNext_push trivial

theorem get?_of_isReady (hready : env.isReady program = true) {index : Nat}
    (h : index < program.imports.length) : ∃ native, env.get? index = some native := by
  have hlength : env.natives.size = program.imports.length := by
    simpa using congrArg List.length (beq_iff_eq.mp hready)
  exact ⟨env.natives[index], Array.getElem?_eq_getElem _⟩

theorem stays_callNative (h : program.WellFormed first procedures) (hready : env.isReady program = true)
    (hi : i ∈ program.instructions) (hop : i.op = .callNative) (hm : m.Tame program)
    (hplain : PlainAnswer program env i m) : Stays program i (step program env i) m := by
  obtain ⟨p, hp, -, hadmits⟩ := h.mem_body hi (by simp [hop]) (by simp [hop]) (by simp [hop])
  obtain ⟨native, hnative⟩ := get?_of_isReady hready (hadmits.native hop)
  have hnext := ready_next h hi (by rw [hop]; rfl) (by simp [hop])
  have hread : Ensures (· = m) (readStack (·.top native.arity.toNat))
      (fun arguments n => n = m ∧ m.stack.top native.arity.toNat = .ok arguments)
      (fun e : Fault => e.losesControl = false) := by
    rintro n rfl
    have hkeeps := keeps_top native.arity.toNat n hm
    rw [readStack] at hkeeps ⊢
    cases htop : n.stack.top native.arity.toNat with
    | ok arguments => exact ⟨rfl, rfl⟩
    | error e =>
      rw [htop] at hkeeps
      exact hkeeps
  unfold step
  rw [hop]
  simp only [callNative, hnative]
  refine Ensures.bind hread fun arguments => ?_
  rintro n ⟨rfl, htop⟩
  have hget (f : Machine → Action Flow) : (get >>= f) n = f n n := rfl
  rw [hget]
  refine KeepsNext.onward ((keeps_emit _).bind fun _ _ => ?_) hnext n hm
  split
  · exact keeps_throw rfl
  · rename_i value hresult
    refine (keeps_drop _).bind fun _ _ => ?_
    split
    · exact keepsNext_push (Value.tame_of_isFrame (hplain hop native arguments value hnative htop hresult))
    · exact keeps_pure fun _ => rfl

theorem read?_tame (h : program.WellFormed first procedures) (hm : m.Tame program) {address : Address}
    {v : Value} (hread : (m.memory program).read? address = some v) : v.Tame program := by
  unfold Memory.read? at hread
  split at hread
  · cases hread
  · exact h.constant_tame hread
  · obtain ⟨slot, -, rfl⟩ := Option.map_eq_some_iff.mp hread
    exact hm.heap slot

theorem keeps_iterNext (h : program.WellFormed first procedures) (hi : i ∈ program.instructions)
    (hop : i.op = .iterNext) : Keeps program (iterNext program i.first) (Onward program i) := by
  have hnext := ready_next h hi (by rw [hop]; rfl) (by simp [hop])
  unfold iterNext
  refine (keeps_peek 0).bind fun top _ => (keeps_expect _ _ _ top).bind fun ⟨current, remaining⟩ _ => ?_
  dsimp only
  split
  · refine (keeps_drop 1).bind fun _ _ => keeps_pure fun m' => ?_
    exact ready_branch h hi (by rw [hop]; rfl) m'
  · refine keeps_get.bind fun m' hm' => ?_
    cases hread : (m'.memory program).read? current with
    | none => exact keeps_throw rfl
    | some element =>
      refine KeepsNext.onward ?_ hnext
      refine (keeps_onStack (Stack.keeps_set 0 ?_)).bind fun _ _ => keepsNext_push (read?_tame h hm' hread)
      trivial

theorem keeps_leaveCall (h : program.WellFormed first procedures) (withValue : Bool) :
    Keeps program (leaveCall withValue) (Onward program i) := by
  rintro ⟨stack, heap, events⟩ ⟨hstack, hheap⟩
  cases hreturn : stack.returnFromFrame withValue with
  | mk outcome stack' =>
    obtain ⟨hstack', hplace⟩ := Stack.tame_returnFromFrame hstack hreturn
    cases outcome with
    | host value =>
      simp only [leaveCall, hreturn]
      exact ⟨⟨hstack', hheap⟩, trivial⟩
    | resume place =>
      simp only [leaveCall, hreturn]
      exact ⟨⟨hstack', hheap⟩, ready_return h (hplace place rfl) _⟩

/-- Every instruction keeps control on instructions. -/
theorem stays_step (h : program.WellFormed first procedures) (hsize : program.code.size ≤ 0x1000000)
    (hready : env.isReady program = true) (hi : i ∈ program.instructions) (hm : m.Tame program)
    (hpoised : Poised program i m) (hplain : PlainAnswer program env i m) :
    Stays program i (step program env i) m := by
  have hnext (hgoes : i.op.goesOn = true) (hne : i.op ≠ .pushValue) :
      ∀ m', Ready program i.nextOffset m' := ready_next h hi hgoes hne
  have hplainly {action : Action Flow} (hgoes : i.op.goesOn = true) (hne : i.op ≠ .pushValue)
      (hkeeps : KeepsNext program action) : Stays program i action m :=
    (hkeeps.onward (hnext hgoes hne)).stays hm
  cases hop : i.op with
  | makeFrame => exact stays_makeFrame h hsize hi hop hm hpoised
  | makeArray => exact stays_makeArray h hi hop hm hpoised
  | callNative => exact stays_callNative h hready hi hop hm hplain
  | halt =>
    simp only [step, hop]
    exact (keeps_throw rfl).stays hm
  | and | or =>
    simp only [step, hop]
    exact hplainly (by rw [hop]; rfl) (by simp [hop]) (keepsNext_boolOperator _ _)
  | mul | div | mod | add | sub | cmpLessThan | cmpMoreThan | cmpLessThanOrEqual | cmpMoreThanOrEqual =>
    simp only [step, hop]
    exact hplainly (by rw [hop]; rfl) (by simp [hop]) (keepsNext_numberOperator _)
  | cmpEqual | cmpNotEqual =>
    simp only [step, hop]
    exact hplainly (by rw [hop]; rfl) (by simp [hop]) (keepsNext_compare _)
  | not =>
    simp only [step, hop]
    refine hplainly (by rw [hop]; rfl) (by simp [hop]) ((keeps_popBool _).bind fun _ _ => ?_)
    exact keepsNext_push trivial
  | neg =>
    simp only [step, hop]
    refine hplainly (by rw [hop]; rfl) (by simp [hop]) ((keeps_popNumber _).bind fun _ _ => ?_)
    exact keepsNext_push trivial
  | dup1 =>
    simp only [step, hop]
    refine hplainly (by rw [hop]; rfl) (by simp [hop]) ((keeps_peek 0).bind fun _ htop => ?_)
    exact keepsNext_push htop
  | dup2 =>
    simp only [step, hop]
    refine hplainly (by rw [hop]; rfl) (by simp [hop]) ((keeps_peek 1).bind fun _ hbelow => ?_)
    refine (keeps_peek 0).bind fun _ htop => ?_
    exact ((keeps_push hbelow).weaken fun _ _ _ => trivial).bind fun _ _ => keepsNext_push htop
  | rot2 =>
    simp only [step, hop]
    refine hplainly (by rw [hop]; rfl) (by simp [hop]) (keeps_pop.bind fun _ ha => ?_)
    refine keeps_pop.bind fun _ hb => ?_
    exact ((keeps_push ha).weaken fun _ _ _ => trivial).bind fun _ _ => keepsNext_push hb
  | pushValue =>
    obtain ⟨p, hp, -, hadmits⟩ := h.mem_body hi (by simp [hop]) (by simp [hop]) (by simp [hop])
    have hvalue := Array.getElem?_eq_getElem (hadmits.constant hop)
    simp only [step, hop, hvalue]
    exact stays_push hm (h.constant_tame hvalue) fun m' htop => ready_pushValue h hi hop hvalue htop
  | pop1 | pop2 =>
    simp only [step, hop]
    exact hplainly (by rw [hop]; rfl) (by simp [hop]) (keepsNext_thenNext (keeps_drop _))
  | jump =>
    simp only [step, hop]
    exact (keeps_pure fun m' => ready_branch h hi (by rw [hop]; rfl) m').stays hm
  | jumpIfFalse =>
    simp only [step, hop]
    refine Keeps.stays ((keeps_popBool _).bind fun condition _ => keeps_pure fun m' => ?_) hm
    cases condition with
    | true => exact hnext (by rw [hop]; rfl) (by simp [hop]) m'
    | false => exact ready_branch h hi (by rw [hop]; rfl) m'
  | exit =>
    simp only [step, hop]
    exact (keeps_pure fun _ => trivial).stays hm
  | call =>
    obtain ⟨j, hj, hframe, htarget⟩ := h.call_target hi hop
    have hexact := Number.toInt32_ofNat (h.return_lt hsize hi hop)
    simp only [step, hop, htarget]
    refine stays_push hm ?_ fun m' htop => ready_frame hj hframe htop (.inr ⟨i, hi, hop, hexact⟩)
    trivial
  | entryPoint =>
    obtain ⟨j, hj, hframe, htarget⟩ := h.entry_target hi hop
    simp only [step, hop, htarget, Program.opensFrameAt_of_mem hj hframe, if_true]
    refine stays_push hm ?_ fun m' htop => ready_frame hj hframe htop (.inl (by decide))
    trivial
  | returnNothing | returnValue =>
    simp only [step, hop]
    exact (keeps_leaveCall h _).stays hm
  | storeLocal =>
    simp only [step, hop]
    refine hplainly (by rw [hop]; rfl) (by simp [hop]) (keeps_pop.bind fun _ hvalue => ?_)
    exact keepsNext_thenNext (keeps_onStack (Stack.keeps_store _ hvalue))
  | loadLocal =>
    simp only [step, hop]
    refine hplainly (by rw [hop]; rfl) (by simp [hop]) ((keeps_load _).bind fun _ hvalue => ?_)
    exact keepsNext_push hvalue
  | print =>
    simp only [step, hop]
    refine hplainly (by rw [hop]; rfl) (by simp [hop]) (keeps_pop.bind fun _ _ => ?_)
    exact keeps_get.bind fun _ _ => keepsNext_thenNext (keeps_emit _)
  | arrayLength =>
    simp only [step, hop]
    refine hplainly (by rw [hop]; rfl) (by simp [hop]) ((keeps_popArray _).bind fun _ _ => ?_)
    exact keepsNext_push trivial
  | makeIter =>
    simp only [step, hop]
    refine hplainly (by rw [hop]; rfl) (by simp [hop]) ((keeps_popArray _).bind fun _ _ => ?_)
    exact keepsNext_push trivial
  | iterNext =>
    simp only [step, hop]
    exact (keeps_iterNext h hi hop).stays hm

/-! ### Whole runs -/

variable {validate : Bool}

theorem ensures_continueAt {place : Nat} (validate : Bool) (i : Instruction) :
    Ensures (fun m => m.Tame program ∧ Ready program place m) (continueAt validate i place)
      (fun outcome m => m.Tame program ∧ ∀ p, outcome = .goOn p → Ready program p m)
      (·.losesControl = false) := by
  rintro m ⟨hm, hready⟩
  have hgoes : m.Tame program ∧ ∀ p, Cycle.goOn place = .goOn p → Ready program p m := by
    refine ⟨hm, fun p hp => ?_⟩
    cases hp
    exact hready
  unfold continueAt
  cases validate with
  | false => exact hgoes
  | true =>
    cases hafter : Check.after m.stack with
    | ok u => simpa [hafter] using hgoes
    | error cause => simp [Check.fault, Fault.losesControl]

theorem cycle_stays (validate : Bool) (h : program.WellFormed first procedures) (hsize : program.code.size ≤ 0x1000000)
    (hready : env.isReady program = true) (hm : m.Tame program) (hplace : Ready program place m)
    (hplain : ∀ i, fetch program place = .ok i → PlainAnswer program env i m) :
    Ensures (· = m) (cycle program env validate place)
      (fun outcome m' => m'.Tame program ∧ ∀ p, outcome = .goOn p → Ready program p m')
      (·.losesControl = false) := by
  obtain ⟨i, hi, rfl, hpoised⟩ := hplace
  have hfetch := Program.fetch_of_mem hi
  have hperform : Ensures (· = m) (perform program env validate i)
      (fun outcome m' => m'.Tame program ∧ ∀ p, outcome = .goOn p → Ready program p m')
      (·.losesControl = false) := by
    refine Ensures.bind (stays_step h hsize hready hi hm hpoised (hplain i hfetch)) fun flow => ?_
    cases flow with
    | next => exact ensures_continueAt validate i
    | jump place => exact ensures_continueAt validate i
    | done value => exact ensures_pure fun n hn => ⟨hn.1, by simp⟩
  rintro n rfl
  simp only [cycle, hfetch]
  cases validate with
  | false => exact hperform n rfl
  | true =>
    cases hbefore : Check.before n.stack program env i with
    | ok u => simpa [hbefore] using hperform n rfl
    | error cause => simp [Check.fault, Fault.losesControl]

/-- The natives answer all calls of a run with values that are no frames, whatever else they do at
different times. -/
def AnswersPlainly (program : Program) (envs : Nat → Environment) (validate : Bool) (place : Nat)
    (m : Machine) : Prop :=
  ∀ time p n, ReachesAt program envs validate place m time p n → ∀ i, fetch program p = .ok i →
    PlainAnswer program (envs time) i n

theorem ReachesAt.ready {envs : Nat → Environment} (h : program.WellFormed first procedures)
    (hsize : program.code.size ≤ 0x1000000) (hready : ∀ time, (envs time).isReady program = true)
    (hm : m.Tame program) (hplace : Ready program place m)
    (hplain : AnswersPlainly program envs validate place m) {time p : Nat} {n : Machine}
    (hreaches : ReachesAt program envs validate place m time p n) :
    n.Tame program ∧ Ready program p n := by
  induction hreaches with
  | here => exact ⟨hm, hplace⟩
  | @next time q _ o _ hbefore hcycle ih =>
    have hstep := cycle_stays validate h hsize (hready time) ih.1 ih.2 (hplain time q o hbefore) o rfl
    rw [hcycle] at hstep
    exact ⟨hstep.1, hstep.2 _ rfl⟩

theorem keeps_pushAll {values : List Value} (h : ∀ v ∈ values, v.Tame program) :
    Keeps program (pushAll values) fun _ _ => True := by
  induction values with
  | nil => exact keeps_pure fun _ => trivial
  | cons value rest ih =>
    have hpush := (keeps_push (h value (by simp))).weaken fun _ _ _ => trivial
    exact hpush.bind fun _ _ => ih fun v hv => h v (by simp [hv])

theorem keeps_resetStack : Keeps program resetStack fun _ _ => True :=
  fun _ hm => ⟨⟨Slots.all_empty trivial _, hm.heap⟩, trivial⟩

/-- A call of the host begins where a procedure opens its frame. -/
theorem lookup_ok (h : program.WellFormed first procedures) {name : String} {call : Call}
    (hlookup : Call.lookup program name = .ok call) :
    call.arguments = [] ∧
      ∃ j ∈ program.instructions, j.op = .makeFrame ∧ call.address.toNat = j.offset := by
  unfold Call.lookup at hlookup
  split at hlookup
  · cases hlookup
  · rename_i found hfound
    split at hlookup
    · cases hlookup
    · split at hlookup
      · cases hlookup
        refine ⟨rfl, ?_⟩
        have hmem := List.mem_of_find?_eq_some hfound
        have hentry : (found.name, found.arity.toNat, found.address.toNat) ∈
            program.exports.map fun e => (e.name, e.arity.toNat, e.address.toNat) :=
          List.mem_map.mpr ⟨found, hmem, rfl⟩
        rw [h.exports] at hentry
        obtain ⟨p, hp, heq⟩ := List.mem_map.mp hentry
        simp only [Prod.mk.injEq] at heq
        exact ⟨p.frame, (h.frame_mem hp).1, (h.frame_mem hp).2, heq.2.2.symm⟩
      · cases hlookup

theorem ensures_enter (h : program.WellFormed first procedures) (entry : Entry)
    (harguments : ∀ v ∈ entry.arguments, v.Tame program) :
    Keeps program (entry.enter program) fun place m => Ready program place m := by
  cases entry with
  | main =>
    refine keeps_resetStack.bind fun _ _ => keeps_pure fun m => ?_
    have hmem : first ∈ program.instructions := by simp [h.instructions_eq]
    refine ⟨first, hmem, h.offset_first, poised_of_ne ?_ ?_⟩
    · rcases h.op_first with hop | hop <;> simp [hop]
    · rcases h.op_first with hop | hop <;> simp [hop]
  | call name arguments =>
    cases hlookup : Call.lookup program name with
    | error e =>
      simp only [Entry.enter, hlookup]
      exact keeps_throw rfl
    | ok found =>
      obtain ⟨hnone, j, hj, hframe, haddress⟩ := lookup_ok h hlookup
      cases hcheck : (found.withArguments arguments).check with
      | error e =>
        simp only [Entry.enter, hlookup, hcheck]
        exact keeps_throw rfl
      | ok u =>
        simp only [Entry.enter, hlookup, hcheck]
        refine keeps_resetStack.bind fun _ _ => (keeps_pushAll ?_).bind fun _ _ => ?_
        · simpa [Call.withArguments, hnone, Entry.arguments] using harguments
        · have htame : hostReturn.Tame program := trivial
          refine Ensures.bind (keeps_push htame) fun _ => ensures_pure fun m hm => ⟨hm.1, ?_⟩
          rw [haddress]
          exact ready_frame hj hframe hm.2 (.inl (by decide))

theorem tame_create {settings : Settings} (h : create settings = .ok m) : m.Tame program := by
  unfold create at h
  split at h
  · cases h
  · split at h
    · cases h
    · rename_i heap hheap
      cases h
      refine ⟨Slots.all_empty trivial _, ?_⟩
      unfold Heap.create at hheap
      split at hheap
      · cases hheap
      · cases hheap
        exact Slots.all_empty trivial _

/-- A run of a compiled program comes only to places where the code has an instruction, and it never
fails because control is lost: whatever the script does with its values, whatever the natives answer
short of a frame, from one call to the next, and wherever the host enters the program. -/
theorem compiled_run_keeps_control {c : Compilation} {root : Node} {program : Program}
    {envs : Nat → Environment} {settings : Settings} {m : Machine} (hc : c.Prepared)
    (hcompile : c.compile root = .ok program) (hsize : program.code.size ≤ 2 ^ 24)
    (hready : ∀ time, (envs time).isReady program = true) (hcreate : create settings = .ok m)
    (entry : Entry) (harguments : ∀ v ∈ entry.arguments, v.isFrame = false)
    (hanswers : ∀ place n, entry.enter program m = .ok place n →
      AnswersPlainly program envs settings.validate place n) :
    (∀ place n, entry.enter program m = .ok place n → ∀ time p n',
      ReachesAt program envs settings.validate place n time p n' → program.isBoundary p = true) ∧
    ∀ e m', entry.run settings program envs m = .error e m' → e.losesControl = false := by
  obtain ⟨segments, linked, hlayout⟩ := Compilation.exists_layout hc hcompile
  have h := hlayout.wellFormed
  have henter := ensures_enter h entry (fun v hv => Value.tame_of_isFrame (harguments v hv)) m
    (tame_create hcreate)
  refine ⟨fun place n hplace time p n' hreaches => ?_, fun e m' hrun => ?_⟩
  · rw [hplace] at henter
    obtain ⟨-, i, hi, rfl, -⟩ :=
      hreaches.ready h hsize hready henter.1 henter.2 (hanswers place n hplace)
    exact Program.isBoundary_of_mem hi
  · rcases bind_eq_error.mp hrun with herror | ⟨place, n, hplace, herror⟩
    · rw [herror] at henter
      exact henter
    · rw [hplace] at henter
      have hplain := hanswers place n hplace
      rw [runWith, if_pos (hready 0)] at herror
      obtain rfl | ⟨time, p, o, hreaches, hcycle⟩ := ReachesAt.here.eq_error herror
      · rfl
      · obtain ⟨htame, hplaceReady⟩ := hreaches.ready h hsize hready henter.1 henter.2 hplain
        have hstays := cycle_stays settings.validate h hsize (hready time) htame hplaceReady
          (hplain time p o hreaches) o rfl
        rw [hcycle] at hstays
        exact hstays

/-- Natives that never answer with a frame. -/
theorem answersPlainly_of_natives {envs : Nat → Environment} {validate : Bool}
    (h : ∀ time, ∀ native ∈ (envs time).natives, ∀ call value,
      (native.respond call).result = .ok value → value.isFrame = false) :
    AnswersPlainly program envs validate place m := by
  intro time p n _ i _ _ native arguments value hnative _ hvalue
  exact h time native (Array.mem_of_getElem? hnative) _ value hvalue

/-- Natives for the host functions of `Compilation.sampleScript`. One of them answers with the time, and
the other one fails only at the start. -/
def sampleEnvironment (time : Nat) : Environment :=
  ⟨#[⟨"store", 1, .function, fun call => ⟨.ok (.number (.ofNat time)), [toString call.arguments.length]⟩⟩,
    ⟨"log", 1, .action, fun call =>
      ⟨if time = 0 then .error (toString call.arguments.length) else .ok .nothing, []⟩⟩]⟩

theorem plain_sampleEnvironment (time : Nat) : ∀ native ∈ (sampleEnvironment time).natives,
    ∀ call value, (native.respond call).result = .ok value → value.isFrame = false := by
  intro native hnative call value hvalue
  simp only [sampleEnvironment, List.mem_toArray, List.mem_cons, List.not_mem_nil, or_false] at hnative
  rcases hnative with rfl | rfl
  · cases hvalue
    rfl
  · dsimp only at hvalue
    split at hvalue
    · cases hvalue
    · cases hvalue
      rfl

theorem ready_sampleEnvironment {program : Program}
    (h : Compilation.sampleHost.compile Compilation.sampleScript = .ok program) :
    (∀ time, (sampleEnvironment time).isReady program = true) ∧ program.code.size ≤ 2 ^ 24 := by
  have hall : ((Compilation.sampleHost.compile Compilation.sampleScript).toOption.any fun p =>
      (sampleEnvironment 0).isReady p && decide (p.code.size ≤ 16777216)) = true := by cbv
  rw [h] at hall
  obtain ⟨hready, hsize⟩ : (sampleEnvironment 0).isReady program = true ∧ program.code.size ≤ 2 ^ 24 := by
    simpa [Except.toOption] using hall
  exact ⟨fun _ => hready, hsize⟩

/-- The host calls a function with a truth value where the script wants a number. -/
theorem compiled_run_keeps_control_sample : ∃ program m,
    Compilation.sampleHost.compile Compilation.sampleScript = .ok program ∧ create {} = .ok m ∧
    (∀ place n, (Entry.call "twice" [.bool true]).enter program m = .ok place n → ∀ time p n',
      ReachesAt program sampleEnvironment false place n time p n' → program.isBoundary p = true) ∧
    ∀ e m', (Entry.call "twice" [.bool true]).run {} program sampleEnvironment m = .error e m' →
      e.losesControl = false := by
  obtain ⟨program, hprogram⟩ := Compilation.compiles_sampleScript
  obtain ⟨hready, hsize⟩ := ready_sampleEnvironment hprogram
  obtain ⟨m, hcreate⟩ : ∃ m, create {} = .ok m := ⟨_, rfl⟩
  refine ⟨program, m, hprogram, hcreate, ?_⟩
  exact compiled_run_keeps_control Compilation.prepared_sampleHost hprogram hsize hready hcreate
    (.call "twice" [.bool true]) (by simp [Entry.arguments, Value.isFrame])
    fun place n _ => answersPlainly_of_natives plain_sampleEnvironment

end Machine

end ScriptMachine
