import Mathlib
import ScriptMachine.Proofs.Iteration
import ScriptMachine.Proofs.Machine.ControlFlow
import ScriptMachine.Proofs.Machine.Passage
import ScriptMachine.Proofs.Machine.Validation
import ScriptMachine.Proofs.Machine.Yield

/-!
# Instructions that steer a run

What the instructions of branches and loops do to a machine, and where a run goes behind them. The
checks around an instruction are met once here: they accept a jump into the code, and a stack on which
the frame of a call is where it should be.

Code without such instructions is straight. A run through it either fails or passes its places one
after the other.
-/

namespace ScriptMachine

namespace Check

variable {program : Program} {env : Environment} {stack : Stack} {i : Instruction}

theorem before_of_address (hoperands : i.op.operands = [.address])
    (htarget : i.first.toNat < program.code.size) :
    before stack program env i = operation stack program env i := by
  have hoperand : operand program .address i.first = .ok () := if_neg (Nat.not_le.mpr htarget)
  simp [before, operands, hoperands, hoperand, bind, Except.bind, pure, Except.pure]

/-- The check of the type of the topmost value accepts it. -/
theorem typed_top {α : Type} {type : String} {as : Value → Option α} {d : Nat} {a : α}
    (hdepth : stack.depth = d + 1) (htop : as (Slots.read stack.slots d) = some a) :
    typed stack 0 type (fun v => (as v).isSome) = .ok () := by
  rw [typed_eq .halt type as (n := 0) hdepth, Value.require, htop]
  rfl

theorem before_storeLocal (hop : i.op = .storeLocal) {frame : Frame}
    (hframe : stack.currentFrame = some frame) (hindex : i.first.toNat < frame.reserved)
    (hdepth : 1 ≤ stack.depth) : before stack program env i = .ok () := by
  have hlocal : localSlot stack i.first = .ok () := by simp [localSlot, hframe, hindex]
  simp [before, operands, operation, hop, Opcode.operands, operand, hlocal, depth_eq hdepth, bind,
    Except.bind, pure, Except.pure]

theorem after_of_frame {index : Nat} {frame : Frame} (hdepth : stack.depth ≤ stack.capacity)
    (hindex : stack.frame = some index) (hlive : index < stack.depth)
    (hframe : Slots.read stack.slots index = .frame frame) : after stack = .ok () := by
  simp [after, Nat.not_lt.mpr hdepth, hindex, hframe, hlive, Value.isFrame]

end Check

namespace Machine

open Outcome

variable {program : Program} {env : Environment} {validate : Bool} {i : Instruction} {m n : Machine}
  {d : Nat}

/-! ### Cycles of checked instructions -/

theorem continueAt_of_after {place : Nat} (h : validate = true → Check.after m.stack = .ok ()) :
    continueAt validate i place m = .ok (.goOn place) m := by
  cases validate with
  | false => rfl
  | true => exact continueAt_ok (h rfl)

theorem cycle_next (hi : i ∈ program.instructions)
    (hbefore : Check.before m.stack program env i = .ok ()) (hstep : step program env i m = .ok .next n)
    (hafter : validate = true → Check.after n.stack = .ok ()) :
    cycle program env validate i.offset m = .ok (.goOn i.nextOffset) n := by
  rw [cycle_of_before (Program.fetch_of_mem hi) fun _ => hbefore, perform_ok hstep,
    continueAt_of_after hafter]

theorem cycle_jump {target : Nat} (hi : i ∈ program.instructions)
    (hbefore : Check.before m.stack program env i = .ok ())
    (hstep : step program env i m = .ok (.jump target) n)
    (hafter : validate = true → Check.after n.stack = .ok ()) :
    cycle program env validate i.offset m = .ok (.goOn target) n := by
  rw [cycle_of_before (Program.fetch_of_mem hi) fun _ => hbefore, perform_jump hstep,
    continueAt_of_after hafter]

theorem passes_jump (hi : i ∈ program.instructions) (hop : i.op = .jump)
    (htarget : i.first.toNat < program.code.size)
    (hafter : validate = true → Check.after m.stack = .ok ()) :
    Passes program env validate [i.offset] i.offset m i.first.toNat m := by
  have hbefore : Check.before m.stack program env i = .ok () := by
    rw [Check.before_of_address (by rw [hop]; rfl) htarget, Check.operation, hop]
  have hstep : step program env i m = .ok (.jump i.first.toNat) m := by
    unfold step
    rw [hop]
    rfl
  exact .single (cycle_jump hi hbefore hstep hafter)

/-- A jump that depends on the value on top takes it away. -/
theorem passes_jumpIfFalse {condition : Bool} (hi : i ∈ program.instructions) (hop : i.op = .jumpIfFalse)
    (htarget : i.first.toNat < program.code.size) (hdepth : m.stack.depth = d + 1)
    (htop : Slots.read m.stack.slots d = .bool condition)
    (hafter : validate = true → Check.after (m.cut d).stack = .ok ()) :
    Passes program env validate [i.offset] i.offset m
      (if condition then i.nextOffset else i.first.toNat) (m.cut d) := by
  have hbefore : Check.before m.stack program env i = .ok () := by
    rw [Check.before_of_address (by rw [hop]; rfl) htarget, Check.operation, hop]
    exact Check.typed_top hdepth (by rw [htop]; rfl)
  have hstep : step program env i m
      = .ok (if condition then .next else .jump i.first.toNat) (m.cut d) := by
    unfold step
    rw [hop]
    simp only [popBool, bind_assoc]
    rw [bind_of_ok (pop_eq hdepth), htop]
    rfl
  cases condition with
  | true => exact .single (cycle_next hi hbefore hstep hafter)
  | false => exact .single (cycle_jump hi hbefore hstep hafter)

theorem drop_one (hdepth : m.stack.depth = d + 1) : drop 1 m = .ok () (m.cut d) := by
  obtain ⟨⟨slots, _, frame⟩, heap, events⟩ := m
  cases hdepth
  rfl

theorem passes_pop1 (hi : i ∈ program.instructions) (hop : i.op = .pop1) (hdepth : m.stack.depth = d + 1)
    (hafter : validate = true → Check.after (m.cut d).stack = .ok ()) :
    Passes program env validate [i.offset] i.offset m i.nextOffset (m.cut d) := by
  have hbefore : Check.before m.stack program env i = .ok () := by
    rw [Check.before_of_operandCount (by rw [hop]; rfl), Check.operation, hop]
    exact Check.depth_eq (by omega)
  have hstep : step program env i m = .ok .next (m.cut d) := by
    unfold step
    rw [hop]
    simp only [thenNext]
    rw [bind_of_ok (drop_one hdepth)]
    rfl
  exact .single (cycle_next hi hbefore hstep hafter)

/-! ### Iterators and locals -/

def withSlot (m : Machine) (index : Nat) (value : Value) : Machine :=
  ⟨⟨m.stack.slots.setIfInBounds index value, m.stack.depth, m.stack.frame⟩, m.heap, m.events⟩

theorem step_makeIter (hop : i.op = .makeIter) {address : Address} {length : UInt32}
    (hdepth : m.stack.depth = d + 1) (hroom : d < m.stack.capacity)
    (htop : Slots.read m.stack.slots d = .array address length) :
    step program env i m = .ok .next (m.withResult d (.iterator address length)) := by
  unfold step
  rw [hop]
  simp only [popArray, bind_assoc]
  rw [bind_of_ok (pop_eq hdepth), htop]
  exact delivers_push _ rfl hroom

theorem passes_makeIter (hi : i ∈ program.instructions) (hop : i.op = .makeIter) {address : Address}
    {length : UInt32} (hdepth : m.stack.depth = d + 1) (hroom : d < m.stack.capacity)
    (htop : Slots.read m.stack.slots d = .array address length)
    (hafter : validate = true → Check.after (m.withResult d (.iterator address length)).stack = .ok ()) :
    Passes program env validate [i.offset] i.offset m i.nextOffset
      (m.withResult d (.iterator address length)) := by
  have hbefore : Check.before m.stack program env i = .ok () := by
    rw [Check.before_of_operandCount (by rw [hop]; rfl), Check.operation, hop]
    exact Check.typed_top hdepth (by rw [htop]; rfl)
  exact .single (cycle_next hi hbefore (step_makeIter hop hdepth hroom htop) hafter)

theorem peek_top (hdepth : m.stack.depth = d + 1) : peek 0 m = .ok (Slots.read m.stack.slots d) m := by
  refine readStack_of_ok (Stack.peek_eq_ok.mpr ⟨by omega, ?_⟩)
  rw [hdepth]
  rfl

theorem set_top (hdepth : m.stack.depth = d + 1) (value : Value) :
    onStack (Stack.set 0 value) m = .ok () (m.withSlot d value) := by
  obtain ⟨⟨slots, _, frame⟩, heap, events⟩ := m
  cases hdepth
  rfl

/-- An iterator with elements left has one less after the next one. -/
theorem ofNat_sub_one {length k : Nat} (hlength : length < 0x100000000) (hk : k < length) :
    UInt32.ofNat (length - k) ≠ 0 ∧
      UInt32.ofNat (length - k) - 1 = UInt32.ofNat (length - (k + 1)) := by
  have hsplit : length - k = length - (k + 1) + 1 := by omega
  have hone : (UInt32.ofNat (length - k)).toNat = length - k := by
    rw [UInt32.toNat_ofNat']
    exact Nat.mod_eq_of_lt (by omega)
  refine ⟨fun hzero => ?_, ?_⟩
  · rw [hzero, UInt32.toNat_zero] at hone
    omega
  · rw [hsplit, UInt32.ofNat_add]
    exact UInt32.add_sub_cancel _ _

theorem expect_iterator (address : Address) (remaining : UInt32) (m : Machine) :
    expect .iterNext "iterator" Value.iterator? (.iterator address remaining) m
      = .ok (address, remaining) m :=
  rfl

theorem step_iterNext (hop : i.op = .iterNext) {address : Address} {remaining : UInt32} {element : Value}
    (hdepth : m.stack.depth = d + 1) (hroom : d + 1 < m.stack.capacity)
    (htop : Slots.read m.stack.slots d = .iterator address remaining) (hremaining : remaining ≠ 0)
    (helement : (m.memory program).read? address = some element) :
    step program env i m = .ok .next
      ((m.withSlot d (.iterator (address.after 1) (remaining - 1))).withResult (d + 1) element) := by
  have hget : (get : Action Machine) m = .ok m m := rfl
  unfold step
  rw [hop]
  simp only [iterNext]
  rw [bind_of_ok (peek_top hdepth), htop, bind_of_ok (expect_iterator address remaining m)]
  dsimp only
  rw [if_neg hremaining, bind_of_ok hget, helement]
  dsimp only
  rw [bind_of_ok (set_top hdepth _)]
  exact delivers_push element hdepth (by simpa [withSlot, Stack.capacity] using hroom)

/-- An iterator whose address cannot be read stays as it is. -/
theorem step_iterNext_missing (hop : i.op = .iterNext) {address : Address} {remaining : UInt32}
    (hdepth : m.stack.depth = d + 1) (htop : Slots.read m.stack.slots d = .iterator address remaining)
    (hremaining : remaining ≠ 0) (hmissing : (m.memory program).read? address = none) :
    step program env i m = .error (.badAddress address) m := by
  have hget : (get : Action Machine) m = .ok m m := rfl
  unfold step
  rw [hop]
  simp only [iterNext]
  rw [bind_of_ok (peek_top hdepth), htop, bind_of_ok (expect_iterator address remaining m)]
  dsimp only
  rw [if_neg hremaining, bind_of_ok hget, hmissing]
  rfl

theorem step_iterDone (hop : i.op = .iterNext) {address : Address} (hdepth : m.stack.depth = d + 1)
    (htop : Slots.read m.stack.slots d = .iterator address 0) :
    step program env i m = .ok (.jump i.first.toNat) (m.cut d) := by
  unfold step
  rw [hop]
  simp only [iterNext]
  rw [bind_of_ok (peek_top hdepth), htop, bind_of_ok (expect_iterator address 0 m)]
  dsimp only
  rw [if_pos rfl, bind_of_ok (drop_one hdepth)]
  rfl

theorem passes_iterNext (hi : i ∈ program.instructions) (hop : i.op = .iterNext)
    (htarget : i.first.toNat < program.code.size) {address : Address} {remaining : UInt32} {element : Value}
    (hdepth : m.stack.depth = d + 1) (hroom : d + 1 < m.stack.capacity)
    (htop : Slots.read m.stack.slots d = .iterator address remaining) (hremaining : remaining ≠ 0)
    (helement : (m.memory program).read? address = some element)
    (hafter : validate = true → Check.after ((m.withSlot d (.iterator (address.after 1)
      (remaining - 1))).withResult (d + 1) element).stack = .ok ()) :
    Passes program env validate [i.offset] i.offset m i.nextOffset
      ((m.withSlot d (.iterator (address.after 1) (remaining - 1))).withResult (d + 1) element) := by
  have hbefore : Check.before m.stack program env i = .ok () := by
    rw [Check.before_of_address (by rw [hop]; rfl) htarget, Check.operation, hop]
    exact Check.typed_top hdepth (by rw [htop]; rfl)
  exact .single (cycle_next hi hbefore (step_iterNext hop hdepth hroom htop hremaining helement) hafter)

theorem passes_iterDone (hi : i ∈ program.instructions) (hop : i.op = .iterNext)
    (htarget : i.first.toNat < program.code.size) {address : Address}
    (hdepth : m.stack.depth = d + 1) (htop : Slots.read m.stack.slots d = .iterator address 0)
    (hafter : validate = true → Check.after (m.cut d).stack = .ok ()) :
    Passes program env validate [i.offset] i.offset m i.first.toNat (m.cut d) := by
  have hbefore : Check.before m.stack program env i = .ok () := by
    rw [Check.before_of_address (by rw [hop]; rfl) htarget, Check.operation, hop]
    exact Check.typed_top hdepth (by rw [htop]; rfl)
  exact .single (cycle_jump hi hbefore (step_iterDone hop hdepth htop) hafter)

theorem store_eq {index : Nat} (hindex : m.stack.frame = some index) {slot : Nat}
    (hlive : index + 1 + slot < m.stack.depth) (value : Value) :
    onStack (Stack.store slot value) m = .ok () (m.withSlot (index + 1 + slot) value) := by
  obtain ⟨⟨slots, depth, frame⟩, heap, events⟩ := m
  cases hindex
  simp only [onStack, Stack.store, Stack.localSlot]
  rw [if_pos hlive]
  rfl

theorem passes_storeLocal (hi : i ∈ program.instructions) (hop : i.op = .storeLocal) {index : Nat}
    {frame : Frame} (hdepth : m.stack.depth = d + 1) (hindex : m.stack.frame = some index)
    (hframe : Slots.read m.stack.slots index = .frame frame) (hslot : i.first.toNat < frame.reserved)
    (hlive : index + frame.reserved < d)
    (hafter : validate = true → Check.after ((m.cut d).withSlot (index + 1 + i.first.toNat)
      (Slots.read m.stack.slots d)).stack = .ok ()) :
    Passes program env validate [i.offset] i.offset m i.nextOffset
      ((m.cut d).withSlot (index + 1 + i.first.toNat) (Slots.read m.stack.slots d)) := by
  have hcurrent : m.stack.currentFrame = some frame := by
    simp [Stack.currentFrame, hindex, hframe, Value.frame?]
  have hbefore : Check.before m.stack program env i = .ok () :=
    Check.before_storeLocal hop hcurrent hslot (by omega)
  have hstep : step program env i m = .ok .next
      ((m.cut d).withSlot (index + 1 + i.first.toNat) (Slots.read m.stack.slots d)) := by
    unfold step
    rw [hop]
    simp only [thenNext]
    have hlocal : index + 1 + i.first.toNat < (m.cut d).stack.depth := by
      simp only [cut]
      omega
    rw [bind_of_ok (pop_eq hdepth), bind_of_ok (store_eq (m := m.cut d) hindex hlocal _)]
    rfl
  exact .single (cycle_next hi hbefore hstep hafter)

/-! ### Straight code -/

/-- If the action succeeds, control goes on to the next instruction. -/
def Onwards (action : Action Flow) : Prop :=
  ∀ m flow n, action m = .ok flow n → flow = .next

theorem Onwards.bind {α : Type} {x : Action α} {f : α → Action Flow} (h : ∀ a, Onwards (f a)) :
    Onwards (x >>= f) := by
  intro m flow n hrun
  obtain ⟨a, middle, -, hrest⟩ := bind_eq_ok.mp hrun
  exact h a middle flow n hrest

theorem onwards_pure : Onwards (pure .next) := by
  intro m flow n hrun
  exact (pure_eq_ok.mp hrun).1.symm

theorem onwards_throw (fault : Fault) : Onwards (throw fault) := by
  intro m flow n hrun
  exact absurd hrun throw_ne_ok

theorem onwards_thenNext (action : Action Unit) : Onwards (thenNext action) :=
  .bind fun _ => onwards_pure

theorem onwards_numberOperator (op : Opcode) : Onwards (numberOperator op) := by
  refine .bind fun x => .bind fun y => ?_
  cases arithmetic op x y with
  | ok value => exact .bind fun _ => onwards_pure
  | error fault => exact .bind fun _ => onwards_pure

theorem onwards_boolOperator (op : Opcode) (f : Bool → Bool → Bool) : Onwards (boolOperator op f) :=
  .bind fun _ => .bind fun _ => .bind fun _ => onwards_pure

theorem onwards_compare (equal : Bool) : Onwards (compare equal) :=
  .bind fun _ => .bind fun _ => .bind fun _ => onwards_pure

end Machine

def Opcode.isStraight : Opcode → Bool
  | .and | .or | .not | .mul | .div | .mod | .add | .sub | .neg | .cmpEqual | .cmpNotEqual
  | .cmpLessThan | .cmpMoreThan | .cmpLessThanOrEqual | .cmpMoreThanOrEqual | .pushValue | .loadLocal
  | .arrayLength => true
  | _ => false

namespace Machine

open Outcome

variable {program : Program} {env : Environment} {validate : Bool} {i : Instruction} {m n : Machine}

theorem onwards_step (h : i.op.isStraight = true) : Onwards (step program env i) := by
  unfold step
  cases hop : i.op with
  | and | or => exact onwards_boolOperator _ _
  | mul | div | mod | add | sub | cmpLessThan | cmpMoreThan | cmpLessThanOrEqual | cmpMoreThanOrEqual =>
    exact onwards_numberOperator _
  | cmpEqual | cmpNotEqual => exact onwards_compare _
  | not | neg | loadLocal | arrayLength => exact .bind fun _ => onwards_thenNext _
  | pushValue =>
    cases program.constants[i.first.toNat]? with
    | none => exact onwards_throw _
    | some value => exact onwards_thenNext _
  | _ =>
    rw [hop] at h
    cases h

/-- A cycle of a straight instruction fails or goes on to the next one. -/
theorem cycle_straight (hi : i ∈ program.instructions) (hop : i.op.isStraight = true)
    {decision : Cycle} (h : cycle program env validate i.offset m = .ok decision n) :
    decision = .goOn i.nextOffset := by
  have hperform : perform program env validate i m = .ok decision n := by
    unfold cycle at h
    rw [Program.fetch_of_mem hi] at h
    cases validate with
    | false => exact h
    | true =>
      cases hbefore : Check.before m.stack program env i with
      | error cause => simp [hbefore] at h
      | ok u => simpa [hbefore] using h
  obtain ⟨flow, middle, hstep, hcontinue⟩ := bind_eq_ok.mp hperform
  cases onwards_step hop m flow middle hstep
  simp only [continueAt] at hcontinue
  split at hcontinue
  · split at hcontinue
    · cases hcontinue
      rfl
    · cases hcontinue
  · cases hcontinue
    rfl

end Machine

end ScriptMachine
