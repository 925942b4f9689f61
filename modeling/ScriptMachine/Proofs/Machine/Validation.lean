import Mathlib
import ScriptMachine.Proofs.Machine.Operation
import ScriptMachine.Proofs.Machine.Tame
import ScriptMachine.Proofs.Stack

/-!
# What the checks around instructions are worth

The checks before an instruction say in a second place what the instruction needs: how many values,
of which types, which operands. Here the two places are compared, operation by operation and for
every content of the stack: a checked instruction does not fail in a way that a check is there to
prevent. One need is not covered, because the checks only look at the number of slots that a frame
has reserved: values below the reserved slots may have been popped, and then a local is gone.

A check that finds nothing leaves no trace. A checked run that no check ends is therefore the run
without checks, cycle by cycle.
-/

namespace ScriptMachine

open Outcome

namespace Fault

/-- The faults that the checks before an instruction are there to prevent. -/
def preventable : Fault → Bool
  | .stackUnderflow | .typeMismatch _ _ _ | .badConstant _ | .badImport _ | .badOperand _ _
  | .frame (.badReturnMarker _) | .frame .noFrame => true
  | _ => false

end Fault

/-- The instruction reads or writes a local of the running call, one of the slots that the frame has
reserved, which is not on the live stack any more. -/
structure Instruction.LosesLocal (i : Instruction) (index : Nat) (s : Stack) : Prop where
  op : i.op = .loadLocal ∨ i.op = .storeLocal
  operand : i.first.toNat = index
  slot : ∃ base frame, s.frame = some base ∧ s.currentFrame = some frame ∧ index < frame.reserved ∧
    s.depth ≤ base + 1 + index

/-! ### What a passed check says -/

namespace Check

variable {stack : Stack} {program : Program} {env : Environment} {i : Instruction}

theorem then_eq_ok {x y : Outcome} : (x >>= fun _ => y) = .ok () ↔ x = .ok () ∧ y = .ok () := by
  cases x with
  | error e => simp [bind, Except.bind]
  | ok u => simp [bind, Except.bind]

theorem depth_eq_ok {n : Nat} : depth stack n = .ok () ↔ n ≤ stack.depth := by
  unfold depth
  by_cases hn : stack.depth < n
  · simp [hn]
  · simp [hn, Nat.not_lt.mp hn]

theorem typed_ok {α : Type} {n : Nat} {type : String} {as : Value → Option α}
    (h : typed stack n type (fun v => (as v).isSome) = .ok ()) :
    ∃ v a, stack.peek n = .ok v ∧ as v = some a := by
  unfold typed at h
  obtain ⟨hdepth, htest⟩ := then_eq_ok.mp h
  have hlt : n < stack.depth := depth_eq_ok.mp hdepth
  cases has : as (Slots.read stack.slots (stack.depth - 1 - n)) with
  | none => simp [has] at htest
  | some a => exact ⟨_, a, Stack.peek_eq_ok.mpr ⟨hlt, rfl⟩, has⟩

theorem byte_eq_ok {value : UInt32} : byte value = .ok () ↔ value.toNat ≤ 255 := by
  unfold byte
  by_cases hlarge : 255 < value.toNat
  · simp [hlarge]
  · simp [hlarge, Nat.not_lt.mp hlarge]

theorem localSlot_ok {index : UInt32} (h : localSlot stack index = .ok ()) :
    ∃ base frame, stack.frame = some base ∧ stack.currentFrame = some frame ∧
      index.toNat < frame.reserved := by
  unfold localSlot at h
  cases hcurrent : stack.currentFrame with
  | none => simp [hcurrent] at h
  | some frame =>
    cases hbase : stack.frame with
    | none => simp [Stack.currentFrame, hbase] at hcurrent
    | some base =>
      refine ⟨base, frame, rfl, rfl, ?_⟩
      by_contra hindex
      simp [hcurrent, Nat.not_lt.mp hindex] at h

/-- The number on top counts values that lie below it. -/
theorem elementCount_ok (h : elementCount stack = .ok ()) :
    ∃ x : Number, stack.peek 0 = .ok (.number x) ∧ x.isCount = true ∧ x.toCount < stack.depth := by
  unfold elementCount at h
  obtain ⟨hnumber, hcount⟩ := then_eq_ok.mp h
  obtain ⟨v, x, htop, hv⟩ := typed_ok hnumber
  cases v with
  | number y =>
    have hread := (Stack.peek_eq_ok.mp htop).2
    rw [Nat.sub_zero] at hread
    simp only [hread] at hcount
    by_cases hisCount : y.isCount
    · rw [if_pos hisCount] at hcount
      exact ⟨y, htop, hisCount, depth_eq_ok.mp hcount⟩
    · rw [if_neg hisCount] at hcount
      cases hcount
  | _ => cases hv

theorem constant_lt (hop : i.op = .pushValue) (h : operands program i = .ok ()) :
    i.first.toNat < program.constants.size := by
  by_contra hlarge
  simp [operands, hop, Opcode.operands, operand, Nat.not_lt.mp hlarge, bind, Except.bind] at h

end Check

namespace Machine

variable {program : Program} {env : Environment} {m : Machine} {i : Instruction} {α β : Type}

/-! ### What is left to go wrong -/

/-- A way in which a checked instruction may still fail. -/
structure Left (i : Instruction) (e : Fault) (m : Machine) : Prop where
  unforeseen : e.preventable = false
  gone : ∀ index depth, e = .frame (.localOutOfRange index depth) → i.LosesLocal index m.stack

/-- On this machine the action fails in such a way, if at all. -/
def Spared (i : Instruction) (action : Action α) (m : Machine) : Prop :=
  ∀ e m', action m = .error e m' → Left i e m'

theorem Spared.bind {x : Action α} {f : α → Action β} (hx : Spared i x m)
    (hf : ∀ a n, x m = .ok a n → Spared i (f a) n) : Spared i (x >>= f) m := by
  intro e m' h
  obtain hfirst | ⟨a, n, ha, hrest⟩ := bind_eq_error.mp h
  · exact hx e m' hfirst
  · exact hf a n ha e m' hrest

theorem spared_of_ok {x : Action α} {a : α} {n : Machine} (h : x m = .ok a n) : Spared i x m := by
  intro e m' herror
  rw [h] at herror
  cases herror

/-- An action whose first part is known to end well. -/
theorem Spared.after {x : Action α} {f : α → Action β} {a : α} {n : Machine} (hx : x m = .ok a n)
    (hf : Spared i (f a) n) : Spared i (x >>= f) m := by
  apply (spared_of_ok hx).bind
  intro b o hb
  rw [hx] at hb
  cases hb
  exact hf

theorem spared_pure (a : α) : Spared i (pure a) m :=
  spared_of_ok rfl

theorem spared_throw {e : Fault} (hforeseen : e.preventable = false)
    (hlocal : ∀ index depth, e ≠ .frame (.localOutOfRange index depth)) :
    Spared i (throw e : Action α) m := by
  intro d m' h
  obtain ⟨rfl, -⟩ := throw_eq_error.mp h
  exact ⟨hforeseen, fun index depth heq => absurd heq (hlocal index depth)⟩

theorem spared_get {f : Machine → Action α} (h : Spared i (f m) m) : Spared i (get >>= f) m :=
  h

theorem emit_eq (new : List Event) :
    emit new m = .ok () ⟨m.stack, m.heap, m.events ++ new⟩ :=
  rfl

theorem spared_onStack {action : Stack.Action α}
    (h : ∀ e s, action m.stack = .error e s → e = .overflow) : Spared i (onStack action) m := by
  obtain ⟨stack, heap, events⟩ := m
  intro e m' herror
  simp only [onStack] at herror
  cases haction : action stack with
  | ok a s =>
    rw [haction] at herror
    cases herror
  | error d s =>
    rw [haction] at herror
    cases herror
    obtain rfl := h d s haction
    exact ⟨rfl, fun _ _ heq => by cases heq⟩

theorem spared_onHeap (action : Heap.Action α) : Spared i (onHeap action) m := by
  obtain ⟨stack, heap, events⟩ := m
  intro e m' herror
  simp only [onHeap] at herror
  cases haction : action heap with
  | ok a h =>
    rw [haction] at herror
    cases herror
  | error d h =>
    rw [haction] at herror
    cases herror
    exact ⟨rfl, fun _ _ heq => by cases heq⟩

theorem stack_of_onHeap {action : Heap.Action α} {a : α} {m' : Machine} (h : onHeap action m = .ok a m') :
    m'.stack = m.stack := by
  obtain ⟨stack, heap, events⟩ := m
  simp only [onHeap] at h
  cases haction : action heap with
  | ok b g =>
    rw [haction] at h
    cases h
    rfl
  | error d g =>
    rw [haction] at h
    cases h

theorem spared_push (value : Value) : Spared i (push value) m := by
  apply spared_onStack
  intro e s h
  obtain ⟨⟨slots, depth, frame⟩, heap, events⟩ := m
  simp only [Stack.push] at h
  split at h
  · cases h
  · cases h
    rfl

theorem spared_thenNext {action : Action Unit} (h : Spared i action m) : Spared i (thenNext action) m :=
  h.bind fun _ _ _ => spared_pure _

theorem spared_pushNext (value : Value) : Spared i (thenNext (push value)) m :=
  spared_thenNext (spared_push value)

theorem spared_drop {n : Nat} (h : n ≤ m.stack.depth) : Spared i (drop n) m := by
  apply spared_onStack
  intro e s herror
  obtain ⟨⟨slots, depth, frame⟩, heap, events⟩ := m
  simp only [Stack.drop] at herror
  rw [if_pos h] at herror
  cases herror

/-! ### Taking operands that are there -/

def popped (m : Machine) : Machine :=
  m.cut (m.stack.depth - 1)

theorem peek_popped (m : Machine) (n : Nat) : m.popped.stack.peek n = m.stack.peek (n + 1) := by
  have hindex : m.stack.depth - 1 - 1 - n = m.stack.depth - 1 - (n + 1) := by omega
  have hlive : n < m.stack.depth - 1 ↔ n + 1 < m.stack.depth := by omega
  simp only [popped, cut, Stack.peek, hindex, hlive]

theorem pop_of_peeked {v : Value} (h : m.stack.peek 0 = .ok v) : pop m = .ok v m.popped := by
  obtain ⟨hdepth, hread⟩ := Stack.peek_eq_ok.mp h
  rw [Nat.sub_zero] at hread
  rw [← hread]
  exact pop_eq (by omega)

theorem popAs_of_peeked {op : Opcode} {type : String} {as : Value → Option α} {v : Value} {a : α}
    (h : m.stack.peek 0 = .ok v) (hv : as v = some a) :
    (pop >>= expect op type as) m = .ok a m.popped := by
  apply bind_eq_ok.mpr
  refine ⟨v, m.popped, pop_of_peeked h, ?_⟩
  rw [expect, hv]
  rfl

theorem peek_of_lt {n : Nat} (h : n < m.stack.depth) : ∃ v, m.stack.peek n = .ok v :=
  ⟨_, Stack.peek_eq_ok.mpr ⟨h, rfl⟩⟩

theorem readStack_of_ok {read : Stack → Except StackError α} {a : α} (h : read m.stack = .ok a) :
    readStack read m = .ok a m := by
  rw [readStack, h]

theorem top_of_le {n : Nat} (h : n ≤ m.stack.depth) :
    ∃ values, readStack (·.top n) m = .ok values m :=
  ⟨_, readStack_of_ok (if_pos h)⟩

/-! ### One operation after the other -/

theorem spared_boolOperator (op : Opcode) (f : Bool → Bool → Bool)
    (hfirst : Check.bool m.stack 0 = .ok ()) (hsecond : Check.bool m.stack 1 = .ok ()) :
    Spared i (boolOperator op f) m := by
  obtain ⟨v, a, hv, ha⟩ := Check.typed_ok hfirst
  obtain ⟨w, b, hw, hb⟩ := Check.typed_ok hsecond
  rw [← peek_popped] at hw
  exact .after (popAs_of_peeked hv ha) (.after (popAs_of_peeked hw hb) (spared_pushNext _))

theorem spared_numberOperator (op : Opcode) (hfirst : Check.number m.stack 0 = .ok ())
    (hsecond : Check.number m.stack 1 = .ok ()) : Spared i (numberOperator op) m := by
  obtain ⟨v, x, hv, hx⟩ := Check.typed_ok hfirst
  obtain ⟨w, y, hw, hy⟩ := Check.typed_ok hsecond
  rw [← peek_popped] at hw
  apply Spared.after (popAs_of_peeked hv hx)
  apply Spared.after (popAs_of_peeked hw hy)
  obtain ⟨value, hvalue, -⟩ | hzero := arithmetic_cases op x y
  · rw [hvalue]
    exact spared_pushNext value
  · rw [hzero]
    have hthrow : Spared i (throw .divisionByZero : Action PUnit) m.popped.popped :=
      spared_throw rfl fun _ _ heq => by cases heq
    exact hthrow.bind fun _ _ _ => spared_pure _

theorem spared_compare (equal : Bool) (h : 2 ≤ m.stack.depth) : Spared i (compare equal) m := by
  obtain ⟨v, hv⟩ := peek_of_lt (n := 0) (m := m) (by omega)
  obtain ⟨w, hw⟩ := peek_of_lt (n := 1) (m := m) (by omega)
  rw [← peek_popped] at hw
  exact .after (pop_of_peeked hv) (.after (pop_of_peeked hw) (spared_pushNext _))

theorem spared_makeFrame (hop : i.op = .makeFrame)
    (h : Check.operation m.stack program env i = .ok ()) : Spared i (step program env i) m := by
  simp only [Check.operation, hop] at h
  obtain ⟨hfirst, h⟩ := Check.then_eq_ok.mp h
  obtain ⟨hsecond, h⟩ := Check.then_eq_ok.mp h
  obtain ⟨hmarker, hdepth⟩ := Check.then_eq_ok.mp h
  rw [Check.byte_eq_ok] at hfirst hsecond
  rw [Check.depth_eq_ok] at hdepth
  obtain ⟨v, x, hv, hx⟩ := Check.typed_ok hmarker
  have hcount : i.first.toUInt8.toNat = i.first.toNat := by
    rw [UInt32.toNat_toUInt8]
    omega
  simp only [step, hop, byteOperand, hfirst, hsecond, if_true, pure_bind]
  apply spared_thenNext
  apply spared_onStack
  intro e s herror
  obtain ⟨⟨slots, depth, frame⟩, heap, events⟩ := m
  obtain ⟨hlive, hread⟩ := Stack.peek_eq_ok.mp hv
  cases v with
  | number y =>
    cases depth with
    | zero => cases hlive
    | succ n =>
      have hpop : Stack.pop ⟨slots, n + 1, frame⟩ = .ok (.number y) ⟨slots, n, frame⟩ := by
        rw [← hread]
        rfl
      -- The marker is popped, and the arguments are still there.
      obtain hfail | ⟨w, t, hw, hopen⟩ := bind_eq_error.mp herror
      · rw [hpop] at hfail
        cases hfail
      · rw [hpop] at hw
        cases hw
        have henough : ¬ n < i.first.toUInt8.toNat := by
          simp only at hdepth
          omega
        simp only [Stack.openFrame, if_neg henough] at hopen
        split at hopen
        · cases hopen
          rfl
        · cases hopen
  | _ => cases hx

theorem spared_makeArray (h : Check.elementCount m.stack = .ok ()) : Spared i makeArray m := by
  obtain ⟨x, hx, hcount, hlt⟩ := Check.elementCount_ok h
  have henough : x.toCount ≤ m.popped.stack.depth := Nat.le_sub_one_of_lt hlt
  obtain ⟨values, hvalues⟩ := top_of_le henough
  have hsize : popNumber .makeArray m = .ok x m.popped := popAs_of_peeked hx rfl
  apply Spared.after hsize
  simp only [hcount, Bool.not_true, Bool.false_eq_true, if_false]
  apply Spared.after hvalues
  have hallocates : Spared i (allocate x.toCount) m.popped :=
    spared_onHeap (m := m.popped) (Heap.allocate x.toCount m.popped.stack.live)
  apply hallocates.bind
  intro address n hallocate
  apply Spared.bind (spared_onHeap _)
  intro copied o hcopy
  have hstack : o.stack = m.popped.stack := (stack_of_onHeap hcopy).trans (stack_of_onHeap hallocate)
  apply Spared.bind (spared_drop (hstack ▸ henough))
  intro _ _ _
  exact spared_pushNext _

theorem spared_set {n : Nat} {value : Value} (h : n < m.stack.depth) :
    Spared i (onStack (Stack.set n value)) m := by
  apply spared_onStack
  intro e s herror
  obtain ⟨⟨slots, depth, frame⟩, heap, events⟩ := m
  simp only [Stack.set] at herror
  rw [if_pos h] at herror
  cases herror

theorem spared_iterNext (exit : UInt32)
    (h : Check.typed m.stack 0 "iterator" (·.iterator?.isSome) = .ok ()) :
    Spared i (iterNext program exit) m := by
  obtain ⟨v, ⟨current, remaining⟩, hv, hiterator⟩ := Check.typed_ok h
  have hlive := (Stack.peek_eq_ok.mp hv).1
  have hexpect : expect .iterNext "iterator" Value.iterator? v m = .ok (current, remaining) m := by
    rw [expect, hiterator]
    rfl
  apply Spared.after (readStack_of_ok hv)
  apply Spared.after hexpect
  dsimp only
  split
  · exact (spared_drop hlive).bind fun _ _ _ => spared_pure _
  · apply spared_get
    cases hread : (m.memory program).read? current with
    | none => exact spared_throw rfl fun _ _ heq => by cases heq
    | some element => exact (spared_set hlive).bind fun _ _ _ => spared_pushNext element

theorem spared_callNative {native : Native} {index : UInt32} (hnative : env.get? index.toNat = some native)
    (h : native.arity.toNat ≤ m.stack.depth) : Spared i (callNative program env index) m := by
  obtain ⟨arguments, harguments⟩ := top_of_le h
  simp only [callNative, hnative]
  apply Spared.after harguments
  apply spared_get
  apply Spared.after (emit_eq _)
  split
  · exact spared_throw rfl fun _ _ heq => by cases heq
  · apply Spared.bind
    · exact spared_drop h
    · intro _ _ _
      split
      · exact spared_pushNext _
      · exact spared_pure _

/-- A local that is not found lies above the live stack. -/
theorem left_of_localSlot {e : StackError} {base : Nat} {frame : Frame} {m : Machine}
    (hop : i.op = .loadLocal ∨ i.op = .storeLocal) (hbase : m.stack.frame = some base)
    (hframe : m.stack.currentFrame = some frame) (hindex : i.first.toNat < frame.reserved)
    (h : m.stack.localSlot i.first.toNat = .error e) : Left i (.ofStack e) m := by
  simp only [Stack.localSlot, hbase] at h
  by_cases hlive : base + 1 + i.first.toNat < m.stack.depth
  · rw [if_pos hlive] at h
    cases h
  · rw [if_neg hlive] at h
    cases h
    refine ⟨rfl, ?_⟩
    intro index depth heq
    cases heq
    exact ⟨hop, rfl, base, frame, hbase, hframe, hindex, Nat.not_lt.mp hlive⟩

theorem spared_loadLocal (hop : i.op = .loadLocal) (h : Check.localSlot m.stack i.first = .ok ()) :
    Spared i (readStack (·.load i.first.toNat)) m := by
  obtain ⟨base, frame, hbase, hframe, hindex⟩ := Check.localSlot_ok h
  intro e m' herror
  rw [readStack] at herror
  cases hslot : m.stack.localSlot i.first.toNat with
  | ok slot =>
    simp only [Stack.load, hslot] at herror
    cases herror
  | error d =>
    simp only [Stack.load, hslot] at herror
    cases herror
    exact left_of_localSlot (.inl hop) hbase hframe hindex hslot

theorem spared_storeLocal (hop : i.op = .storeLocal) {value : Value}
    (h : Check.localSlot m.stack i.first = .ok ()) :
    Spared i (onStack (Stack.store i.first.toNat value)) m := by
  obtain ⟨base, frame, hbase, hframe, hindex⟩ := Check.localSlot_ok h
  intro e m' herror
  cases hslot : m.stack.localSlot i.first.toNat with
  | ok slot =>
    simp only [onStack, Stack.store, hslot] at herror
    cases herror
  | error d =>
    simp only [onStack, Stack.store, hslot] at herror
    cases herror
    exact left_of_localSlot (.inr hop) hbase hframe hindex hslot

/-- A checked instruction fails only in ways that the checks do not cover. -/
theorem spared_step (h : Check.before m.stack program env i = .ok ()) :
    Spared i (step program env i) m := by
  obtain ⟨hoperands, h⟩ := Check.then_eq_ok.mp h
  cases hop : i.op with
  | makeFrame => exact spared_makeFrame hop h
  | halt =>
    simp only [step, hop]
    exact spared_throw rfl fun _ _ heq => by cases heq
  | and | or =>
    simp only [Check.operation, hop] at h
    obtain ⟨hfirst, hsecond⟩ := Check.then_eq_ok.mp h
    simp only [step, hop]
    exact spared_boolOperator _ _ hfirst hsecond
  | mul | div | mod | add | sub | cmpLessThan | cmpMoreThan | cmpLessThanOrEqual | cmpMoreThanOrEqual =>
    simp only [Check.operation, hop] at h
    obtain ⟨hfirst, hsecond⟩ := Check.then_eq_ok.mp h
    simp only [step, hop]
    exact spared_numberOperator _ hfirst hsecond
  | cmpEqual | cmpNotEqual =>
    simp only [Check.operation, hop, Check.depth_eq_ok] at h
    simp only [step, hop]
    exact spared_compare _ h
  | not =>
    simp only [Check.operation, hop] at h
    obtain ⟨v, a, hv, ha⟩ := Check.typed_ok h
    simp only [step, hop]
    exact .after (popAs_of_peeked hv ha) (spared_pushNext _)
  | neg =>
    simp only [Check.operation, hop] at h
    obtain ⟨v, x, hv, hx⟩ := Check.typed_ok h
    simp only [step, hop]
    exact .after (popAs_of_peeked hv hx) (spared_pushNext _)
  | dup1 =>
    simp only [Check.operation, hop, Check.depth_eq_ok] at h
    obtain ⟨v, hv⟩ := peek_of_lt h
    simp only [step, hop]
    exact .after (readStack_of_ok hv) (spared_pushNext _)
  | dup2 =>
    simp only [Check.operation, hop, Check.depth_eq_ok] at h
    obtain ⟨v, hv⟩ := peek_of_lt (Nat.zero_lt_of_lt h)
    obtain ⟨w, hw⟩ := peek_of_lt h
    simp only [step, hop]
    apply Spared.after (readStack_of_ok hw)
    apply Spared.after (readStack_of_ok hv)
    exact (spared_push w).bind fun _ _ _ => spared_pushNext v
  | rot2 =>
    simp only [Check.operation, hop, Check.depth_eq_ok] at h
    obtain ⟨v, hv⟩ := peek_of_lt (Nat.zero_lt_of_lt h)
    obtain ⟨w, hw⟩ := peek_of_lt h
    rw [← peek_popped] at hw
    simp only [step, hop]
    apply Spared.after (pop_of_peeked hv)
    apply Spared.after (pop_of_peeked hw)
    exact (spared_push v).bind fun _ _ _ => spared_pushNext w
  | pushValue =>
    have hvalue := Array.getElem?_eq_getElem (Check.constant_lt hop hoperands)
    simp only [step, hop, hvalue]
    exact spared_pushNext _
  | pop1 | pop2 =>
    simp only [Check.operation, hop, Check.depth_eq_ok] at h
    simp only [step, hop]
    exact spared_thenNext (spared_drop h)
  | jump | exit =>
    simp only [step, hop]
    exact spared_pure _
  | jumpIfFalse =>
    simp only [Check.operation, hop] at h
    obtain ⟨v, a, hv, ha⟩ := Check.typed_ok h
    simp only [step, hop]
    exact .after (popAs_of_peeked hv ha) (spared_pure _)
  | call =>
    simp only [step, hop]
    exact (spared_push _).bind fun _ _ _ => spared_pure _
  | entryPoint =>
    simp only [step, hop]
    split
    · exact (spared_push _).bind fun _ _ _ => spared_pure _
    · exact spared_pure _
  | returnNothing | returnValue =>
    simp only [step, hop]
    intro e m' herror
    simp only [leaveCall] at herror
    split at herror <;> cases herror
  | storeLocal =>
    simp only [Check.operation, hop] at h
    obtain ⟨hdepth, hlocal⟩ := Check.then_eq_ok.mp h
    obtain ⟨v, hv⟩ := peek_of_lt (Check.depth_eq_ok.mp hdepth)
    simp only [step, hop]
    apply Spared.after (pop_of_peeked hv)
    exact spared_thenNext (spared_storeLocal hop hlocal)
  | loadLocal =>
    simp only [Check.operation, hop] at h
    simp only [step, hop]
    exact (spared_loadLocal hop h).bind fun v _ _ => spared_pushNext v
  | print =>
    simp only [Check.operation, hop, Check.depth_eq_ok] at h
    obtain ⟨v, hv⟩ := peek_of_lt h
    simp only [step, hop]
    apply Spared.after (pop_of_peeked hv)
    apply spared_get
    exact spared_thenNext (spared_of_ok (emit_eq _))
  | makeArray =>
    simp only [Check.operation, hop] at h
    simp only [step, hop]
    exact spared_makeArray h
  | arrayLength | makeIter =>
    simp only [Check.operation, hop] at h
    obtain ⟨v, range, hv, hrange⟩ := Check.typed_ok h
    simp only [step, hop]
    exact .after (popAs_of_peeked hv hrange) (spared_pushNext _)
  | iterNext =>
    simp only [Check.operation, hop] at h
    simp only [step, hop]
    exact spared_iterNext _ h
  | callNative =>
    simp only [Check.operation, hop] at h
    cases hnative : env.get? i.first.toNat with
    | none => simp [hnative] at h
    | some native =>
      simp only [hnative, Check.depth_eq_ok] at h
      simp only [step, hop]
      exact spared_callNative hnative h

/-! ### Cycles and runs -/

variable {place : Nat}

theorem fetch_eq_error {e : Fault} (h : fetch program place = .error e) :
    e.preventable = false ∧ ∀ index depth, e ≠ .frame (.localOutOfRange index depth) := by
  unfold fetch at h
  split at h
  · cases h
    exact ⟨rfl, by simp⟩
  · split at h
    · cases h
    · rename_i d _
      cases h
      cases d <;> exact ⟨rfl, by simp [Fault.ofDecode]⟩

theorem continueAt_error {validate : Bool} {e : Fault} {m' : Machine}
    (h : continueAt validate i place m = .error e m') : ∃ cause, e = Check.fault i cause := by
  unfold continueAt at h
  split at h
  · split at h
    · cases h
    · cases h
      exact ⟨_, rfl⟩
  · cases h

theorem perform_eq_error {validate : Bool} {e : Fault} {m' : Machine}
    (h : perform program env validate i m = .error e m') :
    step program env i m = .error e m' ∨ ∃ cause, e = Check.fault i cause := by
  obtain hstep | ⟨flow, n, -, hrest⟩ := bind_eq_error.mp h
  · exact .inl hstep
  · cases flow with
    | next => exact .inr (continueAt_error hrest)
    | jump target => exact .inr (continueAt_error hrest)
    | done value => cases hrest

/-- A cycle with checks fails for what was fetched, for the finding of a check, or in a way that the
checks do not cover. -/
theorem left_of_cycle {e : Fault} {m' : Machine} (h : cycle program env true place m = .error e m') :
    e.preventable = false ∧ ∀ index depth, e = .frame (.localOutOfRange index depth) →
      ∃ i, fetch program place = .ok i ∧ i.LosesLocal index m'.stack := by
  have hfound (i : Instruction) (cause : ViolationCause) : (Check.fault i cause).preventable = false ∧
      ∀ index depth, Check.fault i cause ≠ .frame (.localOutOfRange index depth) :=
    ⟨rfl, fun _ _ heq => by cases heq⟩
  unfold cycle at h
  cases hfetch : fetch program place with
  | error d =>
    simp only [hfetch] at h
    cases h
    obtain ⟨hforeseen, hlocal⟩ := fetch_eq_error hfetch
    exact ⟨hforeseen, fun index depth heq => absurd heq (hlocal index depth)⟩
  | ok i =>
    simp only [hfetch, if_true] at h
    cases hbefore : Check.before m.stack program env i with
    | error cause =>
      simp only [hbefore] at h
      cases h
      exact ⟨(hfound i cause).1, fun index depth heq => absurd heq ((hfound i cause).2 index depth)⟩
    | ok u =>
      simp only [hbefore] at h
      obtain hstep | ⟨cause, rfl⟩ := perform_eq_error h
      · obtain ⟨hforeseen, hlocal⟩ := spared_step hbefore e m' hstep
        exact ⟨hforeseen, fun index depth heq => ⟨i, rfl, hlocal index depth heq⟩⟩
      · exact ⟨(hfound i cause).1, fun index depth heq => absurd heq ((hfound i cause).2 index depth)⟩

/-- The outcome is not the finding of a check. -/
def Unobjected (outcome : EStateM.Result Fault Machine α) : Prop :=
  ∀ violation m', outcome ≠ .error (.validation violation) m'

theorem continueAt_unchecked (h : Unobjected (continueAt true i place m)) :
    continueAt false i place m = continueAt true i place m := by
  cases hafter : Check.after m.stack with
  | ok u => simp [continueAt, hafter]
  | error cause =>
    have hfault : continueAt true i place m = .error (Check.fault i cause) m := by
      simp [continueAt, hafter]
    exact absurd hfault (h _ m)

theorem perform_jump {validate : Bool} {target : Nat} {n : Machine}
    (h : step program env i m = .ok (.jump target) n) :
    perform program env validate i m = continueAt validate i target n := by
  show EStateM.bind (step program env i) _ m = _
  rw [EStateM.bind, h]

theorem perform_unchecked (h : Unobjected (perform program env true i m)) :
    perform program env false i m = perform program env true i m := by
  cases hstep : step program env i m with
  | error e n => rw [perform_error hstep, perform_error hstep]
  | ok flow n =>
    cases flow with
    | next =>
      rw [perform_ok hstep] at h ⊢
      rw [perform_ok hstep]
      exact continueAt_unchecked h
    | jump target =>
      rw [perform_jump hstep] at h ⊢
      rw [perform_jump hstep]
      exact continueAt_unchecked h
    | done value =>
      have hdone (validate : Bool) : perform program env validate i m = .ok (.finished value) n :=
        bind_eq_ok.mpr ⟨.done value, n, hstep, rfl⟩
      rw [hdone, hdone]

theorem cycle_unchecked (h : Unobjected (cycle program env true place m)) :
    cycle program env false place m = cycle program env true place m := by
  unfold cycle at h ⊢
  cases hfetch : fetch program place with
  | error e => rfl
  | ok i =>
    cases hbefore : Check.before m.stack program env i with
    | error cause =>
      simp only [hfetch, hbefore, if_true] at h
      exact absurd rfl (h _ m)
    | ok u =>
      simp only [hfetch, hbefore, if_true] at h
      simp only [hbefore, if_true, Bool.false_eq_true, if_false]
      exact perform_unchecked h

theorem runFor_unchecked {limit budget : Nat}
    (h : Unobjected (runFor program env true limit budget place m)) :
    runFor program env false limit budget place m = runFor program env true limit budget place m := by
  induction budget generalizing place m with
  | zero => rfl
  | succ budget ih =>
    have hcycle : Unobjected (cycle program env true place m) := by
      intro violation m' hfound
      apply h violation m'
      rw [runFor_succ, hfound]
    rw [runFor_succ] at h ⊢
    rw [runFor_succ, cycle_unchecked hcycle]
    cases hnext : cycle program env true place m with
    | error e n => rfl
    | ok outcome n =>
      cases outcome with
      | finished value => rfl
      | goOn target =>
        rw [hnext] at h
        exact ih h

/-- A checked run never fails in a way that the checks are there to prevent; a local is out of range in
it only if its slot, one of the frame's own, has left the live stack. If no check objects, the run
without checks ends with the same outcome and leaves the same machine. -/
theorem checked_run_is_sound_and_transparent (settings : Settings) (program : Program)
    (env : Environment) (place : Nat) (m : Machine) :
    (∀ e m', run { settings with validate := true } program env place m = .error e m' →
      e.preventable = false ∧ ∀ index depth, e = .frame (.localOutOfRange index depth) →
        ∃ p n i, Reaches program env true place m p n ∧ fetch program p = .ok i ∧
          i.LosesLocal index m'.stack) ∧
    (Unobjected (run { settings with validate := true } program env place m) →
      run { settings with validate := false } program env place m
        = run { settings with validate := true } program env place m) := by
  by_cases hready : env.isReady program = true
  · simp only [run, hready, if_true]
    refine ⟨?_, runFor_unchecked⟩
    intro e m' herror
    obtain rfl | ⟨p, n, hreaches, hcycle⟩ := runFor_eq_error herror
    · exact ⟨rfl, fun _ _ heq => by cases heq⟩
    · obtain ⟨hforeseen, hlocal⟩ := left_of_cycle hcycle
      refine ⟨hforeseen, ?_⟩
      intro index depth heq
      obtain ⟨i, hfetch, hlost⟩ := hlocal index depth heq
      exact ⟨p, n, i, hreaches, hfetch, hlost⟩
  · simp only [run, hready]
    refine ⟨?_, fun _ => rfl⟩
    intro e m' herror
    obtain ⟨rfl, -⟩ := throw_eq_error.mp herror
    exact ⟨rfl, fun _ _ heq => by cases heq⟩

/-- Code that drops the only local of its frame and reads it then. -/
def forgetful : Program :=
  { code := (Instruction.encode .makeFrame 0 1 ++ Instruction.encode .pop1 0 0
      ++ Instruction.encode .loadLocal 0 0).toArray }

def calledMachine : Machine :=
  { stack := ⟨#[hostReturn, .nothing, .nothing, .nothing], 1, none⟩
    heap := ⟨Slots.empty 4, .empty 4, 4, 0⟩ }

theorem checked_run_is_sound_and_transparent_sample : ∃ m',
    run { validate := true } forgetful {} 0 calledMachine = .error (.frame (.localOutOfRange 0 1)) m' ∧
    run { validate := false } forgetful {} 0 calledMachine = .error (.frame (.localOutOfRange 0 1)) m' ∧
    ∃ p n i, Reaches forgetful {} true 0 calledMachine p n ∧ fetch forgetful p = .ok i ∧
      i.LosesLocal 0 m'.stack := by
  obtain ⟨m', hrun⟩ : ∃ m', run { validate := true } forgetful {} 0 calledMachine
      = .error (.frame (.localOutOfRange 0 1)) m' := ⟨_, rfl⟩
  obtain ⟨hsound, htransparent⟩ := checked_run_is_sound_and_transparent {} forgetful {} 0 calledMachine
  have hunobjected : Unobjected (run { validate := true } forgetful {} 0 calledMachine) := by
    intro violation n hfound
    rw [hrun] at hfound
    cases hfound
  exact ⟨m', hrun, (htransparent hunobjected).trans hrun, (hsound _ m' hrun).2 0 1 rfl⟩

end Machine

end ScriptMachine
