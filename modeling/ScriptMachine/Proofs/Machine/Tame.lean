import Mathlib
import ScriptMachine.Machine.Step
import ScriptMachine.Proofs.Outcome
import ScriptMachine.Proofs.Slots
import ScriptMachine.Proofs.WellFormed

/-!
# Frames that lead back into the code

A call frame is a value like any other: a script may pop it, keep it in an array and push it again.
So the condition that every frame returns to a place behind a call is put on every slot of the stack
and of the heap, in use or not. A machine that meets it is tame, and all the parts that instructions
are made of keep a machine tame.
-/

namespace ScriptMachine

open Outcome

/-- A place that a call may return to: behind a call in the code, or the host. -/
def Program.IsReturn (program : Program) (place : Int) : Prop :=
  place = -1 ∨ ∃ i ∈ program.instructions, i.op = .call ∧ place = i.nextOffset

namespace Value

def Tame (program : Program) : Value → Prop
  | .frame f => program.IsReturn f.returnTo.toInt
  | _ => True

theorem tame_of_isFrame {program : Program} {v : Value} (h : v.isFrame = false) : v.Tame program := by
  cases v with
  | frame f => cases h
  | _ => trivial

end Value

namespace Fault

/-- The faults of a run that has lost its way in the code. -/
def losesControl : Fault → Bool
  | .unknownOpcode _ _ | .truncated _ _ | .pcOutOfBounds _ | .badConstant _ | .badImport _
  | .badOperand _ _ | .frame (.badReturnMarker _) => true
  | _ => false

end Fault

variable {program : Program}

/-! ### The stack -/

namespace Stack

def Tame (program : Program) (s : Stack) : Prop :=
  Slots.All (Value.Tame program) s.slots

/-- The action keeps the stack tame, and takes no value for a return marker that is none. -/
def Keeps {α : Type} (program : Program) (action : Action α) (post : α → Stack → Prop) : Prop :=
  Ensures (Tame program) action (fun a s => s.Tame program ∧ post a s)
    fun e => (Fault.ofStack e).losesControl = false

theorem keeps_push {value : Value} (hvalue : value.Tame program) :
    Keeps program (push value) fun _ s => s.peek 0 = .ok value := by
  rintro ⟨slots, depth, frame⟩ hs
  rw [push]
  by_cases hdepth : depth < slots.size
  · rw [if_pos hdepth]
    refine ⟨Slots.All.set hs depth hvalue, ?_⟩
    simp [peek, Slots.read_set, hdepth]
  · rw [if_neg hdepth]
    rfl

theorem keeps_pop : Keeps program pop fun value _ => value.Tame program := by
  rintro ⟨slots, depth, frame⟩ hs
  cases depth with
  | zero => rfl
  | succ n => exact ⟨hs, hs n⟩

theorem keeps_drop (n : Nat) : Keeps program (drop n) fun _ _ => True := by
  rintro ⟨slots, depth, frame⟩ hs
  rw [drop]
  by_cases hdepth : n ≤ depth
  · rw [if_pos hdepth]
    exact ⟨hs, trivial⟩
  · rw [if_neg hdepth]
    rfl

theorem keeps_set (n : Nat) {value : Value} (hvalue : value.Tame program) :
    Keeps program (set n value) fun _ _ => True := by
  rintro ⟨slots, depth, frame⟩ hs
  rw [set]
  by_cases hdepth : n < depth
  · rw [if_pos hdepth]
    exact ⟨Slots.All.set hs _ hvalue, trivial⟩
  · rw [if_neg hdepth]
    rfl

theorem localSlot_error {s : Stack} {index : Nat} {e : StackError} (h : s.localSlot index = .error e) :
    (Fault.ofStack e).losesControl = false := by
  unfold localSlot at h
  split at h
  · cases h
    rfl
  · dsimp only at h
    split at h
    · cases h
    · cases h
      rfl

theorem keeps_store (index : Nat) {value : Value} (hvalue : value.Tame program) :
    Keeps program (store index value) fun _ _ => True := by
  intro s hs
  rw [store]
  cases hslot : s.localSlot index with
  | error e => exact localSlot_error hslot
  | ok slot => exact ⟨Slots.All.set hs slot hvalue, trivial⟩

theorem keeps_openFrame {frame : Frame} (hframe : (Value.frame frame).Tame program) :
    Keeps program (openFrame frame) fun _ _ => True := by
  rintro ⟨slots, depth, current⟩ hs
  simp only [openFrame]
  by_cases hdepth : depth < frame.arguments.toNat
  · rw [if_pos hdepth]
    rfl
  · rw [if_neg hdepth]
    by_cases hsize :
        slots.size < depth - frame.arguments.toNat + 1 + frame.arguments.toNat + frame.locals.toNat
    · rw [if_pos hsize]
      rfl
    · rw [if_neg hsize]
      exact ⟨((Slots.All.shiftUp hs _ _).set _ hframe).clear trivial _ _, trivial⟩

/-- A return leads to the host or behind a call. -/
theorem tame_returnFromFrame {s s' : Stack} {withValue : Bool} {outcome : Return} (hs : s.Tame program)
    (h : s.returnFromFrame withValue = (outcome, s')) :
    s'.Tame program ∧ ∀ place, outcome = .resume place → program.IsReturn place := by
  unfold returnFromFrame at h
  split at h
  · rename_i index frame hindex hcurrent
    have hframe : Slots.read s.slots index = .frame frame := by
      simp only [currentFrame, hindex] at hcurrent
      cases hread : Slots.read s.slots index <;> simp [hread, Value.frame?] at hcurrent
      rw [hcurrent]
    have hreturn : program.IsReturn frame.returnTo.toInt := by
      have := hs index
      rwa [hframe] at this
    split at h
    · cases h
      exact ⟨hs, by simp⟩
    · rename_i hhost
      have hnonneg : 0 ≤ frame.returnTo.toInt := by
        simpa [Frame.returnsToHost] using hhost
      cases h
      refine ⟨?_, ?_⟩
      · cases hpending : s.pendingResult withValue (index + frame.reserved) with
        | none => exact hs
        | some value =>
          refine Slots.All.set hs index ?_
          unfold pendingResult at hpending
          split at hpending
          · cases hpending
            exact hs _
          · cases hpending
      · rintro place hplace
        cases hplace
        rwa [Int.toNat_of_nonneg hnonneg]
  · cases h
    exact ⟨hs, by simp⟩

end Stack

/-! ### The heap -/

namespace Heap

def Tame (program : Program) (h : Heap) : Prop :=
  Slots.All (Value.Tame program) h.slots

theorem tame_allocate (count : Nat) (roots : List Value) {h : Heap} (hheap : h.Tame program) :
    match allocate count roots h with
    | .ok _ h' => h'.Tame program
    | .error _ h' => h'.Tame program := by
  unfold allocate
  split_ifs
  · exact hheap
  · exact hheap
  · cases h.marks.findFree? h.capacity count with
    | some start => exact Slots.All.clear hheap trivial _ _
    | none =>
      cases hfree : (h.collect roots).marks.findFree? (h.collect roots).capacity count with
      | some start =>
        simp only [hfree]
        exact Slots.All.clear hheap trivial _ _
      | none =>
        simp only [hfree]
        exact hheap

theorem tame_copyInto {values : List Value} (address : Address) (length : Nat) {h : Heap}
    (hheap : h.Tame program) (hvalues : ∀ v ∈ values, v.Tame program) :
    match copyInto values address length h with
    | .ok _ h' => h'.Tame program
    | .error _ h' => h'.Tame program := by
  simp only [copyInto]
  split_ifs
  · exact hheap
  · cases h.slotAt? address length with
    | none => exact hheap
    | some start =>
      exact Slots.All.write hheap start fun v hv => hvalues v (List.mem_of_mem_take hv)

end Heap

/-! ### The machine -/

namespace Machine

structure Tame (program : Program) (m : Machine) : Prop where
  stack : m.stack.Tame program
  heap : m.heap.Tame program

/-- The action keeps the machine tame, and control is not lost. -/
def Keeps {α : Type} (program : Program) (action : Action α) (post : α → Machine → Prop) : Prop :=
  Ensures (Tame program) action (fun a m => m.Tame program ∧ post a m) (·.losesControl = false)

variable {α β : Type}

theorem Keeps.bind {x : Action α} {f : α → Action β} {mid : α → Prop} {post : β → Machine → Prop}
    (hx : Keeps program x fun a _ => mid a) (hf : ∀ a, mid a → Keeps program (f a) post) :
    Keeps program (x >>= f) post :=
  Ensures.bind hx fun a m hm => hf a hm.2 m hm.1

theorem keeps_pure {a : α} {post : α → Machine → Prop} (h : ∀ m, post a m) :
    Keeps program (pure a) post :=
  fun m hm => ⟨hm, h m⟩

theorem keeps_throw {e : Fault} {post : α → Machine → Prop} (h : e.losesControl = false) :
    Keeps program (throw e : Action α) post :=
  fun _ _ => h

theorem Keeps.weaken {x : Action α} {post post' : α → Machine → Prop} (h : Keeps program x post)
    (hpost : ∀ a m, post a m → post' a m) : Keeps program x post' :=
  Ensures.weaken h fun a m hm => ⟨hm.1, hpost a m hm.2⟩

theorem keeps_onStack {action : Stack.Action α} {post : α → Stack → Prop}
    (h : Stack.Keeps program action post) :
    Keeps program (onStack action) fun a m => post a m.stack := by
  rintro ⟨stack, heap, events⟩ ⟨hstack, hheap⟩
  have haction := h stack hstack
  rw [onStack]
  cases hrun : action stack with
  | ok a stack' =>
    rw [hrun] at haction
    exact ⟨⟨haction.1, hheap⟩, haction.2⟩
  | error e stack' =>
    rw [hrun] at haction
    exact haction

theorem keeps_readStack {read : Stack → Except StackError α} {post : α → Prop}
    (hok : ∀ s a, s.Tame program → read s = .ok a → post a)
    (herror : ∀ s e, read s = .error e → (Fault.ofStack e).losesControl = false) :
    Keeps program (readStack read) fun a _ => post a := by
  intro m hm
  rw [readStack]
  cases hread : read m.stack with
  | ok a => exact ⟨hm, hok _ a hm.stack hread⟩
  | error e => exact herror _ e hread

theorem keeps_push {value : Value} (h : value.Tame program) :
    Keeps program (push value) fun _ m => m.stack.peek 0 = .ok value :=
  keeps_onStack (Stack.keeps_push h)

theorem keeps_pop : Keeps program pop fun value _ => value.Tame program :=
  keeps_onStack Stack.keeps_pop

theorem keeps_drop (count : Nat) : Keeps program (drop count) fun _ _ => True :=
  keeps_onStack (Stack.keeps_drop count)

theorem peek_error {s : Stack} {n : Nat} {e : StackError} (h : s.peek n = .error e) :
    (Fault.ofStack e).losesControl = false := by
  unfold Stack.peek at h
  split at h
  · cases h
  · cases h
    rfl

theorem keeps_peek (n : Nat) : Keeps program (peek n) fun value _ => value.Tame program := by
  refine keeps_readStack (fun s value hs h => ?_) fun s e => peek_error
  unfold Stack.peek at h
  split at h
  · cases h
    exact hs _
  · cases h

theorem keeps_load (index : Nat) :
    Keeps program (readStack (·.load index)) fun value _ => value.Tame program := by
  refine keeps_readStack (fun s value hs h => ?_) fun s e h => ?_
  · unfold Stack.load at h
    split at h
    · cases h
      exact hs _
    · cases h
  · unfold Stack.load at h
    split at h
    · cases h
    · rename_i hslot
      cases h
      exact Stack.localSlot_error hslot

theorem keeps_top (n : Nat) :
    Keeps program (readStack (·.top n)) fun values _ => ∀ v ∈ values, v.Tame program := by
  refine keeps_readStack (fun s values hs h => ?_) fun s e h => ?_
  · unfold Stack.top at h
    split at h
    · cases h
      exact fun v hv => Slots.All.slice hs hv
    · cases h
  · unfold Stack.top at h
    split at h
    · cases h
    · cases h
      rfl

theorem keeps_expect (op : Opcode) (expected : String) (as : Value → Option α) (value : Value) :
    Keeps program (expect op expected as value) fun a _ => as value = some a := by
  unfold expect
  cases has : as value with
  | some a => exact keeps_pure fun _ => rfl
  | none => exact keeps_throw rfl

theorem keeps_popNumber (op : Opcode) : Keeps program (popNumber op) fun _ _ => True :=
  keeps_pop.bind fun value _ => (keeps_expect op "number" Value.number? value).weaken fun _ _ _ => trivial

theorem keeps_popBool (op : Opcode) : Keeps program (popBool op) fun _ _ => True :=
  keeps_pop.bind fun value _ => (keeps_expect op "bool" Value.bool? value).weaken fun _ _ _ => trivial

theorem keeps_popArray (op : Opcode) : Keeps program (popArray op) fun _ _ => True :=
  keeps_pop.bind fun value _ => (keeps_expect op "array" Value.array? value).weaken fun _ _ _ => trivial

theorem keeps_emit (events : List Event) : Keeps program (emit events) fun _ _ => True :=
  fun _ hm => ⟨⟨hm.stack, hm.heap⟩, trivial⟩

theorem keeps_get : Keeps program (get : Action Machine) fun m _ => m.Tame program :=
  fun _ hm => ⟨hm, hm⟩

theorem keeps_allocate (count : Nat) : Keeps program (allocate count) fun _ _ => True := by
  rintro ⟨stack, heap, events⟩ ⟨hstack, hheap⟩
  have hallocate := Heap.tame_allocate count stack.live hheap
  simp only [allocate, onHeap]
  cases hrun : Heap.allocate count stack.live heap with
  | ok address heap' =>
    rw [hrun] at hallocate
    exact ⟨⟨hstack, hallocate⟩, trivial⟩
  | error e heap' => rfl

theorem keeps_copyInto {values : List Value} (hvalues : ∀ v ∈ values, v.Tame program)
    (address : Address) (length : Nat) :
    Keeps program (onHeap (Heap.copyInto values address length)) fun _ _ => True := by
  rintro ⟨stack, heap, events⟩ ⟨hstack, hheap⟩
  have hcopy := Heap.tame_copyInto address length hheap hvalues
  simp only [onHeap]
  cases hrun : Heap.copyInto values address length heap with
  | ok count heap' =>
    rw [hrun] at hcopy
    exact ⟨⟨hstack, hcopy⟩, trivial⟩
  | error e heap' => rfl

/-! ### Operators -/

abbrev KeepsNext (program : Program) (action : Action Flow) : Prop :=
  Keeps program action fun flow _ => flow = .next

theorem keepsNext_thenNext {action : Action Unit} (h : Keeps program action fun _ _ => True) :
    KeepsNext program (thenNext action) :=
  h.bind fun _ _ => keeps_pure fun _ => rfl

theorem keepsNext_push {value : Value} (h : value.Tame program) :
    KeepsNext program (thenNext (push value)) :=
  keepsNext_thenNext ((keeps_push h).weaken fun _ _ _ => trivial)

theorem keepsNext_boolOperator (op : Opcode) (f : Bool → Bool → Bool) :
    KeepsNext program (boolOperator op f) :=
  (keeps_popBool op).bind fun _ _ => (keeps_popBool op).bind fun _ _ => keepsNext_push trivial

theorem keepsNext_compare (equal : Bool) : KeepsNext program (compare equal) :=
  keeps_pop.bind fun _ _ => keeps_pop.bind fun _ _ => keepsNext_push trivial

theorem arithmetic_cases (op : Opcode) (x y : Number) :
    (∃ value, arithmetic op x y = .ok value ∧ value.isFrame = false) ∨
      arithmetic op x y = .error .divisionByZero := by
  unfold arithmetic
  split
  case h_5 =>
    cases x.mod? y with
    | some r => exact .inl ⟨_, rfl, rfl⟩
    | none => exact .inr rfl
  all_goals exact .inl ⟨_, rfl, rfl⟩

theorem keepsNext_numberOperator (op : Opcode) : KeepsNext program (numberOperator op) := by
  refine (keeps_popNumber op).bind fun x _ => (keeps_popNumber op).bind fun y _ => ?_
  obtain ⟨value, hvalue, hframe⟩ | hzero := arithmetic_cases op x y
  · rw [hvalue]
    exact keepsNext_push (Value.tame_of_isFrame hframe)
  · rw [hzero]
    have hthrow : Keeps program (throw .divisionByZero : Action PUnit) fun _ _ => True := keeps_throw rfl
    exact hthrow.bind fun _ _ => keeps_pure fun _ => rfl

end Machine

end ScriptMachine
