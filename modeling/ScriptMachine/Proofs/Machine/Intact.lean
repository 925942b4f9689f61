import Mathlib
import ScriptMachine.Proofs.Heap.Intact
import ScriptMachine.Proofs.Machine.Run

/-!
# A machine that nothing breaks

Code is not trusted, and neither is the host: a program may be any bytes, an environment may have any
natives, and between two runs the host may work on the stack and the heap as it likes. Whatever they
do, the stack and the heap stay intact, also when an operation fails halfway, so none of their
operations ever takes an index or a slice that is out of range.

Every instruction is a chain of operations on the stack and the heap. Each link maintains the shape of
both, whether it fails or not, and so does the chain; a run is a chain of instructions.
-/

namespace ScriptMachine.Machine

/-- The stack and the heap have the shape that the settings gave them. -/
structure Intact (settings : Settings) (m : Machine) : Prop where
  stack : m.stack.Intact settings.stackSize
  heap : m.heap.Intact settings.heapSettings.size settings.heapSettings.base

/-- The machine that an action leaves, whether it fails or not. -/
def leftBy {α : Type} (action : Action α) (m : Machine) : Machine :=
  match action m with
  | .ok _ left => left
  | .error _ left => left

def Maintains (settings : Settings) {α : Type} (action : Action α) : Prop :=
  ∀ m, m.Intact settings → (leftBy action m).Intact settings

variable {settings : Settings} {m : Machine} {α β : Type} {program : Program} {env : Environment}
  {envs : Nat → Environment}

theorem intact_create (h : create settings = .ok m) : m.Intact settings := by
  unfold create at h
  split at h
  · cases h
  · split at h
    · cases h
    · rename_i heap hheap
      cases h
      exact ⟨Stack.Intact.empty _, Heap.Intact.create hheap⟩

/-! ### Links of a chain -/

theorem Maintains.bind {x : Action α} {f : α → Action β} (hx : Maintains settings x)
    (hf : ∀ a, Maintains settings (f a)) : Maintains settings (x >>= f) := by
  intro m hm
  have hfirst := hx m hm
  rw [leftBy] at hfirst
  cases hrun : x m with
  | error e n =>
    rw [hrun] at hfirst
    rw [leftBy, Outcome.bind_of_error hrun]
    exact hfirst
  | ok a n =>
    rw [hrun] at hfirst
    rw [leftBy, Outcome.bind_of_ok hrun]
    exact hf a n hfirst

theorem Maintains.of_ok {action : Action α} (h : Maintains settings action) (hm : m.Intact settings) {a : α}
    {n : Machine} (haction : action m = .ok a n) : n.Intact settings := by
  have hleft := h m hm
  rw [leftBy, haction] at hleft
  exact hleft

theorem maintains_pure (a : α) : Maintains settings (pure a) :=
  fun _ hm => hm

theorem maintains_throw (e : Fault) : Maintains settings (throw e : Action α) :=
  fun _ hm => hm

/-- A guard in front of the rest of a chain. -/
theorem maintains_guard {p : Prop} [Decidable p] {e : Fault} {f : α → Action β} {x : Action β}
    (hx : Maintains settings x) : Maintains settings (if p then throw e >>= f else x) := by
  split
  · exact fun m hm => hm
  · exact hx

theorem maintains_get : Maintains settings get :=
  fun _ hm => hm

theorem maintains_onStack {action : Stack.Action α}
    (h : ∀ s, s.Intact settings.stackSize → (Stack.leftBy action s).Intact settings.stackSize) :
    Maintains settings (onStack action) := by
  intro ⟨stack, heap, events⟩ hm
  have hleft := h stack hm.stack
  rw [Stack.leftBy] at hleft
  simp only [leftBy, onStack]
  cases haction : action stack <;> rw [haction] at hleft <;> exact ⟨hleft, hm.heap⟩

theorem maintains_readStack (read : Stack → Except StackError α) : Maintains settings (readStack read) := by
  intro m hm
  simp only [leftBy, readStack]
  cases read m.stack <;> exact hm

theorem maintains_onHeap {action : Heap.Action α}
    (h : ∀ g, g.Intact settings.heapSettings.size settings.heapSettings.base →
      (Heap.leftBy action g).Intact settings.heapSettings.size settings.heapSettings.base) :
    Maintains settings (onHeap action) := by
  intro ⟨stack, heap, events⟩ hm
  have hleft := h heap hm.heap
  rw [Heap.leftBy] at hleft
  simp only [leftBy, onHeap]
  cases haction : action heap <;> rw [haction] at hleft <;> exact ⟨hm.stack, hleft⟩

theorem maintains_emit (new : List Event) : Maintains settings (emit new) :=
  fun _ hm => ⟨hm.stack, hm.heap⟩

theorem maintains_push (value : Value) : Maintains settings (push value) :=
  maintains_onStack fun _ hs => hs.operate (.push value)

theorem maintains_pop : Maintains settings pop :=
  maintains_onStack fun _ hs => hs.operate .pop

theorem maintains_drop (count : Nat) : Maintains settings (drop count) :=
  maintains_onStack fun _ hs => hs.operate (.drop count)

theorem maintains_peek (n : Nat) : Maintains settings (peek n) :=
  maintains_readStack _

theorem maintains_expect (op : Opcode) (expected : String) (as : Value → Option α) (value : Value) :
    Maintains settings (expect op expected as value) := by
  unfold expect
  cases as value with
  | some a => exact maintains_pure a
  | none => exact maintains_throw _

theorem maintains_popNumber (op : Opcode) : Maintains settings (popNumber op) :=
  maintains_pop.bind fun _ => maintains_expect _ _ _ _

theorem maintains_popBool (op : Opcode) : Maintains settings (popBool op) :=
  maintains_pop.bind fun _ => maintains_expect _ _ _ _

theorem maintains_popArray (op : Opcode) : Maintains settings (popArray op) :=
  maintains_pop.bind fun _ => maintains_expect _ _ _ _

theorem Maintains.thenNext {action : Action Unit} (h : Maintains settings action) :
    Maintains settings (thenNext action) :=
  h.bind fun _ => maintains_pure _

theorem maintains_pushNext (value : Value) : Maintains settings (thenNext (push value)) :=
  (maintains_push value).thenNext

theorem maintains_leaveCall (withValue : Bool) : Maintains settings (leaveCall withValue) := by
  intro ⟨stack, heap, events⟩ hm
  have hleft : (stack.returnFromFrame withValue).2.Intact settings.stackSize :=
    hm.stack.returnFromFrame withValue
  simp only [leftBy, leaveCall]
  generalize stack.returnFromFrame withValue = returned at hleft ⊢
  obtain ⟨target, left⟩ := returned
  cases target <;> exact ⟨hleft, hm.heap⟩

theorem maintains_allocate (count : Nat) : Maintains settings (allocate count) := by
  intro m hm
  have hheap : Maintains settings (onHeap (Heap.allocate count m.stack.live)) :=
    maintains_onHeap fun _ hg => (hg.allocate count m.stack.live).2
  exact hheap m hm

/-! ### Instructions -/

theorem maintains_numberOperator (op : Opcode) : Maintains settings (numberOperator op) := by
  apply (maintains_popNumber op).bind
  intro x
  apply (maintains_popNumber op).bind
  intro y
  cases arithmetic op x y with
  | ok value => exact maintains_pushNext value
  | error e => exact fun _ hm => hm

theorem maintains_boolOperator (op : Opcode) (f : Bool → Bool → Bool) :
    Maintains settings (boolOperator op f) := by
  apply (maintains_popBool op).bind
  intro a
  apply (maintains_popBool op).bind
  intro b
  exact maintains_pushNext _

theorem maintains_compare (equal : Bool) : Maintains settings (compare equal) := by
  apply maintains_pop.bind
  intro a
  apply maintains_pop.bind
  intro b
  exact maintains_pushNext _

theorem maintains_makeArray : Maintains settings makeArray := by
  apply (maintains_popNumber _).bind
  intro size
  apply maintains_guard
  apply (maintains_readStack _).bind
  intro values
  apply (maintains_allocate _).bind
  intro address
  apply Maintains.bind (maintains_onHeap fun _ hg => (hg.copyInto values address _).2)
  intro _
  apply (maintains_drop _).bind
  intro _
  exact maintains_pushNext _

theorem maintains_iterNext (exit : UInt32) : Maintains settings (iterNext program exit) := by
  apply (maintains_peek 0).bind
  intro value
  apply (maintains_expect _ _ _ _).bind
  intro (current, remaining)
  dsimp only
  split
  · exact (maintains_drop 1).bind fun _ => maintains_pure _
  apply maintains_get.bind
  intro n
  cases (n.memory program).read? current with
  | none => exact maintains_throw _
  | some element =>
    apply Maintains.bind (maintains_onStack fun _ hs => hs.operate (.set 0 _))
    intro _
    exact maintains_pushNext element

theorem maintains_callNative (index : UInt32) : Maintains settings (callNative program env index) := by
  unfold callNative
  cases env.get? index.toNat with
  | none => exact maintains_throw _
  | some native =>
    apply (maintains_readStack _).bind
    intro arguments
    apply maintains_get.bind
    intro n
    apply (maintains_emit _).bind
    intro _
    cases (native.respond ⟨arguments, n.memory program⟩).result with
    | error message => exact maintains_throw _
    | ok value =>
      apply (maintains_drop _).bind
      intro _
      split
      · exact maintains_pushNext value
      · exact maintains_pure _

theorem maintains_byteOperand (value : UInt32) : Maintains settings (byteOperand value) := by
  unfold byteOperand
  split
  · exact maintains_pure _
  · exact maintains_throw _

theorem maintains_step (i : Instruction) : Maintains settings (step program env i) := by
  unfold step
  cases i.op with
  | halt => exact maintains_throw _
  | and | or => exact maintains_boolOperator _ _
  | mul | div | mod | add | sub => exact maintains_numberOperator _
  | cmpLessThan | cmpMoreThan | cmpLessThanOrEqual | cmpMoreThanOrEqual =>
    exact maintains_numberOperator _
  | cmpEqual | cmpNotEqual => exact maintains_compare _
  | not => exact (maintains_popBool _).bind fun _ => maintains_pushNext _
  | neg => exact (maintains_popNumber _).bind fun _ => maintains_pushNext _
  | dup1 => exact (maintains_peek 0).bind fun _ => maintains_pushNext _
  | dup2 =>
    apply (maintains_peek 1).bind
    intro below
    apply (maintains_peek 0).bind
    intro top
    exact (maintains_push below).bind fun _ => maintains_pushNext top
  | rot2 =>
    apply maintains_pop.bind
    intro a
    apply maintains_pop.bind
    intro b
    exact (maintains_push a).bind fun _ => maintains_pushNext b
  | pushValue =>
    dsimp only
    cases program.constants[i.first.toNat]? with
    | some value => exact maintains_pushNext value
    | none => exact maintains_throw _
  | pop1 | pop2 => exact (maintains_drop _).thenNext
  | jump | exit => exact maintains_pure _
  | jumpIfFalse => exact (maintains_popBool _).bind fun _ => maintains_pure _
  | call => exact (maintains_push _).bind fun _ => maintains_pure _
  | entryPoint =>
    dsimp only
    split
    · exact (maintains_push _).bind fun _ => maintains_pure _
    · exact maintains_pure _
  | makeFrame =>
    apply (maintains_byteOperand _).bind
    intro arguments
    apply (maintains_byteOperand _).bind
    intro locals
    exact (maintains_onStack fun _ hs => hs.makeFrame arguments locals).thenNext
  | returnNothing | returnValue => exact maintains_leaveCall _
  | storeLocal =>
    apply maintains_pop.bind
    intro value
    exact (maintains_onStack fun _ hs => hs.operate (.store _ value)).thenNext
  | loadLocal => exact (maintains_readStack _).bind fun _ => maintains_pushNext _
  | print =>
    apply maintains_pop.bind
    intro value
    exact maintains_get.bind fun _ => (maintains_emit _).thenNext
  | makeArray => exact maintains_makeArray
  | arrayLength => exact (maintains_popArray _).bind fun _ => maintains_pushNext _
  | makeIter => exact (maintains_popArray _).bind fun _ => maintains_pushNext _
  | iterNext => exact maintains_iterNext _
  | callNative => exact maintains_callNative _

/-! ### Runs -/

theorem maintains_continueAt (validate : Bool) (i : Instruction) (place : Nat) :
    Maintains settings (continueAt validate i place) := by
  intro m hm
  cases validate with
  | false => exact hm
  | true =>
    simp only [leftBy, continueAt, if_true]
    cases Check.after m.stack <;> exact hm

theorem maintains_cycle (validate : Bool) (place : Nat) :
    Maintains settings (cycle program env validate place) := by
  have hperform (i : Instruction) : Maintains settings (perform program env validate i) := by
    apply (maintains_step i).bind
    intro flow
    cases flow with
    | next => exact maintains_continueAt _ _ _
    | jump place => exact maintains_continueAt _ _ _
    | done value => exact maintains_pure _
  intro m hm
  simp only [leftBy, cycle]
  cases fetch program place with
  | error e => exact hm
  | ok i =>
    cases validate with
    | false => exact hperform i m hm
    | true =>
      simp only [if_true]
      cases Check.before m.stack program env i with
      | error cause => exact hm
      | ok u => exact hperform i m hm

theorem maintains_runForWith (validate : Bool) (limit budget time place : Nat) :
    Maintains settings (runForWith program envs validate limit budget time place) := by
  induction budget generalizing time place with
  | zero => exact maintains_throw _
  | succ budget ih =>
    intro m hm
    have hcycle : (leftBy (cycle program (envs time) validate place) m).Intact settings :=
      maintains_cycle validate place m hm
    rw [leftBy] at hcycle ⊢
    rw [runForWith_succ]
    cases hnext : cycle program (envs time) validate place m with
    | error e n =>
      rw [hnext] at hcycle
      exact hcycle
    | ok outcome n =>
      rw [hnext] at hcycle
      cases outcome with
      | finished value => exact hcycle
      | goOn next => exact ih (time + 1) next n hcycle

theorem maintains_runWith (chosen : Settings) (place : Nat) :
    Maintains settings (runWith chosen program envs place) := by
  unfold runWith
  split
  · exact maintains_runForWith _ _ _ _ _
  · exact maintains_throw _

theorem maintains_resetStack : Maintains settings resetStack :=
  fun _ hm => ⟨hm.stack.apply .reset, hm.heap⟩

theorem maintains_pushAll (values : List Value) : Maintains settings (pushAll values) := by
  induction values with
  | nil => exact maintains_pure _
  | cons value rest ih => exact (maintains_push value).bind fun _ => ih

/-- A run that stands at a place with an intact machine never comes to a broken one. -/
theorem ReachesAt.intact {validate : Bool} {place time p : Nat} {n : Machine}
    (h : ReachesAt program envs validate place m time p n) (hm : m.Intact settings) :
    n.Intact settings := by
  induction h with
  | here => exact hm
  | next _ hcycle ih => exact (maintains_cycle _ _).of_ok ih hcycle

theorem Reaches.intact {validate : Bool} {place p : Nat} {n : Machine}
    (h : Reaches program env validate place m p n) (hm : m.Intact settings) : n.Intact settings := by
  obtain ⟨time, hreaches⟩ := h.exists_reachesAt
  exact hreaches.intact hm

/-! ### The host -/

/-- Sets the stack up for a call, and says where it begins. -/
def enterCall (call : Call) : Action Nat := do
  match call.check with
  | .error e => throw (.call e)
  | .ok () =>
    resetStack
    pushAll call.arguments
    push hostReturn
    return call.address.toNat

/-- Runs a function as `executeCall` does, with the natives of each cycle. -/
def executeCallWith (settings : Settings) (program : Program) (envs : Nat → Environment) (call : Call) :
    Action Value := do
  let place ← enterCall call
  runWith settings program envs place

theorem executeCallWith_const (chosen : Settings) (program : Program) (env : Environment) (call : Call) :
    executeCallWith chosen program (fun _ => env) call = executeCall chosen program env call := by
  simp only [executeCall, executeCallWith, enterCall, runWith_const]
  cases call.check with
  | error e => rfl
  | ok u => simp

/-- What a host may do with a machine. Programs, natives, calls and roots may be any, and in a run the
natives may be others in every cycle. -/
inductive HostOperation where
  | onStack (method : Stack.Method)
  | onHeap (method : Heap.Method)
  | collect
  | allocate (count : Nat)
  | enter (settings : Settings) (program : Program) (envs : Nat → Environment) (entry : Entry)
  | executeCall (settings : Settings) (program : Program) (envs : Nat → Environment) (call : Call)

/-- The machine that the operation leaves, whether it fails or not. -/
def HostOperation.perform : HostOperation → Machine → Machine
  | .onStack method, m => { m with stack := method.apply m.stack }
  | .onHeap method, m => { m with heap := method.apply m.heap }
  | .collect, m => m.collect
  | .allocate count, m => leftBy (Machine.allocate count) m
  | .enter settings program envs entry, m => leftBy (entry.run settings program envs) m
  | .executeCall settings program envs call, m => leftBy (executeCallWith settings program envs call) m

def afterAll (operations : List HostOperation) (m : Machine) : Machine :=
  operations.foldl (fun m op => op.perform m) m

/-- The machines that can be seen when the host does one more thing: the one that is left, and in a run
also the one at its start and those after each instruction. -/
inductive Sees (m : Machine) : HostOperation → Machine → Prop where
  | after (op : HostOperation) : Sees m op (op.perform m)
  | running {settings : Settings} {program : Program} {envs : Nat → Environment} {entry : Entry}
      {place time p : Nat} {start n : Machine} (henter : entry.enter program m = .ok place start)
      (hreaches : ReachesAt program envs settings.validate place start time p n) :
      Sees m (.enter settings program envs entry) n
  | calling {settings : Settings} {program : Program} {envs : Nat → Environment} {call : Call}
      {place time p : Nat} {start n : Machine} (henter : enterCall call m = .ok place start)
      (hreaches : ReachesAt program envs settings.validate place start time p n) :
      Sees m (.executeCall settings program envs call) n

theorem maintains_enterCall (call : Call) : Maintains settings (enterCall call) := by
  unfold enterCall
  cases call.check with
  | error e => exact maintains_throw _
  | ok u =>
    apply maintains_resetStack.bind
    intro _
    apply (maintains_pushAll _).bind
    intro _
    exact (maintains_push _).bind fun _ => maintains_pure _

theorem maintains_enter (entry : Entry) : Maintains settings (entry.enter program) := by
  unfold Entry.enter
  cases entry with
  | main => exact maintains_resetStack.bind fun _ => maintains_pure _
  | call name arguments =>
    dsimp only
    cases Call.lookup program name with
    | error e => exact maintains_throw _
    | ok found => exact maintains_enterCall (found.withArguments arguments)

theorem Intact.perform (hm : m.Intact settings) (op : HostOperation) : (op.perform m).Intact settings := by
  cases op with
  | onStack method => exact ⟨hm.stack.apply method, hm.heap⟩
  | onHeap method => exact ⟨hm.stack, hm.heap.apply method⟩
  | collect => exact ⟨hm.stack, hm.heap.collect _⟩
  | allocate count => exact maintains_allocate count m hm
  | enter chosen program envs entry =>
    have hrun : Maintains settings (entry.run chosen program envs) :=
      (maintains_enter entry).bind fun place => maintains_runWith chosen place
    exact hrun m hm
  | executeCall chosen program envs call =>
    have hrun : Maintains settings (executeCallWith chosen program envs call) :=
      (maintains_enterCall call).bind fun place => maintains_runWith chosen place
    exact hrun m hm

theorem Intact.afterAll (hm : m.Intact settings) (operations : List HostOperation) :
    (afterAll operations m).Intact settings := by
  induction operations generalizing m with
  | nil => exact hm
  | cons op rest ih => exact ih (hm.perform op)

theorem Intact.sees (hm : m.Intact settings) {op : HostOperation} {n : Machine} (h : Sees m op n) :
    n.Intact settings := by
  cases h with
  | after => exact hm.perform op
  | running henter hreaches => exact hreaches.intact ((maintains_enter _).of_ok hm henter)
  | calling henter hreaches => exact hreaches.intact ((maintains_enterCall _).of_ok hm henter)

/-- Whatever the host has done to a new machine and does next, every machine that can be seen on the way
has the shape that the settings gave it, no more slots of its heap are in use than there are, and none
of the operations on its stack and its heap takes an index or a slice that is out of range. -/
theorem every_machine_stays_intact {settings : Settings} {new : Machine}
    (hcreate : create settings = .ok new) (past : List HostOperation) {op : HostOperation} {m : Machine}
    (hsees : Sees (afterAll past new) op m) :
    m.stack.Intact settings.stackSize ∧
    m.heap.Intact (settings.memorySize - settings.stackSize) settings.stackSize ∧
    m.heap.used ≤ m.heap.capacity ∧ m.stack.AccessesInRange ∧ m.heap.AccessesInRange := by
  have hm : m.Intact settings := ((intact_create hcreate).afterAll past).sees hsees
  refine ⟨hm.stack, hm.heap, ?_, hm.stack.accessesInRange, hm.heap.accessesInRange⟩
  rw [hm.heap.capacity_eq]
  exact hm.heap.used_le

/-- Opens a frame in an empty stack and pops it, so that the frame of the running call lies above the
live slots, and allocates what does not fit. -/
def carelessHost : List HostOperation :=
  [.onStack (.operate (.push hostReturn)), .onStack (.makeFrame 0 1), .onStack (.operate (.drop 2)),
    .onHeap (.allocate 2 []), .onHeap (.allocate 2 [.array (.mutable 3) 2])]

theorem every_machine_stays_intact_sample : ∃ new m,
    create { memorySize := 6 } = .ok new ∧ Sees (afterAll carelessHost new) .collect m ∧
    m.stack.frame = some 0 ∧ m.stack.depth = 0 ∧ m.stack.Intact 3 ∧ m.heap.Intact 3 3 ∧
    m.heap.used ≤ m.heap.capacity ∧ m.stack.AccessesInRange ∧ m.heap.AccessesInRange := by
  obtain ⟨new, hcreate⟩ : ∃ new, create { memorySize := 6 } = .ok new := ⟨_, rfl⟩
  have hsees := Sees.after (m := afterAll carelessHost new) .collect
  have hintact := every_machine_stays_intact hcreate carelessHost hsees
  refine ⟨new, _, hcreate, hsees, ?_, ?_, hintact⟩
  · cases hcreate
    rfl
  · cases hcreate
    rfl

end ScriptMachine.Machine
