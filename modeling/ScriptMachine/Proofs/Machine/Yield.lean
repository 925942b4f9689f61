import Mathlib
import ScriptMachine.Proofs.Machine.Operation

/-!
# Runs that leave one value

A stretch of code yields a result if a run through it leaves the value on top of the stack and changes
nothing else, or ends with the fault of the result. Stretches that follow each other yield what their
results do in sequence.
-/

namespace ScriptMachine

/-- The frame of the running call holds the locals of a function, whose names stand in the order of
their slots. -/
def Stack.Holds (s : Stack) (names : List String) (locals : String → Value) : Prop :=
  ∃ index frame, s.frame = some index ∧ Slots.read s.slots index = .frame frame ∧
    frame.reserved = names.length ∧ index + names.length < s.depth ∧
    ∀ (k : Nat) (name : String), names[k]? = some name →
      Slots.read s.slots (index + 1 + k) = locals name

namespace Machine

/-- The second machine has all that the first one has, and maybe more values on its stack. -/
structure Above (base m : Machine) : Prop where
  heap : m.heap = base.heap
  events : m.events = base.events
  frame : m.stack.frame = base.stack.frame
  capacity : m.stack.capacity = base.stack.capacity
  depth_le : base.stack.depth ≤ m.stack.depth
  below : ∀ k < base.stack.depth, Slots.read m.stack.slots k = Slots.read base.stack.slots k

/-- The second machine has one more value on its stack, and is the same otherwise. -/
structure Pushes (base : Machine) (value : Value) (m : Machine) : Prop extends Above base m where
  depth : m.stack.depth = base.stack.depth + 1
  top : Slots.read m.stack.slots base.stack.depth = value

variable {program : Program} {env : Environment} {validate : Bool} {base m : Machine} {i : Instruction}
  {names : List String} {locals : String → Value}

theorem Above.refl (m : Machine) : Above m m :=
  ⟨rfl, rfl, rfl, rfl, Nat.le_refl _, fun _ _ => rfl⟩

theorem Above.trans {o : Machine} (h : Above base m) (h' : Above m o) : Above base o where
  heap := h'.heap.trans h.heap
  events := h'.events.trans h.events
  frame := h'.frame.trans h.frame
  capacity := h'.capacity.trans h.capacity
  depth_le := h.depth_le.trans h'.depth_le
  below k hk := (h'.below k (Nat.lt_of_lt_of_le hk h.depth_le)).trans (h.below k hk)

/-- A result that is left right above what the base has. -/
theorem Above.pushes (h : Above base m) (hroom : base.stack.depth < base.stack.capacity) (value : Value) :
    Pushes base value (m.withResult base.stack.depth value) where
  heap := h.heap
  events := h.events
  frame := h.frame
  capacity := by
    rw [← h.capacity]
    exact Array.size_setIfInBounds
  depth_le := Nat.le_succ _
  below k hk := by
    simp only [withResult]
    rw [Slots.read_set, if_neg (by omega)]
    exact h.below k hk
  depth := rfl
  top := by
    have hsize : base.stack.depth < m.stack.slots.size := Nat.lt_of_lt_of_eq hroom h.capacity.symm
    simp only [withResult]
    rw [Slots.read_set, if_pos ⟨rfl, hsize⟩]

theorem Above.holds (h : Above base m) (hholds : base.stack.Holds names locals) :
    m.stack.Holds names locals := by
  obtain ⟨index, frame, hindex, hframe, hreserved, hlive, hlocals⟩ := hholds
  refine ⟨index, frame, h.frame.trans hindex, (h.below index (by omega)).trans hframe, hreserved,
    Nat.lt_of_lt_of_le hlive h.depth_le, fun k name hname => ?_⟩
  have hk := (List.getElem?_eq_some_iff.mp hname).1
  exact (h.below _ (by omega)).trans (hlocals k name hname)

/-- The check after an instruction accepts a stack that holds the locals of a function. -/
theorem after_of_holds (h : m.stack.Holds names locals) (hroom : m.stack.depth ≤ m.stack.capacity) :
    Check.after m.stack = .ok () := by
  obtain ⟨index, frame, hindex, hframe, -, hlive, -⟩ := h
  have hlt : index < m.stack.depth := by omega
  simp [Check.after, Nat.not_lt.mpr hroom, hindex, hframe, hlt, Value.isFrame]

/-! ### Single instructions -/

theorem performs_binary (op : BinaryOp) (hop : i.op = op.opcode) {depth : Nat}
    (hdepth : m.stack.depth = depth + 2) (hroom : depth < m.stack.capacity) :
    Performs program env i m depth
      (op.apply (Slots.read m.stack.slots (depth + 1)) (Slots.read m.stack.slots depth)) :=
  ⟨delivers_binary op hop hdepth hroom, Check.before_binary op hop hdepth, hop ▸ op.concerns _ _⟩

theorem performs_unary (op : UnaryOp) (hop : i.op = op.opcode) {depth : Nat}
    (hdepth : m.stack.depth = depth + 1) (hroom : depth < m.stack.capacity) :
    Performs program env i m depth (op.apply (Slots.read m.stack.slots depth)) :=
  ⟨delivers_unary op hop hdepth hroom, Check.before_unary op hop hdepth, hop ▸ op.concerns _⟩

theorem performs_arrayLength (hop : i.op = .arrayLength) {depth : Nat}
    (hdepth : m.stack.depth = depth + 1) (hroom : depth < m.stack.capacity) :
    Performs program env i m depth (Slots.read m.stack.slots depth).count :=
  ⟨delivers_arrayLength hop hdepth hroom, Check.before_arrayLength hop hdepth,
    hop ▸ Value.concerns_count _⟩

theorem performs_pushValue (hop : i.op = .pushValue) {value : Value}
    (hvalue : program.constants[i.first.toNat]? = some value) (hroom : m.stack.depth < m.stack.capacity) :
    Performs program env i m m.stack.depth (.ok value) :=
  ⟨delivers_pushValue hop hvalue hroom,
    Check.before_pushValue hop (Array.getElem?_eq_some_iff.mp hvalue).1, concerns_ok value⟩

theorem performs_loadLocal (hop : i.op = .loadLocal) (hholds : m.stack.Holds names locals)
    {name : String} (hname : names[i.first.toNat]? = some name)
    (hroom : m.stack.depth < m.stack.capacity) :
    Performs program env i m m.stack.depth (.ok (locals name)) := by
  obtain ⟨index, frame, hindex, hframe, hreserved, hlive, hlocals⟩ := hholds
  have hslot := (List.getElem?_eq_some_iff.mp hname).1
  have hcurrent : m.stack.currentFrame = some frame := by
    simp [Stack.currentFrame, hindex, hframe, Value.frame?]
  have hload : m.stack.load i.first.toNat = .ok (locals name) := by
    have hlt : index + 1 + i.first.toNat < m.stack.depth := by omega
    simp [Stack.load, Stack.localSlot, hindex, hlt, hlocals _ _ hname]
  exact ⟨delivers_loadLocal hop hload hroom, Check.before_loadLocal hop hcurrent (by omega),
    concerns_ok _⟩

/-! ### Stretches of code -/

/-- A run from a place, on a machine that stands on a base, comes to the next place after some cycles
and has the value on top of what the base has, or it ends with the fault. -/
def Yields (program : Program) (env : Environment) (validate : Bool) (base : Machine)
    (place cycles next : Nat) (m : Machine) : Except Fault Value → Prop
  | .ok value => ∃ m', base.Pushes value m' ∧ ∀ limit rest,
      runFor program env validate limit (cycles + rest) place m
        = runFor program env validate limit rest next m'
  | .error fault => ∃ failed m', ∀ limit rest,
      runFor program env validate limit (cycles + rest) place m
        = .error (fault.shownAt validate failed) m'

/-- One stretch and, if it yields a value, another one behind it. -/
theorem Yields.bind {mid : Machine} {place middle next cycles more : Nat} {result : Except Fault Value}
    {f : Value → Except Fault Value}
    (h : Yields program env validate mid place cycles middle m result)
    (hf : ∀ value m', mid.Pushes value m' →
      Yields program env validate base middle more next m' (f value)) :
    Yields program env validate base place (cycles + more) next m (result >>= f) := by
  cases result with
  | error fault =>
    obtain ⟨failed, m', hrun⟩ := h
    exact ⟨failed, m', fun limit rest => by rw [Nat.add_assoc, hrun]⟩
  | ok value =>
    obtain ⟨m', hpushes, hrun⟩ := h
    have hmore := hf value m' hpushes
    show Yields program env validate base place (cycles + more) next m (f value)
    cases hresult : f value with
    | error fault =>
      rw [hresult] at hmore
      obtain ⟨failed, m'', hrun'⟩ := hmore
      exact ⟨failed, m'', fun limit rest => by rw [Nat.add_assoc, hrun, hrun']⟩
    | ok second =>
      rw [hresult] at hmore
      obtain ⟨m'', hpushes', hrun'⟩ := hmore
      exact ⟨m'', hpushes', fun limit rest => by rw [Nat.add_assoc, hrun, hrun']⟩

/-- A single instruction yields its result. -/
theorem Performs.yields {result : Except Fault Value}
    (h : Performs program env i m base.stack.depth result) (habove : Above base m)
    (hfetch : fetch program i.offset = .ok i) (hholds : base.stack.Holds names locals)
    (hroom : base.stack.depth < base.stack.capacity) :
    Yields program env validate base i.offset 1 i.nextOffset m result := by
  cases result with
  | ok value =>
    have hpushes := habove.pushes hroom value
    have hafter := after_of_holds (hpushes.holds hholds) (hpushes.depth ▸ hpushes.capacity ▸ hroom)
    refine ⟨_, hpushes, fun limit rest => ?_⟩
    rw [Nat.add_comm, runFor_succ, h.cycle_ok hfetch hafter]
  | error fault =>
    obtain ⟨m', hcycle⟩ : ∃ m', cycle program env validate i.offset m
        = .error (fault.shownAt validate i.offset) m' := h.cycle_error hfetch
    refine ⟨i.offset, m', fun limit rest => ?_⟩
    rw [Nat.add_comm, runFor_succ, hcycle]

end Machine

end ScriptMachine
