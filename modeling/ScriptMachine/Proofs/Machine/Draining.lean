import Mathlib
import ScriptMachine.Proofs.Machine.Steering
import ScriptMachine.Proofs.RoundTrip

/-!
# Draining an iterator

An array can be taken as a whole, from the slots of the pool or of the heap that it names, or element by
element with an iterator made of it. The iterator counts down what is left and moves its address on by
one slot. Both ways see the same elements in the same order, and where a slot is missing neither of them
gets past it. They part only where an array of constants goes on behind the last slot number that fits an
address: as a whole it is still there, but the iterator has no address for the rest of it. A heap never
grows that far, and neither does the pool of a compilation, but a blob may bring more constants.
-/

namespace ScriptMachine

namespace Machine

/-- Repeats an instruction for some rounds, each time taking the value that it has left on top before
the next round. Gives the values in order, and the outcome of the round that did not go on. -/
def drain (program : Program) (env : Environment) (i : Instruction) :
    (rounds : Nat) → Machine → List Value × Option (EStateM.Result Fault Machine Flow)
  | 0, _ => ([], none)
  | rounds + 1, m =>
    match step program env i m with
    | .ok .next n =>
      match pop n with
      | .ok value o =>
        let (values, outcome) := drain program env i rounds o
        (value :: values, outcome)
      | .error fault o => ([], some (.error fault o))
    | outcome => ([], some outcome)

variable {program : Program} {env : Environment} {base m n o : Machine} {i : Instruction}
  {address : Address} {length k : Nat}

theorem drain_takes {value : Value} (hstep : step program env i m = .ok .next n)
    (hpop : pop n = .ok value o) (rounds : Nat) :
    drain program env i (rounds + 1) m
      = (value :: (drain program env i rounds o).1, (drain program env i rounds o).2) := by
  simp only [drain, hstep, hpop]

/-- A round that does not go on is the last one. -/
theorem drain_ends {outcome : EStateM.Result Fault Machine Flow} (hstep : step program env i m = outcome)
    (hends : ∀ n, outcome ≠ .ok .next n) (rounds : Nat) :
    drain program env i (rounds + 1) m = ([], some outcome) := by
  cases outcome with
  | error fault n => simp only [drain, hstep]
  | ok flow n =>
    cases flow with
    | next => exact absurd rfl (hends n)
    | _ => simp only [drain, hstep]

theorem Above.cut (h : Above base m) : Above base (m.cut base.stack.depth) :=
  ⟨h.heap, h.events, h.frame, h.capacity, Nat.le_refl _, h.below⟩

theorem Above.live_cut (h : Above base m) : (m.cut base.stack.depth).stack.live = base.stack.live := by
  have hsize : m.stack.slots.size = base.stack.slots.size := h.capacity
  refine List.ext_getElem? fun k => ?_
  simp only [Stack.live, Machine.cut]
  rw [Slots.getElem?_slice, Slots.getElem?_slice, hsize, Nat.zero_add]
  by_cases hk : k < base.stack.depth
  · rw [h.below k hk]
  · simp [hk]

/-- Of the array on top, so many elements have been taken: an iterator is there in its place, and the
rest of the machine is as it was. -/
def Drained (base : Machine) (address : Address) (length taken : Nat) (m : Machine) : Prop :=
  base.Pushes (.iterator (address.after taken) (.ofNat (length - taken))) m

theorem Drained.read?_eq (h : Drained base address length k m) (program : Program) (place : Address) :
    (m.memory program).read? place = (base.memory program).read? place := by
  rw [memory, memory, h.heap]

theorem drained_makeIter {length : UInt32} (program : Program) (env : Environment) (hop : i.op = .makeIter)
    (htop : m.stack.peek 0 = .ok (.array address length))
    (hroom : m.popped.stack.depth < m.popped.stack.capacity) :
    ∃ start, step program env i m = .ok .next start ∧
      Drained m.popped address length.toNat 0 start := by
  obtain ⟨hlive, hread⟩ := Stack.peek_eq_ok.mp htop
  have habove : Above m.popped m := ⟨rfl, rfl, rfl, rfl, Nat.sub_le _ _, fun _ _ => rfl⟩
  refine ⟨_, step_makeIter hop (Nat.sub_add_cancel hlive).symm hroom hread, ?_⟩
  rw [Drained, Address.after, Nat.sub_zero, UInt32.ofNat_toNat]
  exact habove.pushes hroom _

/-- What is left when a value has come on top of a changed one and was taken again. -/
theorem Pushes.changed {old : Value} (h : base.Pushes old m)
    (hroom : base.stack.depth + 1 < base.stack.capacity) (value element : Value) :
    ∃ o, pop ((m.withSlot base.stack.depth value).withResult (base.stack.depth + 1) element)
      = .ok element o ∧ base.Pushes value o := by
  have hspace : base.stack.depth + 1 < m.stack.slots.size := Nat.lt_of_lt_of_eq hroom h.capacity.symm
  have hread (k : Nat) (hk : k ≤ base.stack.depth) :
      Slots.read ((m.stack.slots.setIfInBounds base.stack.depth value).setIfInBounds
        (base.stack.depth + 1) element) k
        = if k = base.stack.depth then value else Slots.read m.stack.slots k := by
    rw [Slots.read_set, if_neg (by omega), Slots.read_set]
    exact if_congr (and_iff_left (by omega)) rfl rfl
  have hpop : pop ((m.withSlot base.stack.depth value).withResult (base.stack.depth + 1) element) = _ :=
    pop_eq rfl
  simp only [withSlot, withResult] at hpop ⊢
  rw [Slots.read_set, if_pos ⟨rfl, by simpa using hspace⟩] at hpop
  refine ⟨_, hpop, ⟨⟨h.heap, h.events, h.frame, ?_, Nat.le_succ _, fun k hk => ?_⟩, rfl, ?_⟩⟩
  · rw [← h.capacity]
    simp [Machine.cut, Stack.capacity]
  · refine (hread k hk.le).trans ?_
    rw [if_neg hk.ne, h.below k hk]
  · exact (hread _ (Nat.le_refl _)).trans (if_pos rfl)

/-- A round takes the element of the slot that the iterator has come to. -/
theorem Drained.takes (h : Drained base address length k m) (env : Environment) (hop : i.op = .iterNext)
    (hlength : length < 0x100000000) (hk : k < length)
    (hroom : base.stack.depth + 1 < base.stack.capacity) {element : Value}
    (helement : (base.memory program).read? (address.after k) = some element) :
    ∃ o, Drained base address length (k + 1) o ∧ ∀ rounds, drain program env i (rounds + 1) m
      = (element :: (drain program env i rounds o).1, (drain program env i rounds o).2) := by
  obtain ⟨hremaining, hless⟩ := ofNat_sub_one hlength hk
  obtain ⟨o, hpop, hpushes⟩ := Pushes.changed h hroom
    (.iterator (address.after (k + 1)) (.ofNat (length - (k + 1)))) element
  refine ⟨o, hpushes, drain_takes ?_ hpop⟩
  rw [← hless]
  exact step_iterNext hop h.depth (Nat.lt_of_lt_of_eq hroom h.capacity.symm) h.top hremaining
    ((h.read?_eq program _).trans helement)

/-- The rounds take one value after the other, as long as there are values to read. -/
theorem Drained.takes_all {elements : List Value} (h : Drained base address length k m)
    (env : Environment) (hop : i.op = .iterNext) (hlength : length < 0x100000000)
    (hroom : base.stack.depth + 1 < base.stack.capacity) (hle : k + elements.length ≤ length)
    (helements : ∀ j < elements.length,
      (base.memory program).read? (address.after (k + j)) = elements[j]?) :
    ∃ o, Drained base address length (k + elements.length) o ∧
      ∀ rounds, drain program env i (elements.length + rounds) m
        = (elements ++ (drain program env i rounds o).1, (drain program env i rounds o).2) := by
  induction elements generalizing k m with
  | nil => exact ⟨m, h, fun rounds => by simp⟩
  | cons element elements ih =>
    rw [List.length_cons] at hle
    have hrest (j : Nat) (hj : j < elements.length) :
        (base.memory program).read? (address.after (k + 1 + j)) = elements[j]? := by
      have hnext := helements (j + 1) (Nat.succ_lt_succ hj)
      rwa [List.getElem?_cons_succ, ← Nat.add_assoc, Nat.add_right_comm] at hnext
    obtain ⟨n, hn, hfirst⟩ := h.takes env hop hlength (by omega) hroom (helements 0 (by simp))
    obtain ⟨o, ho, hmore⟩ := ih hn (by omega) hrest
    refine ⟨o, ?_, fun rounds => ?_⟩
    · rwa [Nat.add_assoc, Nat.add_comm 1] at ho
    · rw [List.length_cons, Nat.add_right_comm, hfirst, hmore]
      rfl

/-- With no element left the instruction leaves its loop. -/
theorem Drained.exits (h : Drained base address length length m) (env : Environment)
    (hop : i.op = .iterNext) (rounds : Nat) : drain program env i (rounds + 1) m
      = ([], some (.ok (.jump i.first.toNat) (m.cut base.stack.depth))) := by
  have htop := h.top
  rw [Nat.sub_self] at htop
  exact drain_ends (step_iterDone hop h.depth htop) (by simp) rounds

/-- An address with nothing to read ends the rounds with a fault. -/
theorem Drained.fails (h : Drained base address length k m) (env : Environment) (hop : i.op = .iterNext)
    (hlength : length < 0x100000000) (hk : k < length)
    (hmissing : (base.memory program).read? (address.after k) = none) (rounds : Nat) :
    drain program env i (rounds + 1) m = ([], some (.error (.badAddress (address.after k)) m)) :=
  drain_ends (step_iterNext_missing hop h.depth h.top (ofNat_sub_one hlength hk).1
    ((h.read?_eq program _).trans hmissing)) (by simp) rounds

/-! ### Whole arrays -/

/-- The rounds deliver these values in their order, and then the loop is left with nothing of the
iterator on the stack. -/
def Exhausts (program : Program) (env : Environment) (i : Instruction) (base start : Machine)
    (elements : List Value) : Prop :=
  ∃ n, base.Above n ∧ n.stack.live = base.stack.live ∧ ∀ rounds, elements.length < rounds →
    drain program env i rounds start = (elements, some (.ok (.jump i.first.toNat) n))

/-- The rounds deliver these values in their order, and then fail at an address. -/
def FailsBehind (program : Program) (env : Environment) (i : Instruction) (base start : Machine)
    (found : List Value) (place : Address) : Prop :=
  ∃ n, base.Above n ∧ ∀ rounds, found.length < rounds →
    drain program env i rounds start = (found, some (.error (.badAddress place) n))

variable {elements found : List Value}

/-- Enough rounds deliver the first values of the array and have one more to go. -/
theorem Drained.delivers (h : Drained base address length 0 m) (env : Environment)
    (hop : i.op = .iterNext) (hlength : length < 0x100000000)
    (hroom : base.stack.depth + 1 < base.stack.capacity) (hle : found.length ≤ length)
    (hfound : ∀ k < found.length, (base.memory program).read? (address.after k) = found[k]?) :
    ∃ o, Drained base address length found.length o ∧ ∀ rounds, found.length < rounds → ∃ more,
      drain program env i rounds m = (found ++ (drain program env i (more + 1) o).1,
        (drain program env i (more + 1) o).2) := by
  obtain ⟨o, ho, hdrain⟩ := h.takes_all env hop hlength hroom ((Nat.zero_add _).trans_le hle)
    fun k hk => by
      rw [Nat.zero_add]
      exact hfound k hk
  rw [Nat.zero_add] at ho
  refine ⟨o, ho, fun rounds hrounds => ?_⟩
  obtain ⟨more, rfl⟩ := Nat.exists_eq_add_of_lt hrounds
  exact ⟨more, hdrain (more + 1)⟩

theorem Drained.exhausts (h : Drained base address elements.length 0 m) (env : Environment)
    (hop : i.op = .iterNext) (hlength : elements.length < 0x100000000)
    (hroom : base.stack.depth + 1 < base.stack.capacity)
    (helements : ∀ k < elements.length, (base.memory program).read? (address.after k) = elements[k]?) :
    Exhausts program env i base m elements := by
  obtain ⟨o, ho, hdrain⟩ := h.delivers env hop hlength hroom (Nat.le_refl _) helements
  refine ⟨o.cut base.stack.depth, ho.cut, ho.live_cut, fun rounds hrounds => ?_⟩
  obtain ⟨more, hmore⟩ := hdrain rounds hrounds
  rw [hmore, ho.exits env hop, List.append_nil]

theorem Drained.failsBehind (h : Drained base address length 0 m) (env : Environment)
    (hop : i.op = .iterNext) (hlength : length < 0x100000000)
    (hroom : base.stack.depth + 1 < base.stack.capacity) (hlt : found.length < length)
    (hfound : ∀ k < found.length, (base.memory program).read? (address.after k) = found[k]?)
    (hmissing : (base.memory program).read? (address.after found.length) = none) :
    FailsBehind program env i base m found (address.after found.length) := by
  obtain ⟨o, ho, hdrain⟩ := h.delivers env hop hlength hroom hlt.le hfound
  refine ⟨o, ho.toAbove, fun rounds hrounds => ?_⟩
  obtain ⟨more, hmore⟩ := hdrain rounds hrounds
  rw [hmore, ho.fails env hop hlength hlt hmissing, List.append_nil]

/-- An iterator gets no further than its addresses do. -/
theorem Drained.overruns (h : Drained base address length 0 m) (env : Environment)
    (hop : i.op = .iterNext) (hlength : length < 0x100000000)
    (hroom : base.stack.depth + 1 < base.stack.capacity) (hreach : address.reach < length)
    (hfound : (base.memory program).resolve? address found.length = some found)
    (hle : address.reach ≤ found.length) :
    FailsBehind program env i base m (found.take address.reach) .null := by
  have hcount : (found.take address.reach).length = address.reach := List.length_take_of_le hle
  have hpast : address.after (found.take address.reach).length = .null :=
    Address.after_of_reach_le hcount.ge
  have hshort := Memory.resolve?_take hfound hle
  rw [← hpast]
  refine h.failsBehind env hop hlength hroom (hcount.trans_lt hreach) (fun k hk => ?_) ?_
  · rw [hcount] at hk
    exact Memory.read?_after hshort hk hk
  · rw [hpast]
    rfl

/-- An iterator made of the array on top delivers the elements that the array resolves to, in their
order, and then the loop is left with nothing of the array on the stack. If the array does not resolve,
it delivers elements of the array and fails in front of the first slot that is missing, or that has no
address. An array of constants that goes on behind the last slot number resolves too, but its iterator
fails there with no address at all. -/
theorem iterating_agrees_with_resolving (program : Program) (env : Environment)
    (make next : Instruction) {length : UInt32} (hmake : make.op = .makeIter)
    (hnext : next.op = .iterNext) (hheap : m.heap.base + m.heap.capacity ≤ maxOffset + 1)
    (htop : m.stack.peek 0 = .ok (.array address length)) (hroom : m.stack.depth < m.stack.capacity) :
    ∃ start, step program env make m = .ok .next start ∧
      (∀ elements, (m.memory program).resolve? address length.toNat = some elements →
        ¬address.Overruns length.toNat → Exhausts program env next m.popped start elements) ∧
      ((m.memory program).resolve? address length.toNat = none → ∃ found, found.length < length.toNat ∧
        (m.memory program).resolve? address found.length = some found ∧
        ((m.memory program).resolve? address (found.length + 1) = none ∨
          address.Overruns (found.length + 1)) ∧
        FailsBehind program env next m.popped start found (address.after found.length)) ∧
      ∀ elements, (m.memory program).resolve? address length.toNat = some elements →
        address.Overruns length.toNat →
        FailsBehind program env next m.popped start (elements.take address.reach) .null := by
  have hspace : m.popped.stack.depth + 1 < m.popped.stack.capacity := by
    rw [show m.popped.stack.depth + 1 = m.stack.depth from
      Nat.sub_add_cancel (Stack.peek_eq_ok.mp htop).1]
    exact hroom
  obtain ⟨start, hstep, hstart⟩ := drained_makeIter program env hmake htop (Nat.lt_of_succ_lt hspace)
  refine ⟨start, hstep, fun elements helements hinside => ?_, fun hnone => ?_,
    fun elements helements hover => ?_⟩
  · have hlength := Memory.length_of_resolve? helements
    have hreach := Memory.le_reach hheap helements hinside
    rw [← hlength] at hstart helements hreach
    exact hstart.exhausts env hnext (hlength ▸ length.toNat_lt) hspace
      fun k hk => Memory.read?_after helements hk (hk.trans_le hreach)
  · obtain ⟨found, hlt, hfound, hmissing⟩ := Memory.exists_missing_of_resolve?_eq_none hnone
    by_cases hover : address.Overruns (found.length + 1)
    · obtain ⟨offset, hconstant, hpast⟩ := id hover
      have hle := Nat.lt_succ_iff.mp hpast
      have hcount : (found.take address.reach).length = address.reach := List.length_take_of_le hle
      refine ⟨found.take address.reach, ?_, ?_, .inr ⟨offset, hconstant, ?_⟩, ?_⟩
      · omega
      · rw [hcount]
        exact Memory.resolve?_take hfound hle
      · rw [hcount]
        exact Nat.lt_succ_self _
      · rw [Address.after_of_reach_le hcount.ge]
        exact hstart.overruns env hnext length.toNat_lt hspace (by omega) hfound hle
    · have hinside : ¬address.Overruns found.length := by
        rintro ⟨offset, hconstant, hpast⟩
        exact hover ⟨offset, hconstant, Nat.lt_succ_of_lt hpast⟩
      have hreach := Memory.le_reach hheap hfound hinside
      refine ⟨found, hlt, hfound,
        .inl (Memory.resolve?_eq_none_of_slot? (Nat.lt_succ_self _) hmissing), ?_⟩
      exact hstart.failsBehind env hnext length.toNat_lt hspace hlt
        (fun k hk => Memory.read?_after hfound hk (hk.trans_le hreach))
        (Memory.read?_after_of_slot?_eq_none hmissing)
  · obtain ⟨-, -, hpast⟩ := hover
    have hlength := Memory.length_of_resolve? helements
    exact hstart.overruns env hnext length.toNat_lt hspace hpast (hlength ▸ helements) (by omega)

def pairProgram : Program :=
  { constants := #[.bool true, .bool false] }

/-- A machine with an array on its stack, and with a heap of one slot, which has the last address. -/
def lastSlotMachine (array : Value) : Machine :=
  ⟨⟨#[array, .nothing], 1, none⟩, ⟨#[.bool true], .empty 1, maxOffset, 0⟩, #[]⟩

/-- An array of all the constants is delivered as a whole. One that begins in the last slot of the heap
and goes on behind it ends with a fault. -/
theorem iterating_agrees_with_resolving_sample :
    (∃ start n, step pairProgram {} ⟨0, .makeIter, 0, 0⟩ (lastSlotMachine (.array (.constant 0) 2))
        = .ok .next start ∧
      drain pairProgram {} ⟨1, .iterNext, 9, 0⟩ 3 start
        = ([.bool true, .bool false], some (.ok (.jump 9) n))) ∧
    ∃ start found n, step pairProgram {} ⟨0, .makeIter, 0, 0⟩
        (lastSlotMachine (.array (.mutable 0x3fffffff) 2)) = .ok .next start ∧ found.length < 2 ∧
      drain pairProgram {} ⟨1, .iterNext, 9, 0⟩ 2 start
        = (found, some (.error (.badAddress ((Address.mutable 0x3fffffff).after found.length)) n)) := by
  obtain ⟨start, hstart, hsome, -⟩ := iterating_agrees_with_resolving pairProgram
    (m := lastSlotMachine (.array (.constant 0) 2)) {} ⟨0, .makeIter, 0, 0⟩ ⟨1, .iterNext, 9, 0⟩ rfl rfl
    (Nat.le_refl _) rfl (by decide)
  obtain ⟨start', hstart', -, hnone, -⟩ := iterating_agrees_with_resolving pairProgram
    (m := lastSlotMachine (.array (.mutable 0x3fffffff) 2)) {} ⟨0, .makeIter, 0, 0⟩
    ⟨1, .iterNext, 9, 0⟩ rfl rfl (Nat.le_refl _) rfl (by decide)
  have hinside : ¬(Address.constant 0).Overruns 2 := by
    rintro ⟨-, -, hpast⟩
    revert hpast
    decide
  obtain ⟨n, -, -, hdrain⟩ := hsome [.bool true, .bool false] (by decide) hinside
  obtain ⟨found, hlt, -, -, n', -, hdrain'⟩ := hnone (by decide)
  exact ⟨⟨start, n, hstart, hdrain 3 (by decide)⟩, start', found, n', hstart', hlt, hdrain' 2 hlt⟩

/-! ### More constants than addresses -/

/-- A program with one constant more than there are slot numbers. -/
def crowdedProgram : Program :=
  { constants := Array.replicate (maxOffset + 2) (.bool true) }

theorem portable_crowdedProgram : crowdedProgram.Portable where
  decodes := rfl
  import_names := by simp [crowdedProgram]
  export_names := by simp [crowdedProgram]
  constants := by
    intro v hv
    rw [Array.eq_of_mem_replicate hv]
    trivial
  code_lt := by simp [crowdedProgram]
  constants_lt := by simp [crowdedProgram, maxOffset]
  imports_lt := by simp [crowdedProgram]
  exports_lt := by simp [crowdedProgram]

theorem resolve?_crowdedProgram (m : Machine) :
    (m.memory crowdedProgram).resolve? (.constant 0x3fffffff) 2 = some [.bool true, .bool true] := by
  refine Memory.resolve?_eq_some_iff.mpr ⟨rfl, fun k hk => ?_⟩
  have hstart : (0x3fffffff : UInt32).toNat = maxOffset := rfl
  have hslot : (m.memory crowdedProgram).slot? (.constant 0x3fffffff) k = some (.bool true) := by
    simp only [Memory.slot?, memory, crowdedProgram, hstart]
    rw [Array.getElem?_replicate, if_pos (by omega)]
  rw [hslot]
  obtain rfl | rfl : k = 0 ∨ k = 1 := by omega
  · rfl
  · rfl

/-- A blob can bring a program in which an array of the last two constants resolves. An iterator made of
it delivers the first of them only and then fails. -/
theorem iterator_ends_before_array :
    (∃ bytes, Blob.read bytes = .ok crowdedProgram) ∧
    ((lastSlotMachine (.array (.constant 0x3fffffff) 2)).memory crowdedProgram).resolve?
      (.constant 0x3fffffff) 2 = some [.bool true, .bool true] ∧
    ∃ start n, step crowdedProgram {} ⟨0, .makeIter, 0, 0⟩
        (lastSlotMachine (.array (.constant 0x3fffffff) 2)) = .ok .next start ∧
      drain crowdedProgram {} ⟨1, .iterNext, 9, 0⟩ 3 start
        = ([.bool true], some (.error (.badAddress .null) n)) := by
  obtain ⟨s, hs⟩ := Blob.exists_spells portable_crowdedProgram
  refine ⟨⟨_, Blob.read_settled hs portable_crowdedProgram.decodes⟩, resolve?_crowdedProgram _, ?_⟩
  obtain ⟨start, hstart, hdrained⟩ := drained_makeIter crowdedProgram {}
    (i := ⟨0, .makeIter, 0, 0⟩) (m := lastSlotMachine (.array (.constant 0x3fffffff) 2)) rfl rfl (by decide)
  have hfound := resolve?_crowdedProgram (lastSlotMachine (.array (.constant 0x3fffffff) 2)).popped
  have hreach : (Address.constant 0x3fffffff).reach = 1 := by decide
  rw [show 2 = [Value.bool true, .bool true].length from rfl] at hfound
  obtain ⟨n, -, hdrain⟩ := hdrained.overruns (i := ⟨1, .iterNext, 9, 0⟩) {} rfl (UInt32.toNat_lt 2)
    (by decide) (by decide) hfound (by decide)
  rw [hreach] at hdrain
  exact ⟨start, n, hstart, hdrain 3 (by decide)⟩

end Machine

end ScriptMachine
