import Mathlib
import ScriptMachine.Proofs.Machine.Intact
import ScriptMachine.Proofs.Script.Placement

/-!
# Loops over the elements of an array

A loop makes an iterator of the array on top of the stack and keeps it there. Every turn takes the
next element into a local and carries out the body. Behind the last turn the iterator is taken away
and the loop is left, and so it is at a break.

What the body does is not looked at. As long as each of its runs ends behind the body or at a break of
the loop, with the iterator, the elements and the frame as they were, the turns go through the elements
in order.
-/

namespace ScriptMachine

/-- Where the code of a loop is: the instruction that makes the iterator, the jump back to the next
turn, and the local that takes the elements. -/
structure Loop where
  make : Nat
  back : Nat
  slot : Nat

namespace Loop

/-- Where every turn begins. -/
def head (loop : Loop) : Nat :=
  loop.make + 1

/-- Where the element is put into its local. -/
def store (loop : Loop) : Nat :=
  loop.make + 2

def body (loop : Loop) : Nat :=
  loop.make + 3

/-- The first position behind the loop. -/
def exit (loop : Loop) : Nat :=
  loop.back + 1

/-- The program has the instructions of the loop around its body. -/
structure In (loop : Loop) (program : Program) : Prop where
  make : program.Has .makeIter loop.make
  next : program.Leads .iterNext loop.head loop.exit
  store : program.Takes .storeLocal loop.store loop.slot
  back : program.Leads .jump loop.back loop.head

/-- A break of the loop: the iterator is dropped and the loop is left. -/
structure Breaks (loop : Loop) (program : Program) (position : Nat) : Prop where
  body_le : loop.body ≤ position
  lt_back : position + 1 < loop.back
  drop : program.Has .pop1 position
  leave : program.Leads .jump (position + 1) loop.exit

/-- A run of the body ends where the loop jumps back, or at a break. -/
def Ends (loop : Loop) (program : Program) (position : Nat) : Prop :=
  position = loop.back ∨ loop.Breaks program position

end Loop

/-- An array that a loop goes through, with its elements, and the slots of the stack that the loop
relies on: the one that holds the iterator, and the one of the frame that is current. -/
structure Iteration where
  array : Address
  elements : List Value
  base : Nat
  frame : Nat
  marker : Frame

namespace Iteration

/-- The slot of the local that takes the elements. -/
def target (it : Iteration) (loop : Loop) : Nat :=
  it.frame + 1 + loop.slot

/-- The array is on top of the stack, above the locals of the current frame, with a free slot above
it. -/
structure Begins (it : Iteration) (program : Program) (locals : Nat) (m : Machine) : Prop where
  depth : m.stack.depth = it.base + 1
  array : ∃ length, Slots.read m.stack.slots it.base = .array it.array length ∧
    (m.memory program).resolve? it.array length.toNat = some it.elements
  frame : m.stack.frame = some it.frame
  marker : Slots.read m.stack.slots it.frame = .frame it.marker
  reserved : it.marker.reserved = locals
  above : it.frame + locals < it.base
  room : it.base + 1 < m.stack.capacity

/-- Some of the elements have been taken: the iterator is on top of the stack with the rest of them,
and the elements and the frame are in place. -/
structure Holds (it : Iteration) (program : Program) (taken : Nat) (m : Machine) : Prop where
  depth : m.stack.depth = it.base + 1
  iterator : Slots.read m.stack.slots it.base
    = .iterator (it.array.after taken) (.ofNat (it.elements.length - taken))
  elements : (m.memory program).resolve? it.array it.elements.length = some it.elements
  frame : m.stack.frame = some it.frame
  marker : Slots.read m.stack.slots it.frame = .frame it.marker

/-- What does not change while the loop runs. -/
structure Fits (it : Iteration) (loop : Loop) (settings : Settings) : Prop where
  room : it.base + 1 < settings.stackSize
  above : it.frame + it.marker.reserved < it.base
  slot : loop.slot < it.marker.reserved
  length : it.elements.length < 0x100000000

theorem Begins.fits {it : Iteration} {loop : Loop} {program : Program} {settings : Settings} {m : Machine}
    {locals : Nat} (h : it.Begins program locals m) (hm : m.Intact settings) (hslot : loop.slot < locals) :
    it.Fits loop settings := by
  obtain ⟨length, -, hresolve⟩ := h.array
  refine ⟨hm.stack.capacity_eq ▸ h.room, h.reserved ▸ h.above, h.reserved ▸ hslot, ?_⟩
  rw [Memory.length_of_resolve? hresolve]
  exact length.toNat_lt

end Iteration

namespace Machine

variable {program : Program} {env : Environment} {validate : Bool} {loop : Loop} {it : Iteration}
  {settings : Settings} {m n b f : Machine} {k p : Nat} {places : List Nat}

/-! ### Turns -/

/-- The second machine is at the body with the next element in its local. Otherwise it is as the first
one was at the beginning of the turn. -/
structure Visits (loop : Loop) (it : Iteration) (program : Program) (k : Nat) (m b : Machine) : Prop where
  holds : it.Holds program (k + 1) b
  element : it.elements[k]? = some (Slots.read b.stack.slots (it.target loop))
  heap : b.heap = m.heap
  events : b.events = m.events
  below : ∀ j < it.base, j ≠ it.target loop →
    Slots.read b.stack.slots j = Slots.read m.stack.slots j

/-- A run is in the body of the loop: with the frame of the loop it is at an instruction of the body
that is no end of it, or about to open the frame of a call, and otherwise it is in a call. -/
def Within (loop : Loop) (it : Iteration) (program : Program) (p : Nat) (m : Machine) : Prop :=
  m.stack.frame = some it.frame ∧ (program.opensFrameAt p = true ∨
      ∃ position, loop.body ≤ position ∧ position < loop.back ∧ ¬ loop.Ends program position ∧
        p = program.place position) ∨
    ∃ inner, it.frame < inner ∧ m.stack.frame = some inner

/-- The run of the body from a machine at its beginning ends at a position. -/
structure Round (program : Program) (env : Environment) (validate : Bool) (loop : Loop) (it : Iteration)
    (places : List Nat) (b : Machine) (position : Nat) (f : Machine) : Prop where
  passes : Passes program env validate places (program.place loop.body) b (program.place position) f
  ends : loop.Ends program position
  within : ∀ front p n, Passes program env validate front (program.place loop.body) b p n →
    front.length < places.length → Within loop it program p n

/-- Every run of the body that the loop starts ends behind the body or at a break of the loop, with the
iterator, the elements and the frame as they were. -/
def BodyEnds (program : Program) (env : Environment) (validate : Bool) (loop : Loop) (it : Iteration)
    (start : Nat) (s : Machine) : Prop :=
  ∀ k b, Reaches program env validate start s (program.place loop.body) b →
    it.Holds program (k + 1) b →
    it.elements[k]? = some (Slots.read b.stack.slots (it.target loop)) →
    ∃ places position f, Round program env validate loop it places b position f ∧
      it.Holds program (k + 1) f

/-- No run of the body that the loop starts changes a slot of the stack. -/
def BodyKeeps (program : Program) (env : Environment) (validate : Bool) (loop : Loop) (it : Iteration)
    (start : Nat) (s : Machine) (index : Nat) : Prop :=
  ∀ places b position f, Reaches program env validate start s (program.place loop.body) b →
    Round program env validate loop it places b position f →
    Slots.read f.stack.slots index = Slots.read b.stack.slots index

/-- The turns of a loop from the beginning of a turn on, with the places that they pass: one turn after
the other up to one that ends at a break, or until all elements are taken. -/
inductive Walks (program : Program) (env : Environment) (validate : Bool) (loop : Loop) (it : Iteration) :
    Nat → List Nat → Machine → Machine → Prop where
  | done {m : Machine}
      (hexit : Passes program env validate [program.place loop.head] (program.place loop.head) m
        (program.place loop.exit) (m.cut it.base)) :
      Walks program env validate loop it it.elements.length [program.place loop.head] m (m.cut it.base)
  | again {k : Nat} {places rest : List Nat} {m b f n : Machine} (hvisits : Visits loop it program k m b)
      (henter : Passes program env validate [program.place loop.head, program.place loop.store]
        (program.place loop.head) m (program.place loop.body) b)
      (hround : Round program env validate loop it places b loop.back f)
      (hholds : it.Holds program (k + 1) f)
      (hback : Passes program env validate [program.place loop.back] (program.place loop.back) f
        (program.place loop.head) f)
      (hrest : Walks program env validate loop it (k + 1) rest f n) :
      Walks program env validate loop it k ([program.place loop.head, program.place loop.store] ++ places
        ++ [program.place loop.back] ++ rest) m n
  | leave {k position : Nat} {places : List Nat} {m b f : Machine} (hvisits : Visits loop it program k m b)
      (henter : Passes program env validate [program.place loop.head, program.place loop.store]
        (program.place loop.head) m (program.place loop.body) b)
      (hround : Round program env validate loop it places b position f)
      (hholds : it.Holds program (k + 1) f) (hbreak : loop.Breaks program position)
      (hleave : Passes program env validate [program.place position, program.place (position + 1)]
        (program.place position) f (program.place loop.exit) (f.cut it.base)) :
      Walks program env validate loop it k ([program.place loop.head, program.place loop.store] ++ places
        ++ [program.place position, program.place (position + 1)]) m (f.cut it.base)

/-- A run through a loop that it comes to with the machine `m`. It makes the iterator, which gives `m'`,
takes the turns, and is behind the loop with `n`. The array is gone from the stack, the frame is the one
of before, and below the array only the local of the elements and what the body writes may be new. -/
structure RunsThrough (program : Program) (env : Environment) (validate : Bool) (loop : Loop)
    (it : Iteration) (places : List Nat) (m m' n : Machine) : Prop where
  makes : Passes program env validate [program.place loop.make] (program.place loop.make) m
    (program.place loop.head) m'
  walks : Walks program env validate loop it 0 places m' n
  passes : Passes program env validate (program.place loop.make :: places) (program.place loop.make) m
    (program.place loop.exit) n
  depth : n.stack.depth = it.base
  frame : n.stack.frame = m.stack.frame
  keeps : ∀ index < it.base, index ≠ it.target loop →
    BodyKeeps program env validate loop it (program.place loop.make) m index →
    Slots.read n.stack.slots index = Slots.read m.stack.slots index

theorem Walks.passes (h : Walks program env validate loop it k places m n) :
    Passes program env validate places (program.place loop.head) m (program.place loop.exit) n := by
  induction h with
  | done hexit => exact hexit
  | again _ henter hround _ hback _ ih => exact ((henter.trans hround.passes).trans hback).trans ih
  | leave _ henter hround _ _ hleave => exact (henter.trans hround.passes).trans hleave

/-! ### One turn -/

theorem read?_after_of_loop (hconstants : program.constants.size ≤ maxOffset + 1) (hm : m.Intact settings)
    (hholds : it.Holds program k m) (hk : k < it.elements.length) :
    (m.memory program).read? (it.array.after k) = some it.elements[k] := by
  have hheap : m.heap.base + m.heap.capacity ≤ maxOffset + 1 := by
    rw [hm.heap.base_eq, hm.heap.capacity_eq]
    exact hm.heap.reach
  have hreach := Memory.le_reach hheap hholds.elements (Memory.not_overruns hconstants hholds.elements)
  rw [Memory.read?_after hholds.elements hk (hk.trans_le hreach), List.getElem?_eq_getElem hk]

/-- The check after an instruction accepts the stack while the loop runs. -/
theorem after_of_loop (hfits : it.Fits loop settings) (hcapacity : n.stack.capacity = settings.stackSize)
    (hdepth : it.base ≤ n.stack.depth) (hroom : n.stack.depth ≤ it.base + 2)
    (hframe : n.stack.frame = some it.frame)
    (hmarker : Slots.read n.stack.slots it.frame = .frame it.marker) :
    Check.after n.stack = .ok () := by
  have habove := hfits.above
  have hsize := hfits.room
  exact Check.after_of_frame (by omega) hframe (by omega) hmarker

/-- The machine with the next element on top of the iterator. -/
def taking (it : Iteration) (k : Nat) (element : Value) (m : Machine) : Machine :=
  (m.withSlot it.base (.iterator (it.array.after (k + 1)) (.ofNat (it.elements.length - (k + 1))))).withResult
    (it.base + 1) element

theorem size_taking (it : Iteration) (k : Nat) (element : Value) (m : Machine) :
    (taking it k element m).stack.slots.size = m.stack.slots.size := by
  simp [taking, withResult, withSlot]

theorem read_taking (element : Value) (hroom : it.base + 1 < m.stack.capacity) (index : Nat) :
    Slots.read (taking it k element m).stack.slots index
      = if index = it.base + 1 then element
        else if index = it.base then
          .iterator (it.array.after (k + 1)) (.ofNat (it.elements.length - (k + 1)))
        else Slots.read m.stack.slots index := by
  have hsize : it.base + 1 < m.stack.slots.size := hroom
  simp only [taking, withResult, withSlot]
  rw [Slots.read_set, Slots.read_set, Array.size_setIfInBounds]
  split_ifs <;> first | rfl | omega

def visiting (loop : Loop) (it : Iteration) (k : Nat) (element : Value) (m : Machine) : Machine :=
  ((taking it k element m).cut (it.base + 1)).withSlot (it.target loop) element

theorem target_lt_base (hfits : it.Fits loop settings) : it.target loop < it.base := by
  have habove := hfits.above
  have hslot := hfits.slot
  simp only [Iteration.target]
  omega

theorem read_visiting (hfits : it.Fits loop settings) (hm : m.Intact settings) (element : Value)
    (index : Nat) : Slots.read (visiting loop it k element m).stack.slots index
      = if index = it.target loop then element
        else Slots.read (taking it k element m).stack.slots index := by
  have hcapacity : m.stack.slots.size = settings.stackSize := hm.stack.capacity_eq
  have hroom := hfits.room
  have htarget := target_lt_base hfits
  simp only [visiting, withSlot, cut]
  rw [Slots.read_set, size_taking]
  split_ifs <;> first | rfl | omega

theorem visits_visiting (hfits : it.Fits loop settings) (hm : m.Intact settings)
    (hholds : it.Holds program k m) (hk : k < it.elements.length) :
    Visits loop it program k m (visiting loop it k it.elements[k] m) := by
  have hroom : it.base + 1 < m.stack.capacity := hm.stack.capacity_eq ▸ hfits.room
  have htarget := target_lt_base hfits
  have hframe : it.frame < it.target loop := by
    simp only [Iteration.target]
    omega
  refine ⟨⟨rfl, ?_, hholds.elements, hholds.frame, ?_⟩, ?_, rfl, rfl, fun index hindex hother => ?_⟩
  · rw [read_visiting hfits hm, if_neg (by omega), read_taking _ hroom, if_neg (by omega), if_pos rfl]
  · rw [read_visiting hfits hm, if_neg (by omega), read_taking _ hroom, if_neg (by omega),
      if_neg (by omega)]
    exact hholds.marker
  · rw [read_visiting hfits hm, if_pos rfl, List.getElem?_eq_getElem hk]
  · rw [read_visiting hfits hm, if_neg hother, read_taking _ hroom, if_neg (by omega), if_neg (by omega)]

end Machine

namespace Loop

open Machine

variable {program : Program} {env : Environment} {validate : Bool} {loop : Loop} {it : Iteration}
  {settings : Settings} {m f : Machine} {k : Nat}

/-- The iterator is made of the array on top. -/
theorem In.begins (hloop : loop.In program) (env : Environment) (validate : Bool) (hm : m.Intact settings)
    (hfits : it.Fits loop settings) {locals : Nat} (hbegins : it.Begins program locals m) :
    ∃ n, it.Holds program 0 n ∧ n.heap = m.heap ∧ n.events = m.events ∧
      (∀ j < it.base, Slots.read n.stack.slots j = Slots.read m.stack.slots j) ∧
      Passes program env validate [program.place loop.make] (program.place loop.make) m
        (program.place loop.head) n := by
  obtain ⟨i, hi, hop, hoffset, hnext⟩ := hloop.make
  obtain ⟨length, htop, hresolve⟩ := hbegins.array
  have hlength := Memory.length_of_resolve? hresolve
  have hroom : it.base < m.stack.slots.size := Nat.lt_of_succ_lt hbegins.room
  have habove := hbegins.above
  have hbelow (j : Nat) (hj : j < it.base) :
      Slots.read (m.withResult it.base (.iterator it.array length)).stack.slots j
        = Slots.read m.stack.slots j := by
    simp only [withResult]
    rw [Slots.read_set, if_neg (by omega)]
  have hholds : it.Holds program 0 (m.withResult it.base (.iterator it.array length)) := by
    refine ⟨rfl, ?_, ?_, hbegins.frame, (hbelow _ (by omega)).trans hbegins.marker⟩
    · simp only [withResult]
      rw [Slots.read_set, if_pos ⟨rfl, hroom⟩, Nat.sub_zero, hlength, UInt32.ofNat_toNat]
      rfl
    · rw [hlength]
      exact hresolve
  have hcapacity : (m.withResult it.base (.iterator it.array length)).stack.capacity = settings.stackSize :=
    Array.size_setIfInBounds.trans hm.stack.capacity_eq
  have hafter := after_of_loop hfits hcapacity (Nat.le_succ _) (Nat.le_succ _) hholds.frame hholds.marker
  refine ⟨_, hholds, rfl, rfl, hbelow, ?_⟩
  rw [← hoffset, show loop.head = loop.make + 1 from rfl, ← hnext]
  exact passes_makeIter hi hop hbegins.depth hroom htop fun _ => hafter

/-- A turn with an element left puts it on top of the iterator. -/
theorem In.takes (hloop : loop.In program) (hconstants : program.constants.size ≤ maxOffset + 1)
    (hm : m.Intact settings) (hfits : it.Fits loop settings) (hholds : it.Holds program k m)
    (hk : k < it.elements.length) :
    Passes program env validate [program.place loop.head] (program.place loop.head) m
        (program.place loop.store) (taking it k it.elements[k] m) := by
  obtain ⟨i, hi, hop, hoffset, hnext, htarget, hlt⟩ := hloop.next
  have hroom : it.base + 1 < m.stack.capacity := hm.stack.capacity_eq ▸ hfits.room
  have habove := hfits.above
  have helement := read?_after_of_loop hconstants hm hholds hk
  have hmarker : Slots.read (taking it k it.elements[k] m).stack.slots it.frame = .frame it.marker := by
    rw [read_taking _ hroom, if_neg (by omega), if_neg (by omega)]
    exact hholds.marker
  have hafter := after_of_loop hfits ((size_taking ..).trans hm.stack.capacity_eq) (Nat.le_add_right _ 2)
    (Nat.le_refl _) hholds.frame hmarker
  obtain ⟨hremaining, hless⟩ := ofNat_sub_one hfits.length hk
  rw [show loop.store = loop.head + 1 from rfl, ← hoffset, ← hnext]
  unfold taking at hafter ⊢
  rw [← hless] at hafter ⊢
  exact passes_iterNext hi hop (htarget ▸ hlt) hholds.depth hroom hholds.iterator hremaining helement
    fun _ => hafter

/-- The element goes from the top of the iterator to its local. -/
theorem In.stores (hloop : loop.In program) (hm : m.Intact settings) (hfits : it.Fits loop settings)
    (hholds : it.Holds program k m) (hk : k < it.elements.length) :
    Passes program env validate [program.place loop.store] (program.place loop.store)
      (taking it k it.elements[k] m) (program.place loop.body) (visiting loop it k it.elements[k] m) := by
  obtain ⟨j, hj, hop, hoffset, hnext, hslot⟩ := hloop.store
  have hroom : it.base + 1 < m.stack.capacity := hm.stack.capacity_eq ▸ hfits.room
  have habove := hfits.above
  have hread := read_taking (k := k) it.elements[k] hroom
  have hmarker : Slots.read (taking it k it.elements[k] m).stack.slots it.frame = .frame it.marker := by
    rw [hread, if_neg (by omega), if_neg (by omega)]
    exact hholds.marker
  have hvisits := visits_visiting hfits hm hholds hk
  have hcapacity : (visiting loop it k it.elements[k] m).stack.capacity = settings.stackSize :=
    (Array.size_setIfInBounds.trans (size_taking ..)).trans hm.stack.capacity_eq
  have hafter := after_of_loop hfits hcapacity (Nat.le_succ _) (Nat.le_succ _) hvisits.holds.frame
    hvisits.holds.marker
  have hvisiting : ((taking it k it.elements[k] m).cut (it.base + 1)).withSlot
      (it.frame + 1 + j.first.toNat) (Slots.read (taking it k it.elements[k] m).stack.slots (it.base + 1))
      = visiting loop it k it.elements[k] m := by
    rw [hread, if_pos rfl, hslot]
    rfl
  rw [show loop.body = loop.store + 1 from rfl, ← hoffset, ← hnext]
  rw [← hvisiting] at hafter ⊢
  exact passes_storeLocal hj hop rfl hholds.frame hmarker (hslot ▸ hfits.slot) (by omega) fun _ => hafter

/-- A turn with an element left comes to the body with the element in its local. -/
theorem In.visits (hloop : loop.In program) (hconstants : program.constants.size ≤ maxOffset + 1)
    (hm : m.Intact settings) (hfits : it.Fits loop settings) (hholds : it.Holds program k m)
    (hk : k < it.elements.length) : ∃ b, Visits loop it program k m b ∧
      Passes program env validate [program.place loop.head, program.place loop.store]
        (program.place loop.head) m (program.place loop.body) b :=
  ⟨_, visits_visiting hfits hm hholds hk,
    (hloop.takes hconstants hm hfits hholds hk).trans (hloop.stores hm hfits hholds hk)⟩

/-- A turn with no element left leaves the loop. -/
theorem In.exhausted (hloop : loop.In program) (hm : m.Intact settings)
    (hfits : it.Fits loop settings) (hholds : it.Holds program it.elements.length m) :
    Passes program env validate [program.place loop.head] (program.place loop.head) m
      (program.place loop.exit) (m.cut it.base) := by
  obtain ⟨i, hi, hop, hoffset, -, htarget, hlt⟩ := hloop.next
  have hafter := after_of_loop (n := m.cut it.base) hfits hm.stack.capacity_eq (Nat.le_refl _)
    (Nat.le_add_right _ _) hholds.frame hholds.marker
  have htop := hholds.iterator
  rw [Nat.sub_self] at htop
  rw [← hoffset, ← htarget]
  exact passes_iterDone hi hop (htarget ▸ hlt) hholds.depth htop fun _ => hafter

theorem In.jumps_back (hloop : loop.In program) (hf : f.Intact settings)
    (hfits : it.Fits loop settings) (hholds : it.Holds program k f) :
    Passes program env validate [program.place loop.back] (program.place loop.back) f
      (program.place loop.head) f := by
  obtain ⟨i, hi, hop, hoffset, -, htarget, hlt⟩ := hloop.back
  have hdepth := hholds.depth
  have hafter := after_of_loop hfits hf.stack.capacity_eq (by omega) (by omega) hholds.frame
    hholds.marker
  rw [← hoffset, ← htarget]
  exact passes_jump hi hop (htarget ▸ hlt) fun _ => hafter

theorem Breaks.leaves {position : Nat} (hbreak : loop.Breaks program position) (hf : f.Intact settings)
    (hfits : it.Fits loop settings) (hholds : it.Holds program k f) :
    Passes program env validate [program.place position, program.place (position + 1)]
      (program.place position) f (program.place loop.exit) (f.cut it.base) := by
  obtain ⟨i, hi, hop, hoffset, hnext⟩ := hbreak.drop
  obtain ⟨j, hj, hop', hoffset', -, htarget, hlt⟩ := hbreak.leave
  have hafter := after_of_loop (n := f.cut it.base) hfits hf.stack.capacity_eq (Nat.le_refl _)
    (Nat.le_add_right _ _) hholds.frame hholds.marker
  have hdrop : Passes program env validate [i.offset] i.offset f i.nextOffset (f.cut it.base) :=
    passes_pop1 hi hop hholds.depth fun _ => hafter
  have hjump : Passes program env validate [j.offset] j.offset (f.cut it.base) j.first.toNat
      (f.cut it.base) := passes_jump hj hop' (htarget ▸ hlt) fun _ => hafter
  rw [hoffset, hnext] at hdrop
  rw [hoffset', htarget] at hjump
  exact hdrop.trans hjump

/-! ### All turns -/

/-- If every run of the body ends well, the loop takes turn after turn until it is left. -/
theorem In.walks (hloop : loop.In program) (hconstants : program.constants.size ≤ maxOffset + 1)
    (hfits : it.Fits loop settings) {start : Nat} {s : Machine} (hs : s.Intact settings)
    (hbody : BodyEnds program env validate loop it start s)
    (hreaches : Reaches program env validate start s (program.place loop.head) m)
    (hholds : it.Holds program k m) (hk : k ≤ it.elements.length) :
    ∃ places n, Walks program env validate loop it k places m n := by
  -- The induction is on the number of elements that are left.
  induction hleft : it.elements.length - k generalizing k m with
  | zero =>
    obtain rfl : k = it.elements.length := by omega
    exact ⟨_, _, .done (hloop.exhausted (hreaches.intact hs) hfits hholds)⟩
  | succ left ih =>
    obtain ⟨b, hvisits, henter⟩ :=
      hloop.visits hconstants (hreaches.intact hs) hfits hholds (by omega)
    have hreachesBody := hreaches.trans henter.reaches
    obtain ⟨places, position, f, hround, hholds'⟩ := hbody k b hreachesBody hvisits.holds hvisits.element
    have hreachesEnd := hreachesBody.trans hround.passes.reaches
    have hf := hreachesEnd.intact hs
    rcases hround.ends with rfl | hbreak
    · have hback : Passes program env validate _ _ f _ f := hloop.jumps_back hf hfits hholds'
      obtain ⟨rest, n, hwalks⟩ := ih (hreachesEnd.trans hback.reaches) hholds' (by omega) (by omega)
      exact ⟨_, n, .again hvisits henter hround hholds' hback hwalks⟩
    · exact ⟨_, _, .leave hvisits henter hround hholds' hbreak (hbreak.leaves hf hfits hholds')⟩

end Loop

namespace Machine

variable {program : Program} {env : Environment} {validate : Bool} {loop : Loop} {it : Iteration}
  {m n : Machine} {k : Nat} {places : List Nat}

/-- A loop that is left has taken the iterator away, and its frame is current. -/
theorem Walks.left (h : Walks program env validate loop it k places m n) (hholds : it.Holds program k m) :
    n.stack.depth = it.base ∧ n.stack.frame = some it.frame ∧
      Slots.read n.stack.slots it.frame = .frame it.marker := by
  induction h with
  | done => exact ⟨rfl, hholds.frame, hholds.marker⟩
  | again _ _ _ hholds' _ _ ih => exact ih hholds'
  | leave _ _ _ hholds' => exact ⟨rfl, hholds'.frame, hholds'.marker⟩

/-- What no run of the body changes, a loop leaves as it was, apart from the local of the elements. -/
theorem Walks.read_eq (h : Walks program env validate loop it k places m n) {start : Nat} {s : Machine}
    (hreaches : Reaches program env validate start s (program.place loop.head) m) {index : Nat}
    (hindex : index < it.base) (hother : index ≠ it.target loop)
    (hbody : BodyKeeps program env validate loop it start s index) :
    Slots.read n.stack.slots index = Slots.read m.stack.slots index := by
  induction h with
  | done => rfl
  | again hvisits henter hround _ hback _ ih =>
    have hreachesBody := hreaches.trans henter.reaches
    have hround' := hbody _ _ _ _ hreachesBody hround
    have hrest := ih ((hreachesBody.trans hround.passes.reaches).trans hback.reaches)
    exact hrest.trans (hround'.trans (hvisits.below index hindex hother))
  | leave hvisits henter hround =>
    have hround' := hbody _ _ _ _ (hreaches.trans henter.reaches) hround
    exact hround'.trans (hvisits.below index hindex hother)

end Machine

open Machine

/-- A loop whose bodies all end well is run through. -/
theorem Loop.In.runsThrough {program : Program} {loop : Loop} {it : Iteration} {settings : Settings}
    {m : Machine} {locals : Nat} (hloop : loop.In program)
    (hconstants : program.constants.size ≤ maxOffset + 1) (hslot : loop.slot < locals)
    (env : Environment) (validate : Bool) (hm : m.Intact settings) (hbegins : it.Begins program locals m)
    (hbody : BodyEnds program env validate loop it (program.place loop.make) m) :
    ∃ places m' n, RunsThrough program env validate loop it places m m' n := by
  have hfits := hbegins.fits hm hslot
  obtain ⟨m', hholds, -, -, hbelow, hmake⟩ := hloop.begins env validate hm hfits hbegins
  obtain ⟨places, n, hwalks⟩ := hloop.walks hconstants hfits hm hbody hmake.reaches hholds (Nat.zero_le _)
  obtain ⟨hdepth, hframe, -⟩ := hwalks.left hholds
  refine ⟨places, m', n, hmake, hwalks, hmake.trans hwalks.passes, hdepth,
    hframe.trans hbegins.frame.symm, fun index hindex hother hkeeps => ?_⟩
  exact (hwalks.read_eq hmake.reaches hindex hother hkeeps).trans (hbelow index hindex)

end ScriptMachine
