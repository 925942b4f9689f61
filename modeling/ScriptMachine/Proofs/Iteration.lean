import Mathlib
import ScriptMachine.Memory
import ScriptMachine.Proofs.Slots

/-!
# Going through an array slot by slot

An iterator holds an address and moves it on by one slot for every element. An address has fewer bits
than a slot number, and past the last one that it holds it becomes `null`. Up to there the addresses that
the iterator comes to are those of the slots of the array, whatever the memory is.
-/

namespace ScriptMachine

/-- The address that an iterator holds after some steps. -/
def Address.after (address : Address) : (steps : Nat) → Address
  | 0 => address
  | steps + 1 => ((address.after steps).advance? 1).getD .null

namespace Address

theorem toNat_ofNat_of_le {offset : Nat} (h : offset ≤ maxOffset) : (UInt32.ofNat offset).toNat = offset := by
  rw [UInt32.toNat_ofNat']
  exact Nat.mod_eq_of_lt (Nat.lt_of_le_of_lt h (by decide))

/-- Inside its space an address moves on by the number of steps. Past the last slot number it becomes
`null`, and that is where it stays. -/
theorem after_eq {make : UInt32 → Address} (hmake : ∀ offset count, (make offset).advance? count
      = if offset.toNat + count.toNat ≤ maxOffset then some (make (.ofNat (offset.toNat + count.toNat)))
        else none) (offset : UInt32) (steps : Nat) :
    (make offset).after steps
      = if steps = 0 ∨ offset.toNat + steps ≤ maxOffset then make (.ofNat (offset.toNat + steps))
        else .null := by
  induction steps with
  | zero => simp [after]
  | succ steps ih =>
    rw [after, ih]
    by_cases hinside : steps = 0 ∨ offset.toNat + steps ≤ maxOffset
    · have htoNat : (UInt32.ofNat (offset.toNat + steps)).toNat = offset.toNat + steps := by
        rcases hinside with rfl | hle
        · simp
        · exact toNat_ofNat_of_le hle
      rw [if_pos hinside, hmake, htoNat, UInt32.toNat_one]
      by_cases hnext : offset.toNat + steps + 1 ≤ maxOffset
      · rw [if_pos hnext, if_pos (.inr hnext), Nat.add_assoc]
        rfl
      · rw [if_neg hnext, if_neg (by omega)]
        rfl
    · rw [if_neg hinside, if_neg (by omega)]
      rfl

theorem after_constant (offset : UInt32) (steps : Nat) : (constant offset).after steps
    = if steps = 0 ∨ offset.toNat + steps ≤ maxOffset then .constant (.ofNat (offset.toNat + steps))
      else .null :=
  after_eq (fun _ _ => rfl) offset steps

theorem after_mutable (offset : UInt32) (steps : Nat) : (mutable offset).after steps
    = if steps = 0 ∨ offset.toNat + steps ≤ maxOffset then .mutable (.ofNat (offset.toNat + steps))
      else .null :=
  after_eq (fun _ _ => rfl) offset steps

theorem after_null (steps : Nat) : null.after steps = null := by
  induction steps with
  | zero => rfl
  | succ steps ih =>
    rw [after, ih]
    rfl

/-- The number of slots that an iterator comes to: the one at its address, whatever that is, and those
behind it up to the last slot number. -/
def reach (address : Address) : Nat :=
  max 1 (maxOffset + 1 - address.offset.toNat)

/-- An array of constants that goes on where an iterator does not come to. -/
def Overruns (address : Address) (length : Nat) : Prop :=
  ∃ start, address = .constant start ∧ address.reach < length

theorem after_of_reach_le {address : Address} {steps : Nat} (h : address.reach ≤ steps) :
    address.after steps = .null := by
  have hpast : ¬(steps = 0 ∨ address.offset.toNat + steps ≤ maxOffset) := by
    rw [reach] at h
    omega
  cases address with
  | null => exact after_null steps
  | constant offset => exact (after_constant offset steps).trans (if_neg hpast)
  | «mutable» offset => exact (after_mutable offset steps).trans (if_neg hpast)

end Address

/-- A slice in the row has the values of its slots. -/
theorem Slots.slice_eq_iff {slots : Slots} {start length : Nat} {values : List Value} (hpos : length ≠ 0) :
    start + length ≤ slots.size ∧ slice slots start (start + length) = values ↔
      values.length = length ∧ ∀ k < length, slots[start + k]? = values[k]? := by
  constructor
  · rintro ⟨hle, rfl⟩
    refine ⟨by rw [length_slice hle, Nat.add_sub_cancel_left], fun k hk => ?_⟩
    rw [getElem?_slice, if_pos ⟨by omega, by omega⟩, getElem?_eq_read (by omega)]
  · rintro ⟨rfl, hvalues⟩
    have hlast := hvalues (values.length - 1) (by omega)
    rw [List.getElem?_eq_getElem (by omega)] at hlast
    have hlt := (Array.getElem?_eq_some_iff.mp hlast).1
    refine ⟨by omega, List.ext_getElem? fun k => ?_⟩
    rw [getElem?_slice]
    by_cases hk : k < values.length
    · rw [if_pos ⟨by omega, by omega⟩, ← hvalues k hk, getElem?_eq_read (by omega)]
    · rw [if_neg (by omega), List.getElem?_eq_none (by omega)]

namespace Memory

/-- The value so many slots behind an address, counted in the pool or on the heap itself. -/
def slot? (memory : Memory) (address : Address) (k : Nat) : Option Value :=
  match address with
  | .null => none
  | .constant start => memory.constants[start.toNat + k]?
  | .mutable start =>
    if memory.heap.base ≤ start.toNat + k then memory.heap.slots[start.toNat + k - memory.heap.base]?
    else none

variable {memory : Memory} {address : Address} {length : Nat} {elements : List Value}

/-- An array resolves to the values of its slots, if all of them are there. -/
theorem resolve?_eq_some_iff : memory.resolve? address length = some elements ↔
    elements.length = length ∧ ∀ k < length, memory.slot? address k = elements[k]? := by
  by_cases hzero : length = 0
  · simp [resolve?, hzero, eq_comm]
  · unfold resolve?
    rw [if_neg hzero]
    -- Without its first slot an array has no elements.
    have hnone (hslot : memory.slot? address 0 = none) :
        ¬ (elements.length = length ∧ ∀ k < length, memory.slot? address k = elements[k]?) := by
      rintro ⟨rfl, hslots⟩
      have hfirst := hslots 0 (Nat.pos_of_ne_zero hzero)
      rw [hslot, eq_comm, List.getElem?_eq_none_iff] at hfirst
      omega
    cases address with
    | null => exact iff_of_false (Option.some_ne_none _).symm (hnone rfl)
    | constant start =>
      simp only [Option.ite_none_right_eq_some, Option.some.injEq]
      exact Slots.slice_eq_iff hzero
    | «mutable» start =>
      rw [Heap.elements?, if_neg hzero, Heap.slotAt?]
      by_cases hbase : memory.heap.base ≤ start.toNat
      · have hslot (k : Nat) : memory.slot? (.mutable start) k
            = memory.heap.slots[start.toNat - memory.heap.base + k]? := by
          rw [slot?, if_pos (by omega), Nat.sub_add_comm hbase]
        simp only [hslot, ← Slots.slice_eq_iff hzero, hbase, true_and]
        by_cases hle : start.toNat - memory.heap.base + length ≤ memory.heap.slots.size
        · simp [Heap.capacity, hle]
        · simp [Heap.capacity, hle]
      · rw [if_neg fun h => hbase h.1]
        exact iff_of_false (Option.some_ne_none _).symm (hnone (if_neg hbase))

/-- As far as an iterator comes, its addresses are those of the slots, one after the other. -/
theorem read?_after_of_lt {k : Nat} (h : k < address.reach) :
    memory.read? (address.after k) = memory.slot? address k := by
  have hinside : k = 0 ∨ address.offset.toNat + k ≤ maxOffset := by
    rw [Address.reach] at h
    omega
  have htoNat : (UInt32.ofNat (address.offset.toNat + k)).toNat = address.offset.toNat + k := by
    rcases hinside with rfl | hle
    · simp
    · exact Address.toNat_ofNat_of_le hle
  cases address with
  | null =>
    rw [Address.after_null]
    rfl
  | constant start =>
    rw [Address.offset] at hinside htoNat
    rw [Address.after_constant, slot?, if_pos hinside, read?, htoNat]
  | «mutable» start =>
    rw [Address.offset] at hinside htoNat
    rw [Address.after_mutable, slot?, if_pos hinside, read?, Heap.get?, Heap.slotAt?, htoNat]
    by_cases hbase : memory.heap.base ≤ start.toNat + k
    · have hsize : memory.heap.capacity = memory.heap.slots.size := rfl
      rw [if_pos hbase]
      by_cases hlt : start.toNat + k - memory.heap.base < memory.heap.slots.size
      · rw [if_pos ⟨hbase, hlt⟩, Slots.getElem?_eq_read hlt]
        rfl
      · rw [if_neg fun h => hlt h.2, Array.getElem?_eq_none (by omega)]
        rfl
    · rw [if_neg hbase, if_neg fun h => hbase h.1]
      rfl

/-- Behind the slots of an array an iterator reads nothing. -/
theorem read?_after_of_slot?_eq_none {k : Nat} (h : memory.slot? address k = none) :
    memory.read? (address.after k) = none := by
  by_cases hk : k < address.reach
  · rw [read?_after_of_lt hk, h]
  · rw [Address.after_of_reach_le (Nat.not_lt.mp hk)]
    rfl

theorem length_of_resolve? (h : memory.resolve? address length = some elements) :
    elements.length = length :=
  (resolve?_eq_some_iff.mp h).1

/-- An iterator comes to all slots of an array on a heap with addresses for its slots. -/
theorem le_reach (hheap : memory.heap.base + memory.heap.capacity ≤ maxOffset + 1)
    (h : memory.resolve? address length = some elements) (hinside : ¬address.Overruns length) :
    length ≤ address.reach := by
  obtain ⟨rfl, hslots⟩ := resolve?_eq_some_iff.mp h
  cases address with
  | null =>
    cases elements with
    | nil => exact Nat.zero_le _
    | cons element rest => cases hslots 0 (Nat.succ_pos _)
  | constant start => exact Nat.not_lt.mp fun hlt => hinside ⟨start, rfl, hlt⟩
  | «mutable» start =>
    by_cases hempty : elements.length = 0
    · rw [hempty]
      exact Nat.zero_le _
    · have hlast := hslots (elements.length - 1) (by omega)
      rw [List.getElem?_eq_getElem (by omega), slot?, Option.ite_none_right_eq_some] at hlast
      have hlt : start.toNat + (elements.length - 1) - memory.heap.base < memory.heap.capacity :=
        (Array.getElem?_eq_some_iff.mp hlast.2).1
      have hbase := hlast.1
      simp only [Address.reach, Address.offset]
      omega

/-- An iterator comes to all slots of an array of constants, if there are no more than slot numbers. -/
theorem not_overruns (hconstants : memory.constants.size ≤ maxOffset + 1)
    (h : memory.resolve? address length = some elements) : ¬address.Overruns length := by
  rintro ⟨start, rfl, hpast⟩
  have hpos : length ≠ 0 := Nat.ne_of_gt (Nat.zero_lt_of_lt hpast)
  simp only [resolve?, if_neg hpos, Option.ite_none_right_eq_some] at h
  have hle := h.1
  simp only [Address.reach, Address.offset] at hpast
  omega

/-- The addresses that an iterator comes to hold the elements of the array. -/
theorem read?_after (h : memory.resolve? address length = some elements) {k : Nat} (hk : k < length)
    (hreach : k < address.reach) : memory.read? (address.after k) = elements[k]? :=
  (read?_after_of_lt hreach).trans ((resolve?_eq_some_iff.mp h).2 k hk)

/-- The first elements of an array are those of a shorter one. -/
theorem resolve?_take (h : memory.resolve? address length = some elements) {count : Nat}
    (hcount : count ≤ length) : memory.resolve? address count = some (elements.take count) := by
  obtain ⟨rfl, hslots⟩ := resolve?_eq_some_iff.mp h
  refine resolve?_eq_some_iff.mpr ⟨List.length_take_of_le hcount, fun k hk => ?_⟩
  rw [hslots k (by omega), List.getElem?_take_of_lt hk]

/-- An array with a slot that is not there does not resolve. -/
theorem resolve?_eq_none_of_slot? {k : Nat} (hk : k < length) (h : memory.slot? address k = none) :
    memory.resolve? address length = none := by
  refine Option.eq_none_iff_forall_ne_some.mpr fun elements helements => ?_
  obtain ⟨rfl, hslots⟩ := resolve?_eq_some_iff.mp helements
  rw [hslots k hk, List.getElem?_eq_none_iff] at h
  omega

/-- An array that does not resolve has a first slot that is not there, and resolves up to it. -/
theorem exists_missing_of_resolve?_eq_none (h : memory.resolve? address length = none) :
    ∃ found, found.length < length ∧ memory.resolve? address found.length = some found ∧
      memory.slot? address found.length = none := by
  induction length with
  | zero => exact absurd h (by simp [resolve?])
  | succ length ih =>
    cases hshorter : memory.resolve? address length with
    | none =>
      obtain ⟨found, hlt, hfound, hmissing⟩ := ih hshorter
      exact ⟨found, Nat.lt_succ_of_lt hlt, hfound, hmissing⟩
    | some found =>
      obtain ⟨rfl, hslots⟩ := resolve?_eq_some_iff.mp hshorter
      refine ⟨found, Nat.lt_succ_self _, hshorter, Option.eq_none_iff_forall_ne_some.mpr fun value hvalue => ?_⟩
      have hlonger : memory.resolve? address (found.length + 1) = some (found ++ [value]) := by
        refine resolve?_eq_some_iff.mpr ⟨by simp, fun k hk => ?_⟩
        obtain hk | rfl := Nat.lt_succ_iff_lt_or_eq.mp hk
        · rw [List.getElem?_append_left hk, hslots k hk]
        · rw [List.getElem?_concat_length, hvalue]
      rw [h] at hlonger
      cases hlonger

end Memory

end ScriptMachine
