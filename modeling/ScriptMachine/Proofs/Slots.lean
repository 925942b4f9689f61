import Mathlib
import ScriptMachine.Slots

/-!
# Rows of slots

What a slot holds after each operation on a row. A statement about all slots of a row speaks of
reading, which gives nothing outside the row, so no operation has to say where the row ends.
-/

namespace ScriptMachine.Slots

variable {slots : Slots} {start count index : Nat} {value : Value} {values : List Value}

@[simp] theorem size_empty (count : Nat) : (empty count).size = count := by
  simp [empty]

theorem read_empty (count index : Nat) : read (empty count) index = .nothing := by
  rw [read, empty, Array.getD_eq_getD_getElem?, Array.getElem?_replicate]
  split <;> rfl

theorem read_of_size_le (h : slots.size ≤ index) : read slots index = .nothing := by
  rw [read, Array.getD_eq_getD_getElem?, Array.getElem?_eq_none h]
  rfl

theorem getElem?_eq_read (h : index < slots.size) : slots[index]? = some (read slots index) := by
  rw [read, Array.getD_eq_getD_getElem?, Array.getElem?_eq_getElem h]
  rfl

theorem read_of_getElem? (h : slots[index]? = some value) : read slots index = value := by
  rw [read, Array.getD_eq_getD_getElem?, h]
  rfl

theorem read_set (slots : Slots) (i : Nat) (value : Value) (index : Nat) :
    read (slots.setIfInBounds i value) index
      = if index = i ∧ index < slots.size then value else read slots index := by
  rw [read, read, Array.getD_eq_getD_getElem?, Array.getD_eq_getD_getElem?,
    Array.getElem?_setIfInBounds]
  rcases eq_or_ne i index with rfl | hne
  · rcases Nat.lt_or_ge i slots.size with hlt | hge
    · simp [hlt]
    · simp [Nat.not_lt.mpr hge]
  · simp [hne, hne.symm]

@[simp] theorem size_write (values : List Value) (slots : Slots) (start : Nat) :
    (write slots start values).size = slots.size := by
  induction values generalizing slots start with
  | nil => rfl
  | cons value rest ih => rw [write, ih, Array.size_setIfInBounds]

theorem read_write (values : List Value) (slots : Slots) (start index : Nat) :
    read (write slots start values) index
      = if start ≤ index ∧ index < start + values.length ∧ index < slots.size then
          values.getD (index - start) .nothing
        else read slots index := by
  induction values generalizing slots start with
  | nil =>
    rw [write, if_neg]
    simp only [List.length_nil]
    omega
  | cons value rest ih =>
    rw [write, ih, read_set, Array.size_setIfInBounds]
    rcases Nat.lt_trichotomy index start with hlt | rfl | hgt
    · rw [if_neg (by omega), if_neg (by omega), if_neg (by omega)]
    · simp
    · obtain ⟨k, rfl⟩ := Nat.exists_eq_add_of_lt hgt
      rw [show start + k + 1 - start = k + 1 by omega, show start + k + 1 - (start + 1) = k by omega,
        List.getD_cons_succ, List.length_cons, if_neg (c := start + k + 1 = start ∧ _) (by omega)]
      congr 1
      simp only [eq_iff_iff]
      omega

@[simp] theorem size_clear (count : Nat) (slots : Slots) (start : Nat) :
    (clear slots start count).size = slots.size := by
  induction count generalizing slots start with
  | zero => rfl
  | succ count ih => rw [clear, ih, Array.size_setIfInBounds]

theorem read_clear (count : Nat) (slots : Slots) (start index : Nat) :
    read (clear slots start count) index
      = if start ≤ index ∧ index < start + count then .nothing else read slots index := by
  induction count generalizing slots start with
  | zero =>
    rw [clear, if_neg (by omega)]
  | succ count ih =>
    rw [clear, ih, read_set]
    rcases Nat.lt_or_ge index slots.size with hlt | hge
    · split_ifs <;> first | rfl | omega
    · rw [read_of_size_le hge]
      split_ifs <;> rfl

theorem read_shiftUp (count : Nat) (slots : Slots) (start index : Nat) :
    read (shiftUp slots start count) index
      = if start < index ∧ index ≤ start + count ∧ index < slots.size then read slots (index - 1)
        else read slots index := by
  induction count generalizing slots with
  | zero => rw [shiftUp, if_neg (by omega)]
  | succ count ih =>
    rw [shiftUp, ih, read_set, read_set, Array.size_setIfInBounds]
    rcases Nat.lt_trichotomy index (start + count + 1) with hlt | rfl | hgt
    · rw [if_neg (c := index - 1 = start + count + 1 ∧ _) (by omega),
        if_neg (c := index = start + count + 1 ∧ _) (by omega)]
      congr 1
      simp only [eq_iff_iff]
      omega
    · rw [if_neg (by omega), Nat.add_sub_cancel]
      simp
    · rw [if_neg (by omega), if_neg (by omega), if_neg (by omega)]

theorem length_slice (h : index ≤ slots.size) : (slice slots start index).length = index - start := by
  rw [slice, Array.length_toList, Array.size_extract, Nat.min_eq_left h]

theorem getElem?_slice (slots : Slots) (start stop k : Nat) :
    (slice slots start stop)[k]?
      = if start + k < stop ∧ start + k < slots.size then some (read slots (start + k)) else none := by
  rw [slice, Array.getElem?_toList, Array.getElem?_extract]
  rcases Nat.lt_or_ge (start + k) slots.size with hlt | hge
  · rw [getElem?_eq_read hlt]
    congr 1
    simp only [eq_iff_iff]
    omega
  · rw [if_neg (by omega), if_neg (by omega)]

/-- A slot behind a slice is no part of it. -/
theorem slice_set (slots : Slots) (value : Value) {stop : Nat} (h : stop ≤ index) :
    slice (slots.setIfInBounds index value) start stop = slice slots start stop := by
  refine List.ext_getElem? fun k => ?_
  rw [getElem?_slice, getElem?_slice, Array.size_setIfInBounds, read_set]
  by_cases hk : start + k < stop
  · rw [if_neg (show ¬ (start + k = index ∧ start + k < slots.size) by omega)]
  · rw [if_neg fun hboth => hk hboth.1, if_neg fun hboth => hk hboth.1]

theorem exists_of_mem_slice {stop : Nat} (h : value ∈ slice slots start stop) :
    ∃ k, start ≤ k ∧ k < stop ∧ k < slots.size ∧ value = read slots k := by
  obtain ⟨k, hk⟩ := List.getElem?_of_mem h
  rw [getElem?_slice] at hk
  split at hk
  · rename_i hlt
    cases hk
    exact ⟨start + k, by omega, hlt.1, hlt.2, rfl⟩
  · cases hk

/-- Values that were written are read back. -/
theorem slice_write (h : start + values.length ≤ slots.size) :
    slice (write slots start values) start (start + values.length) = values := by
  apply List.ext_getElem?
  intro k
  rw [getElem?_slice, size_write, read_write, Nat.add_sub_cancel_left]
  rcases Nat.lt_or_ge k values.length with hlt | hge
  · rw [if_pos (by omega), if_pos (by omega), List.getD_eq_getElem _ _ hlt, List.getElem?_eq_getElem hlt]
  · rw [if_neg (by omega), List.getElem?_eq_none hge]

/-- Everything that can be read from a row. -/
def All (P : Value → Prop) (slots : Slots) : Prop :=
  ∀ index, P (read slots index)

variable {P : Value → Prop}

theorem all_empty (hnothing : P .nothing) (count : Nat) : All P (empty count) := by
  intro index
  rw [read_empty]
  exact hnothing

theorem All.set (h : All P slots) (i : Nat) (hvalue : P value) : All P (slots.setIfInBounds i value) := by
  intro index
  rw [read_set]
  split
  · exact hvalue
  · exact h index

theorem All.write (h : All P slots) (start : Nat) (hvalues : ∀ v ∈ values, P v) :
    All P (write slots start values) := by
  induction values generalizing slots start with
  | nil => exact h
  | cons value rest ih =>
    exact ih (h.set start (hvalues value (by simp))) (start + 1) fun v hv => hvalues v (by simp [hv])

theorem All.clear (h : All P slots) (hnothing : P .nothing) (start count : Nat) :
    All P (clear slots start count) := by
  intro index
  rw [read_clear]
  split
  · exact hnothing
  · exact h index

theorem All.shiftUp (h : All P slots) (start count : Nat) : All P (shiftUp slots start count) := by
  intro index
  rw [read_shiftUp]
  split
  · exact h (index - 1)
  · exact h index

theorem All.slice (h : All P slots) {stop : Nat} (hvalue : value ∈ slice slots start stop) : P value := by
  obtain ⟨k, -, -, -, rfl⟩ := exists_of_mem_slice hvalue
  exact h k

end ScriptMachine.Slots
