import Mathlib
import ScriptMachine.Proofs.ConstantPool
import ScriptMachine.Proofs.Expression
import ScriptMachine.Proofs.Slots

/-!
# Text literals

A text literal becomes an array constant over its characters, and equal texts share it. That constant
is the first one that reads as the text, and it stays so while further constants are added: an array
constant points only at constants before it, so nothing that comes later changes what it reads as.
-/

namespace ScriptMachine

theorem mapM_char?_eq_some {values : List Value} {chars : List Char} :
    values.mapM Value.char? = some chars ↔ values = chars.map .char := by
  induction values generalizing chars with
  | nil => cases chars <;> simp
  | cons first rest ih =>
    cases chars with
    | nil => cases first <;> simp [Value.char?, Option.bind_eq_some_iff]
    | cons c chars =>
      cases first <;> simp [Value.char?, Option.bind_eq_some_iff]
      rw [ih]
      exact and_comm

theorem map_packed_eq_iff {values : List Value} {chars : List Char} :
    values.map Value.packed = (chars.map Value.char).map Value.packed ↔ values = chars.map .char := by
  refine ⟨fun h => ?_, fun h => by rw [h]⟩
  induction values generalizing chars with
  | nil => cases chars <;> simp_all
  | cons first rest ih =>
    cases chars with
    | nil => cases h
    | cons c chars =>
      simp only [List.map_cons, List.cons.injEq] at h ⊢
      exact ⟨Value.eq_of_packed_eq rfl h.1, ih h.2⟩

namespace ConstantPool

variable {pool pool' final : ConstantPool} {v : Value} {index : Nat} {text : String}
  {elements : List Value}

/-! ### What an array constant reads as -/

/-- Memory finds the run of an array where the pool does, whatever is on the heap. -/
theorem resolve?_of_run? (heap : Heap) {address : Address} {length : Nat} {run : List Value}
    (h : pool.run? address length = some run) :
    Memory.resolve? ⟨pool.values, heap⟩ address length = some run := by
  cases address with
  | null =>
    rw [run?] at h
    split at h
    · rename_i hzero
      rw [Memory.resolve?, if_pos hzero]
      exact h
    · cases h
  | «mutable» offset => cases h
  | constant start =>
    rw [run?] at h
    rw [Memory.resolve?]
    split at h
    · rename_i hstop
      by_cases hzero : length = 0
      · subst hzero
        cases h
        simp [Slots.slice]
      · rw [if_neg hzero]
        exact (if_pos hstop).trans h
    · cases h

/-- The value is an array over a run of constants with these packed words. -/
theorem describes_eq_true :
    pool.describes elements v = true ↔ ∃ address length run, v = .array address length ∧
      length.toNat = elements.length ∧ pool.run? address elements.length = some run ∧
      run.map Value.packed = elements.map Value.packed := by
  cases v with
  | array address length =>
    simp only [describes, Bool.and_eq_true, beq_iff_eq, Value.array.injEq]
    cases hrun : pool.run? address elements.length with
    | none =>
      constructor
      · rintro ⟨-, ⟨⟩⟩
      · rintro ⟨_, _, _, ⟨rfl, rfl⟩, -, hsome, -⟩
        cases hrun.symm.trans hsome
    | some run =>
      constructor
      · rintro ⟨hlength, hsame⟩
        exact ⟨address, length, run, ⟨rfl, rfl⟩, hlength, hrun, eq_of_beq hsame⟩
      · rintro ⟨_, _, _, ⟨rfl, rfl⟩, hlength, hsome, hsame⟩
        cases hrun.symm.trans hsome
        exact ⟨hlength, beq_iff_eq.mpr hsame⟩
  | _ => simp [describes]

/-- A value that describes the characters of a text reads as the text. -/
theorem text?_of_describes (heap : Heap) (h : pool.describes (text.toList.map .char) v = true) :
    Memory.text? ⟨pool.values, heap⟩ v = some text := by
  obtain ⟨address, length, run, rfl, hlength, hrun, hsame⟩ := describes_eq_true.mp h
  rw [Memory.text?, hlength, resolve?_of_run? heap hrun, map_packed_eq_iff.mp hsame, Option.bind_some,
    mapM_char?_eq_some.mpr rfl, Option.map_some, String.ofList_toList]

/-- What an array constant points at is in the pool. -/
theorem exists_run? {address : Address} {length : UInt32}
    (h : (Value.array address length).SettledAt index) (hindex : index ≤ pool.size) :
    ∃ run, pool.run? address length.toNat = some run ∧ run.length = length.toNat := by
  rcases h with ⟨rfl, rfl⟩ | ⟨start, rfl, hend⟩
  · exact ⟨[], rfl, rfl⟩
  · have hsize : start.toNat + length.toNat ≤ pool.size := hend.trans hindex
    refine ⟨_, if_pos hsize, ?_⟩
    rw [Slots.length_slice hsize, Nat.add_sub_cancel_left]

/-- A constant describes the characters of a text exactly when it reads as the text. -/
theorem describes_iff (heap : Heap) (h : v.SettledAt index) (hindex : index ≤ pool.size) :
    pool.describes (text.toList.map .char) v = true ↔ Memory.text? ⟨pool.values, heap⟩ v = some text := by
  refine ⟨text?_of_describes heap, fun htext => ?_⟩
  cases v with
  | array address length =>
    obtain ⟨run, hrun, hlength⟩ := exists_run? h hindex
    rw [Memory.text?, resolve?_of_run? heap hrun, Option.bind_some, Option.map_eq_some_iff] at htext
    obtain ⟨chars, hchars, rfl⟩ := htext
    have hrun' := mapM_char?_eq_some.mp hchars
    rw [String.toList_ofList, ← hrun']
    exact describes_eq_true.mpr ⟨address, length, run, rfl, hlength.symm, hlength ▸ hrun, rfl⟩
  | _ => cases htext

/-! ### Constants that are added later -/

theorem read_of_grows (h : pool.Grows final) {k : Nat} (hk : k < pool.size) :
    Slots.read final.values k = Slots.read pool.values k := by
  have hget := h.get? (Slots.getElem?_eq_read hk)
  exact Slots.read_of_getElem? hget

theorem slice_of_grows (h : pool.Grows final) {start stop : Nat} (hstop : stop ≤ pool.size) :
    Slots.slice final.values start stop = Slots.slice pool.values start stop := by
  have hsize := h.size_le
  have hpool : pool.values.size = pool.size := rfl
  have hfinal : final.values.size = final.size := rfl
  refine List.ext_getElem? fun k => ?_
  rw [Slots.getElem?_slice, Slots.getElem?_slice]
  by_cases hk : start + k < stop
  · rw [if_pos ⟨hk, by omega⟩, if_pos ⟨hk, by omega⟩, read_of_grows h (by omega)]
  · rw [if_neg fun hboth => hk hboth.1, if_neg fun hboth => hk hboth.1]

theorem run?_of_grows (h : pool.Grows final) {address : Address} {length : Nat} {run : List Value}
    (hrun : pool.run? address length = some run) : final.run? address length = some run := by
  cases address with
  | null => exact hrun
  | «mutable» offset => cases hrun
  | constant start =>
    rw [run?] at hrun ⊢
    split at hrun
    · rename_i hstop
      rw [if_pos (hstop.trans h.size_le), slice_of_grows h hstop]
      exact hrun
    · cases hrun

theorem describes_of_grows (h : pool.Grows final) (hdescribes : pool.describes elements v = true) :
    final.describes elements v = true := by
  obtain ⟨address, length, run, hv, hlength, hrun, hsame⟩ := describes_eq_true.mp hdescribes
  exact describes_eq_true.mpr ⟨address, length, run, hv, hlength, run?_of_grows h hrun, hsame⟩

/-- Constants that are added later do not change what an array constant reads as. -/
theorem text?_of_grows (heap : Heap) (hgrows : pool.Grows final) (h : v.SettledAt index)
    (hindex : index ≤ pool.size) :
    Memory.text? ⟨final.values, heap⟩ v = Memory.text? ⟨pool.values, heap⟩ v := by
  cases v with
  | array address length =>
    obtain ⟨run, hrun, -⟩ := exists_run? h hindex
    rw [Memory.text?, Memory.text?, resolve?_of_run? heap hrun,
      resolve?_of_run? heap (run?_of_grows hgrows hrun)]
  | _ => rfl

theorem Sound.of_grows (h : final.Sound) (hgrows : pool.Grows final) : pool.Sound where
  size_le := hgrows.size_le.trans h.size_le
  settled hget := h.settled (hgrows.get? hget)

/-- The array that is added behind a run of constants describes it. -/
theorem describes_runValue {added : Value}
    (hvalues : final.values.toList = pool.values.toList ++ elements ++ [added])
    (hsize : pool.size ≤ maxOffset + 1) (hlength : elements.length ≤ maxArrayLength) :
    final.describes elements (runValue pool.size elements.length) = true := by
  have hmax : maxOffset = 0x3fffffff := rfl
  have hmost : maxArrayLength = 0xffffff := rfl
  have hcount : (UInt32.ofNat elements.length).toNat = elements.length := by
    rw [UInt32.toNat_ofNat', Nat.mod_eq_of_lt (by omega)]
  refine describes_eq_true.mpr ⟨_, _, elements, rfl, hcount, ?_, rfl⟩
  by_cases hzero : elements.length = 0
  · rw [if_pos hzero, run?, if_pos hzero, List.length_eq_zero_iff.mp hzero]
  · have hstart : (UInt32.ofNat pool.size).toNat = pool.size := by
      rw [UInt32.toNat_ofNat', Nat.mod_eq_of_lt (by omega)]
    have htotal : final.size = pool.size + elements.length + 1 := by
      rw [size, ← Array.length_toList, hvalues]
      simp [size, Nat.add_assoc]
    have hslice : Slots.slice final.values pool.size (pool.size + elements.length) = elements := by
      have hpool : pool.values.toList.length = pool.size := rfl
      rw [Slots.slice, Array.toList_extract, hvalues]
      simp [List.extract, ← hpool]
    rw [if_neg hzero, run?, hstart, hslice, if_pos (by omega)]

theorem get?_of_grows (h : pool.Grows final) {k : Nat} (hk : k < pool.size)
    (hget : final.get? k = some v) : pool.get? k = some v := by
  rw [ConstantPool.get?, Slots.getElem?_eq_read hk, ← read_of_grows h hk, Slots.read_of_getElem? hget]

theorem find?_of_first {p : Value → Bool} (hget : pool.get? index = some v) (hv : p v = true)
    (hbefore : ∀ k w, k < index → pool.get? k = some w → p w = false) :
    pool.values.find? p = some v := by
  obtain ⟨hlt, hindex⟩ := Array.getElem?_eq_some_iff.mp hget
  refine Array.find?_eq_some_iff_getElem.mpr ⟨hv, index, hlt, hindex, fun k hk => ?_⟩
  rw [hbefore k _ hk (Array.getElem?_eq_getElem (hk.trans hlt))]
  rfl

/-! ### The first constant of a text -/

/-- When a text is inserted, no constant before its own reads as the text. -/
theorem insertText?_first (heap : Heap) (h : pool.insertText? text = some (index, pool'))
    (hsound : pool'.Sound) :
    (∃ v, pool'.get? index = some v ∧ Memory.text? ⟨pool'.values, heap⟩ v = some text) ∧
      ∀ k w, k < index → pool'.get? k = some w → Memory.text? ⟨pool'.values, heap⟩ w ≠ some text := by
  obtain ⟨rfl, ⟨v, hget, hdescribes⟩, hfirst⟩ | ⟨hnone, hlength, filled, hfilled, hpush⟩ :=
    insertArray?_cases h
  · have hreads {k : Nat} {w : Value} (hk : pool'.get? k = some w) :
        pool'.describes (text.toList.map .char) w = true ↔
          Memory.text? ⟨pool'.values, heap⟩ w = some text :=
      describes_iff heap (hsound.settled hk) (lt_size_of_get? hk).le
    refine ⟨⟨v, hget, (hreads hget).mp hdescribes⟩, fun k w hk hw htext => ?_⟩
    have hnot := hfirst k w hk hw
    rw [(hreads hw).mpr htext] at hnot
    cases hnot
  · obtain ⟨rfl, hroom, hvalues⟩ := push?_ok hpush
    have hlist := (pushAll?_ok hfilled).1
    have hsize : filled.size = pool.size + text.toList.length := by
      simpa [size] using congrArg List.length hlist
    have hgrows : pool.Grows pool' := (insertArray?_ok h).1
    have hall : pool'.values.toList = pool.values.toList ++ text.toList.map .char
        ++ [runValue pool.size (text.toList.map Value.char).length] := by
      rw [hvalues, Array.toList_push, hlist]
    have hpool := hsound.of_grows hgrows
    refine ⟨⟨_, get?_of_push hvalues, ?_⟩, fun k w hk hw htext => ?_⟩
    · exact text?_of_describes heap (describes_runValue hall hpool.size_le hlength)
    · rcases Nat.lt_or_ge k pool.size with hlt | hge
      · have hw' := get?_of_grows hgrows hlt hw
        have hsettled := hpool.settled hw'
        rw [text?_of_grows heap hgrows hsettled hlt.le] at htext
        have hnot := hnone k w hw'
        rw [(describes_iff heap hsettled hlt.le).mpr htext] at hnot
        cases hnot
      · -- What was added in front of the array are the characters themselves.
        have hlt : k - pool.values.toList.length < (text.toList.map Value.char).length := by
          rw [List.length_map, Array.length_toList]
          exact Nat.sub_lt_left_of_lt_add hge (hsize ▸ hk)
        rw [ConstantPool.get?, ← Array.getElem?_toList, hall, List.append_assoc,
          List.getElem?_append_right hge, List.getElem?_append_left hlt] at hw
        obtain ⟨c, -, rfl⟩ := List.mem_map.mp (List.mem_of_getElem? hw)
        cases htext

/-- An inserted text is the first constant that reads as the text. -/
theorem find?_insertText? (heap : Heap) (h : pool.insertText? text = some (index, pool'))
    (hgrows : pool'.Grows final) (hsound : final.Sound) :
    ∃ v, final.get? index = some v ∧
      final.values.find? (fun v => Memory.text? ⟨final.values, heap⟩ v == some text) = some v := by
  have hsound' := hsound.of_grows hgrows
  have hsame {k : Nat} {w : Value} (hk : pool'.get? k = some w) :=
    text?_of_grows heap hgrows (hsound'.settled hk) (lt_size_of_get? hk).le
  obtain ⟨⟨v, hget, htext⟩, hbefore⟩ := insertText?_first heap h hsound'
  refine ⟨v, hgrows.get? hget, find?_of_first (hgrows.get? hget) ?_ fun k w hk hw => ?_⟩
  · rw [hsame hget, htext, beq_self_eq_true]
  · have hw' := get?_of_grows hgrows (hk.trans (lt_size_of_get? hget)) hw
    rw [hsame hw']
    exact beq_false_of_ne (hbefore k w hk hw')

end ConstantPool

end ScriptMachine
