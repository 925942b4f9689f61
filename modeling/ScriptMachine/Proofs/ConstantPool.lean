import Mathlib
import ScriptMachine.ConstantPool

/-!
# What a constant pool holds

The pool only grows, so an index that was handed out keeps its value. Every array in a sound pool
points at a run of constants that was complete before the array was added, and no constant is a call
frame or an iterator; the ways in which a compilation adds constants keep the pool sound.
-/

namespace ScriptMachine

namespace Value

theorem payload_lt (v : Value) : v.payload < 0x1000000000000000 := by
  cases v with
  | nothing => decide
  | number x =>
    have := x.bits.toNat_lt
    simp only [payload]
    omega
  | bool b => cases b <;> decide
  | char c =>
    have := c.toNat_val ▸ c.val.toNat_lt
    simp only [payload]
    omega
  | array address length =>
    have := address.toWord.toNat_lt
    simp only [payload]
    omega
  | frame f =>
    have := f.arguments.toNat_lt
    have := f.locals.toNat_lt
    have := f.returnTo.toUInt32.toNat_lt
    simp only [payload]
    omega
  | iterator current remaining =>
    have := current.toWord.toNat_lt
    simp only [payload]
    omega

/-- The type and the payload do not run into each other. -/
theorem packed_eq_iff {v w : Value} :
    v.packed = w.packed ↔ v.typeId = w.typeId ∧ v.payload = w.payload := by
  have hv := v.payload_lt
  have hw := w.payload_lt
  have htype (u : Value) : u.typeId ≤ 7 := by cases u <;> simp [typeId]
  have hvt := htype v
  have hwt := htype w
  constructor
  · intro h
    have hnat := congrArg UInt64.toNat h
    simp only [packed, UInt64.toNat_ofNat'] at hnat
    omega
  · rintro ⟨ht, hp⟩
    rw [packed, packed, ht, hp]

/-- A value that has all of its meaning in the packed word. -/
def isScalar : Value → Bool
  | .number _ | .bool _ | .char _ => true
  | _ => false

theorem eq_of_packed_eq {v w : Value} (hw : w.isScalar = true) (h : v.packed = w.packed) : v = w := by
  obtain ⟨htype, hpayload⟩ := packed_eq_iff.mp h
  cases w with
  | number x =>
    cases v <;> simp [typeId] at htype
    simp only [payload] at hpayload
    rename_i y
    cases y
    cases x
    simp only [number.injEq, Number.mk.injEq]
    exact UInt32.toNat_inj.mp hpayload
  | bool b =>
    cases v <;> simp [typeId] at htype
    rename_i a
    cases a <;> cases b <;> simp [payload] at hpayload ⊢
  | char c =>
    cases v <;> simp [typeId] at htype
    simp only [payload] at hpayload
    exact congrArg char (Char.toNat_inj.mp hpayload)
  | nothing | array _ _ | frame _ | iterator _ _ => cases hw

/-- A constant that may stand at an index: a scalar, or an array over constants below that index. -/
def SettledAt (index : Nat) : Value → Prop
  | .array address length =>
    address = .null ∧ length = 0 ∨
      ∃ start, address = .constant start ∧ start.toNat + length.toNat ≤ index
  | value => value.isScalar = true

theorem settledAt_of_isScalar {v : Value} (h : v.isScalar = true) (index : Nat) : v.SettledAt index := by
  cases v <;> first | exact h | cases h

theorem not_isFrame_of_settledAt {v : Value} {index : Nat} (h : v.SettledAt index) :
    v.isFrame = false := by
  cases v <;> first | rfl | cases h

end Value

namespace ConstantPool

def Grows (pool pool' : ConstantPool) : Prop :=
  pool.values.toList <+: pool'.values.toList

theorem Grows.refl (pool : ConstantPool) : pool.Grows pool :=
  List.prefix_rfl

theorem Grows.trans {p q r : ConstantPool} (hpq : p.Grows q) (hqr : q.Grows r) : p.Grows r :=
  List.IsPrefix.trans hpq hqr

theorem Grows.size_le {p q : ConstantPool} (h : p.Grows q) : p.size ≤ q.size := by
  simpa [size] using h.length_le

theorem Grows.get? {p q : ConstantPool} (h : p.Grows q) {index : Nat} {v : Value}
    (hget : p.get? index = some v) : q.get? index = some v := by
  obtain ⟨added, hadded⟩ := h
  rw [ConstantPool.get?, ← Array.getElem?_toList] at hget ⊢
  obtain ⟨hlt, -⟩ := List.getElem?_eq_some_iff.mp hget
  rw [← hadded, List.getElem?_append_left hlt]
  exact hget

theorem lt_size_of_get? {pool : ConstantPool} {index : Nat} {v : Value}
    (h : pool.get? index = some v) : index < pool.size :=
  (Array.getElem?_eq_some_iff.mp h).1

/-- No constant is out of reach, and every array points at constants that came before it. -/
structure Sound (pool : ConstantPool) : Prop where
  size_le : pool.size ≤ maxOffset + 1
  settled : ∀ {index : Nat} {v : Value}, pool.get? index = some v → v.SettledAt index

theorem sound_empty : empty.Sound where
  size_le := by decide
  settled h := by simp [empty, ConstantPool.get?] at h

theorem push?_ok {pool pool' : ConstantPool} {value : Value} {index : Nat}
    (h : pool.push? value = some (index, pool')) :
    index = pool.size ∧ pool.size ≤ maxOffset ∧ pool'.values = pool.values.push value := by
  unfold push? at h
  split at h
  · rename_i hroom
    cases h
    exact ⟨rfl, hroom, rfl⟩
  · cases h

theorem grows_of_push {pool pool' : ConstantPool} {value : Value}
    (h : pool'.values = pool.values.push value) : pool.Grows pool' := by
  rw [Grows, h, Array.toList_push]
  exact List.prefix_append _ _

theorem get?_of_push {pool pool' : ConstantPool} {value : Value}
    (h : pool'.values = pool.values.push value) : pool'.get? pool.size = some value := by
  simp [ConstantPool.get?, h, size]

theorem Sound.push {pool pool' : ConstantPool} {value : Value} (hsound : pool.Sound)
    (hroom : pool.size ≤ maxOffset) (hvalue : value.SettledAt pool.size)
    (h : pool'.values = pool.values.push value) : pool'.Sound where
  size_le := by
    rw [size, h, Array.size_push]
    exact Nat.succ_le_succ hroom
  settled := by
    intro index v hget
    rw [ConstantPool.get?, h, Array.getElem?_push] at hget
    split at hget
    · rename_i hlast
      cases hget
      rw [hlast]
      exact hvalue
    · exact hsound.settled hget

/-- The index that an insertion returns holds a value with the same packed word. -/
theorem insert?_ok {pool pool' : ConstantPool} {value : Value} {index : Nat}
    (h : pool.insert? value = some (index, pool')) :
    pool.Grows pool' ∧ (∃ v, pool'.get? index = some v ∧ v.packed = value.packed) ∧
      (pool.Sound → value.isScalar = true → pool'.Sound) := by
  unfold insert? at h
  split at h
  · rename_i hfound
    cases h
    obtain ⟨hlt, hsame, -⟩ := Array.findIdx?_eq_some_iff_getElem.mp hfound
    refine ⟨.refl pool, ⟨pool.values[index], Array.getElem?_eq_getElem hlt, ?_⟩, fun hs _ => hs⟩
    exact eq_of_beq hsame
  · obtain ⟨rfl, hroom, hvalues⟩ := push?_ok h
    refine ⟨grows_of_push hvalues, ⟨value, get?_of_push hvalues, rfl⟩, fun hsound hscalar => ?_⟩
    exact hsound.push hroom (Value.settledAt_of_isScalar hscalar _) hvalues

/-- A scalar is found again as it was inserted. -/
theorem get?_insert? {pool pool' : ConstantPool} {value : Value} {index : Nat}
    (hscalar : value.isScalar = true) (h : pool.insert? value = some (index, pool')) :
    pool'.get? index = some value := by
  obtain ⟨-, ⟨v, hget, hpacked⟩, -⟩ := insert?_ok h
  rw [hget, Value.eq_of_packed_eq hscalar hpacked]

theorem pushAll?_ok {pool pool' : ConstantPool} {values : List Value}
    (h : pool.pushAll? values = some pool') :
    pool'.values.toList = pool.values.toList ++ values ∧
      (pool.Sound → (∀ v ∈ values, v.isScalar = true) → pool'.Sound) := by
  induction values generalizing pool with
  | nil =>
    cases h
    exact ⟨by simp, fun hs _ => hs⟩
  | cons value rest ih =>
    rw [pushAll?] at h
    split at h
    · cases h
    · rename_i index next hpush
      obtain ⟨rfl, hroom, hvalues⟩ := push?_ok hpush
      obtain ⟨hlist, hkeep⟩ := ih h
      refine ⟨by simp [hlist, hvalues], fun hsound hall => ?_⟩
      have hvalue := Value.settledAt_of_isScalar (hall value (by simp)) pool.size
      exact hkeep (hsound.push hroom hvalue hvalues) fun v hv => hall v (by simp [hv])

/-- The array value over a run of `count` constants that starts at `start`. -/
def runValue (start count : Nat) : Value :=
  .array (if count = 0 then .null else .constant (.ofNat start)) (.ofNat count)

/-- Inserting an array either finds the first one over the same run or, if there is none, adds the run
and the array behind it. -/
theorem insertArray?_cases {pool pool' : ConstantPool} {elements : List Value} {index : Nat}
    (h : pool.insertArray? elements = some (index, pool')) :
    (pool' = pool ∧ (∃ v, pool.get? index = some v ∧ pool.describes elements v = true) ∧
      ∀ k v, k < index → pool.get? k = some v → pool.describes elements v = false) ∨
    ((∀ k v, pool.get? k = some v → pool.describes elements v = false) ∧
      elements.length ≤ maxArrayLength ∧ ∃ filled, pool.pushAll? elements = some filled ∧
        filled.push? (runValue pool.size elements.length) = some (index, pool')) := by
  unfold insertArray? at h
  split at h
  · cases h
  · rename_i hlength
    split at h
    · rename_i hfound
      cases h
      obtain ⟨hlt, hdescribes, hfirst⟩ := Array.findIdx?_eq_some_iff_getElem.mp hfound
      refine .inl ⟨rfl, ⟨pool.values[index], Array.getElem?_eq_getElem hlt, hdescribes⟩, ?_⟩
      intro k v hk hget
      obtain ⟨_, rfl⟩ := Array.getElem?_eq_some_iff.mp hget
      exact Bool.eq_false_iff.mpr (hfirst k hk)
    · rename_i hnone
      split at h
      · cases h
      · rename_i filled hfilled
        refine .inr ⟨fun k v hget => ?_, Nat.not_lt.mp hlength, filled, hfilled, ?_⟩
        · exact Array.findIdx?_eq_none_iff.mp hnone v (Array.mem_of_getElem? hget)
        · simpa [runValue] using h

theorem settledAt_runValue {start count index : Nat} (hindex : start + count ≤ index) :
    (runValue start count).SettledAt index := by
  by_cases hzero : count = 0
  · exact .inl ⟨if_pos hzero, by rw [hzero]; rfl⟩
  · refine .inr ⟨.ofNat start, if_neg hzero, ?_⟩
    have hstart : (UInt32.ofNat start).toNat ≤ start := by
      rw [UInt32.toNat_ofNat']
      exact Nat.mod_le _ _
    have hlength : (UInt32.ofNat count).toNat ≤ count := by
      rw [UInt32.toNat_ofNat']
      exact Nat.mod_le _ _
    omega

theorem insertArray?_ok {pool pool' : ConstantPool} {elements : List Value} {index : Nat}
    (h : pool.insertArray? elements = some (index, pool')) :
    pool.Grows pool' ∧ index < pool'.size ∧
      (pool.Sound → (∀ v ∈ elements, v.isScalar = true) → pool'.Sound) := by
  obtain ⟨rfl, ⟨v, hget, -⟩, -⟩ | ⟨-, -, filled, hfilled, hpush⟩ := insertArray?_cases h
  · exact ⟨.refl _, lt_size_of_get? hget, fun hs _ => hs⟩
  · obtain ⟨rfl, hroom, hvalues⟩ := push?_ok hpush
    obtain ⟨hlist, hkeep⟩ := pushAll?_ok hfilled
    have hsize : filled.size = pool.size + elements.length := by
      simpa [size] using congrArg List.length hlist
    have hgrows : pool.Grows filled := ⟨elements, hlist.symm⟩
    refine ⟨hgrows.trans (grows_of_push hvalues), lt_size_of_get? (get?_of_push hvalues), ?_⟩
    intro hsound hall
    exact (hkeep hsound hall).push hroom (settledAt_runValue hsize.ge) hvalues

theorem insertText?_ok {pool pool' : ConstantPool} {text : String} {index : Nat}
    (h : pool.insertText? text = some (index, pool')) :
    pool.Grows pool' ∧ index < pool'.size ∧ (pool.Sound → pool'.Sound) := by
  obtain ⟨hgrows, hindex, hkeep⟩ := insertArray?_ok h
  refine ⟨hgrows, hindex, fun hsound => hkeep hsound fun v hv => ?_⟩
  obtain ⟨c, -, rfl⟩ := List.mem_map.mp hv
  rfl

end ConstantPool

end ScriptMachine
