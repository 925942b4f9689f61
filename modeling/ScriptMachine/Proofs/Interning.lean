import Mathlib
import ScriptMachine.Proofs.Literal

/-!
# Inserting constants

Values, arrays and texts are inserted in any order, and an array that is inserted as a value may point
anywhere: behind the constants that are there, across the runs of other arrays or nowhere. A run of
constants never changes once it is in the pool, so an array over it keeps describing it, and a later
insertion finds that array or an earlier one.
-/

namespace ScriptMachine

namespace ConstantPool

inductive Insertion where
  | value (v : Value)
  | array (elements : List Value)
  | text (text : String)

def insertion? (pool : ConstantPool) : Insertion → Option (Nat × ConstantPool)
  | .value v => pool.insert? v
  | .array elements => pool.insertArray? elements
  | .text text => pool.insertText? text

/-- Carries out insertions one after the other and returns the index of each. -/
def insertAll? (pool : ConstantPool) : List Insertion → Option (List Nat × ConstantPool)
  | [] => some ([], pool)
  | first :: rest =>
    (pool.insertion? first).bind fun added =>
      (added.2.insertAll? rest).map fun others => (added.1 :: others.1, others.2)

variable {pool pool' final : ConstantPool} {v : Value} {index : Nat} {elements : List Value}
  {call : Insertion}

/-! ### One insertion -/

/-- The constant at an index is an array over these elements. -/
def DescribedAt (pool : ConstantPool) (index : Nat) (elements : List Value) : Prop :=
  elements.length ≤ maxArrayLength ∧ ∃ w, pool.get? index = some w ∧ pool.describes elements w = true

/-- The constant at an index is one that an insertion finds again. -/
def Answers (pool : ConstantPool) (index : Nat) : Insertion → Prop
  | .value v => ∃ w, pool.get? index = some w ∧ w.packed = v.packed
  | .array elements => pool.DescribedAt index elements
  | .text text => pool.DescribedAt index (text.toList.map .char)

theorem DescribedAt.mono (h : pool.Grows final) (hdescribed : pool.DescribedAt index elements) :
    final.DescribedAt index elements := by
  obtain ⟨hlength, w, hget, hdescribes⟩ := hdescribed
  exact ⟨hlength, w, h.get? hget, describes_of_grows h hdescribes⟩

theorem Answers.mono (h : pool.Grows final) (hanswers : pool.Answers index call) :
    final.Answers index call := by
  cases call with
  | value v =>
    obtain ⟨w, hget, hpacked⟩ := hanswers
    exact ⟨w, h.get? hget, hpacked⟩
  | array elements => exact DescribedAt.mono h hanswers
  | text text => exact DescribedAt.mono h hanswers

theorem length_le_of_insertArray? (h : pool.insertArray? elements = some (index, pool')) :
    elements.length ≤ maxArrayLength := by
  unfold insertArray? at h
  split at h
  · cases h
  · rename_i hlength
    exact Nat.not_lt.mp hlength

theorem describedAt_insertArray? (h : pool.insertArray? elements = some (index, pool')) :
    pool'.DescribedAt index elements := by
  refine ⟨length_le_of_insertArray? h, ?_⟩
  obtain ⟨rfl, hfound, -⟩ | ⟨-, hlength, filled, hfilled, hpush⟩ := insertArray?_cases h
  · exact hfound
  · obtain ⟨rfl, hroom, hvalues⟩ := push?_ok hpush
    obtain ⟨hlist, -⟩ := pushAll?_ok hfilled
    have hsize : filled.size = pool.size + elements.length := by
      simpa [size] using congrArg List.length hlist
    have hall : pool'.values.toList
        = pool.values.toList ++ elements ++ [runValue pool.size elements.length] := by
      rw [hvalues, Array.toList_push, hlist]
    exact ⟨_, get?_of_push hvalues, describes_runValue hall (by omega) hlength⟩

/-- An insertion adds to the pool and returns the index of a constant that answers it. -/
theorem insertion?_ok (h : pool.insertion? call = some (index, pool')) :
    pool.Grows pool' ∧ pool'.Answers index call := by
  cases call with
  | value v =>
    obtain ⟨hgrows, hfound, -⟩ := insert?_ok h
    exact ⟨hgrows, hfound⟩
  | array elements => exact ⟨(insertArray?_ok h).1, describedAt_insertArray? h⟩
  | text text => exact ⟨(insertArray?_ok h).1, describedAt_insertArray? h⟩

theorem DescribedAt.again (h : pool.DescribedAt index elements) :
    ∃ again, pool.insertArray? elements = some (again, pool) := by
  obtain ⟨hlength, w, hget, hdescribes⟩ := h
  cases hfind : pool.values.findIdx? (pool.describes elements) with
  | none =>
    have hnot := Array.findIdx?_eq_none_iff.mp hfind w (Array.mem_of_getElem? hget)
    rw [hdescribes] at hnot
    cases hnot
  | some again => exact ⟨again, by rw [insertArray?, if_neg (Nat.not_lt.mpr hlength), hfind]⟩

/-- A pool that answers an insertion already is left as it is. The index may be a smaller one than
before, for an array that pointed at nothing may have come to describe the elements. -/
theorem Answers.again (h : pool.Answers index call) : ∃ again, pool.insertion? call = some (again, pool) := by
  cases call with
  | value v =>
    obtain ⟨w, hget, hpacked⟩ := h
    cases hfind : pool.values.findIdx? (·.samePacked v) with
    | none =>
      have hnot := Array.findIdx?_eq_none_iff.mp hfind w (Array.mem_of_getElem? hget)
      rw [Value.samePacked, hpacked, beq_self_eq_true] at hnot
      cases hnot
    | some again => exact ⟨again, by rw [insertion?, insert?, hfind]⟩
  | array elements => exact DescribedAt.again h
  | text text => exact DescribedAt.again h

/-! ### Room -/

/-- How many constants an insertion adds at most. -/
def Insertion.most : Insertion → Nat
  | .value _ => 1
  | .array elements => elements.length + 1
  | .text content => content.toList.length + 1

/-- The pool stays below its limit whatever the insertion adds, and an array keeps to the limit of
arrays. -/
def HasRoom (pool : ConstantPool) (call : Insertion) : Prop :=
  pool.size + call.most ≤ maxOffset + 1 ∧ call.most ≤ maxArrayLength + 1

theorem exists_pushAll? {values : List Value} (h : pool.size + values.length ≤ maxOffset + 1) :
    ∃ filled, pool.pushAll? values = some filled ∧ filled.size = pool.size + values.length := by
  induction values generalizing pool with
  | nil => exact ⟨pool, rfl, rfl⟩
  | cons value rest ih =>
    rw [List.length_cons] at h
    have hpush : pool.push? value = some (pool.size, ⟨pool.values.push value⟩) := if_pos (by omega)
    have hsize : size ⟨pool.values.push value⟩ = pool.size + 1 := Array.size_push _
    have hrest : size ⟨pool.values.push value⟩ + rest.length ≤ maxOffset + 1 := by omega
    obtain ⟨filled, hfilled, hfilledSize⟩ := ih hrest
    refine ⟨filled, ?_, ?_⟩
    · rw [pushAll?, hpush]
      exact hfilled
    · rw [hfilledSize, hsize, List.length_cons]
      omega

theorem exists_insertArray? (hsize : pool.size + elements.length ≤ maxOffset)
    (hlength : elements.length ≤ maxArrayLength) :
    ∃ result, pool.insertArray? elements = some result := by
  rw [insertArray?, if_neg (Nat.not_lt.mpr hlength)]
  cases pool.values.findIdx? (pool.describes elements) with
  | some index => exact ⟨_, rfl⟩
  | none =>
    obtain ⟨filled, hfilled, hfilledSize⟩ := exists_pushAll? (hsize.trans (Nat.le_succ _))
    rw [hfilled]
    exact ⟨_, if_pos (hfilledSize ▸ hsize)⟩

theorem HasRoom.exists_insertion? (h : pool.HasRoom call) : ∃ result, pool.insertion? call = some result := by
  obtain ⟨hsize, hmost⟩ := h
  cases call with
  | value v =>
    simp only [Insertion.most] at hsize
    rw [insertion?, insert?]
    cases pool.values.findIdx? (·.samePacked v) with
    | some index => exact ⟨_, rfl⟩
    | none => exact ⟨_, if_pos (by omega)⟩
  | array elements =>
    simp only [Insertion.most] at hsize hmost
    exact exists_insertArray? (by omega) (by omega)
  | text text =>
    simp only [Insertion.most, ← List.length_map Value.char] at hsize hmost
    exact exists_insertArray? (by omega) (by omega)

/-! ### Insertions one after the other -/

theorem insertAll?_append (calls more : List Insertion) :
    pool.insertAll? (calls ++ more) = (pool.insertAll? calls).bind fun added =>
      (added.2.insertAll? more).map fun others => (added.1 ++ others.1, others.2) := by
  induction calls generalizing pool with
  | nil => simp [insertAll?]
  | cons first rest ih =>
    rw [List.cons_append, insertAll?, insertAll?]
    cases pool.insertion? first with
    | none => rfl
    | some result =>
      simp only [Option.bind_some, ih]
      cases result.2.insertAll? rest with
      | none => rfl
      | some result => simp [Option.map_map, Function.comp_def]

/-- What insertions have returned answers them in the pool that they lead to. -/
theorem insertAll?_ok {calls : List Insertion} {indices : List Nat}
    (h : pool.insertAll? calls = some (indices, final)) :
    pool.Grows final ∧ List.Forall₂ (fun call index => final.Answers index call) calls indices := by
  induction calls generalizing pool indices with
  | nil =>
    cases h
    exact ⟨.refl _, .nil⟩
  | cons first rest ih =>
    rw [insertAll?, Option.bind_eq_some_iff] at h
    obtain ⟨⟨index, middle⟩, hfirst, h⟩ := h
    obtain ⟨⟨others, last⟩, hrest, heq⟩ := Option.map_eq_some_iff.mp h
    cases heq
    -- The first constant answers where it was inserted, and the rest only adds to that pool.
    obtain ⟨hgrows, hanswers⟩ := insertion?_ok hfirst
    obtain ⟨hgrows', hothers⟩ := ih hrest
    exact ⟨hgrows.trans hgrows', .cons (hanswers.mono hgrows') hothers⟩

/-! ### What the constants read as -/

/-- The constant at an index is what an insertion asked for, whatever is on the heap: a value with the
same packed word, an array whose elements have the same packed words, or an array that reads as the
text. -/
def Holds (pool : ConstantPool) (index : Nat) : Insertion → Prop
  | .value v => ∃ w, pool.get? index = some w ∧ w.packed = v.packed
  | .array elements => ∃ address length run, pool.get? index = some (.array address length) ∧
      length.toNat = elements.length ∧
      (∀ heap, Memory.resolve? ⟨pool.values, heap⟩ address length.toNat = some run) ∧
      run.map Value.packed = elements.map Value.packed
  | .text text => ∃ w, pool.get? index = some w ∧
      ∀ heap, Memory.text? ⟨pool.values, heap⟩ w = some text

theorem DescribedAt.holds (h : pool.DescribedAt index elements) : pool.Holds index (.array elements) := by
  obtain ⟨-, w, hget, hdescribes⟩ := h
  obtain ⟨address, length, run, rfl, hlength, hrun, hsame⟩ := describes_eq_true.mp hdescribes
  refine ⟨address, length, run, hget, hlength, fun heap => ?_, hsame⟩
  rw [hlength]
  exact resolve?_of_run? heap hrun

theorem Answers.holds (h : pool.Answers index call) : pool.Holds index call := by
  cases call with
  | value v => exact h
  | array elements => exact DescribedAt.holds h
  | text text =>
    obtain ⟨-, w, hget, hdescribes⟩ := h
    exact ⟨w, hget, fun heap => text?_of_describes heap hdescribes⟩

/-- After any insertions into the empty pool, each index still holds what it was returned for, inserting
the same again adds nothing, and the indices and constants of a part of the insertions are the first
of the whole. Another insertion goes through while there is room. -/
theorem inserted_constants_stay {calls : List Insertion} {indices : List Nat}
    (h : empty.insertAll? calls = some (indices, pool)) :
    List.Forall₂ (fun call index => pool.Holds index call) calls indices ∧
    (∀ call ∈ calls, ∃ again, pool.insertion? call = some (again, pool)) ∧
    (∀ before after, calls = before ++ after → ∃ early smaller,
      empty.insertAll? before = some (early, smaller) ∧ early <+: indices ∧ smaller.Grows pool) ∧
    ∀ call, pool.HasRoom call → ∃ index pool', pool.insertion? call = some (index, pool') ∧
      empty.insertAll? (calls ++ [call]) = some (indices ++ [index], pool') := by
  obtain ⟨-, hanswers⟩ := insertAll?_ok h
  refine ⟨hanswers.imp fun _ _ => Answers.holds, fun call hcall => ?_, ?_, fun call hroom => ?_⟩
  · obtain ⟨k, hk, rfl⟩ := List.getElem_of_mem hcall
    have hindex : k < indices.length := hanswers.length_eq ▸ hk
    exact (hanswers.get hk hindex).again
  · rintro before after rfl
    rw [insertAll?_append, Option.bind_eq_some_iff] at h
    obtain ⟨⟨early, smaller⟩, hbefore, h⟩ := h
    obtain ⟨⟨others, last⟩, hafter, heq⟩ := Option.map_eq_some_iff.mp h
    cases heq
    exact ⟨early, smaller, hbefore, List.prefix_append _ _, (insertAll?_ok hafter).1⟩
  · obtain ⟨⟨index, pool'⟩, hinsert⟩ := hroom.exists_insertion?
    refine ⟨index, pool', hinsert, ?_⟩
    simp [insertAll?_append, h, insertAll?, hinsert]

/-- The array that comes first points at characters that are not there yet. Once they are, it is found
in place of the array that the text was inserted as. -/
theorem inserted_constants_stay_forward :
    ∃ pool, empty.insertAll? [.value (.array (.constant 1) 2), .text "ab", .text "ab",
        .value (.char 'b'), .array [], .text ""] = some ([0, 3, 0, 2, 4, 4], pool) ∧
      pool.Holds 0 (.text "ab") ∧ pool.Holds 3 (.text "ab") ∧ pool.Holds 4 (.text "") ∧
      (∃ again, pool.insertion? (.text "ab") = some (again, pool)) ∧
      (∃ early smaller, empty.insertAll? [.value (.array (.constant 1) 2)] = some (early, smaller) ∧
        early <+: [0, 3, 0, 2, 4, 4] ∧ smaller.Grows pool) ∧
      ∃ index pool', pool.insertion? (.array [.bool true]) = some (index, pool') := by
  have h : empty.insertAll? [.value (.array (.constant 1) 2), .text "ab", .text "ab",
      .value (.char 'b'), .array [], .text ""] = some ([0, 3, 0, 2, 4, 4],
        ⟨#[.array (.constant 1) 2, .char 'a', .char 'b', .array (.constant 1) 2, .array .null 0]⟩) := by
    decide +kernel
  refine ⟨_, h, ?_⟩
  obtain ⟨hholds, hagain, hearly, hmore⟩ := inserted_constants_stay h
  obtain ⟨index, pool', hinsert, -⟩ := hmore (.array [.bool true]) ⟨by decide +kernel, by decide⟩
  exact ⟨hholds.get (i := 2) (by decide) (by decide), hholds.get (i := 1) (by decide) (by decide),
    hholds.get (i := 5) (by decide) (by decide), hagain _ (by simp),
    hearly [.value (.array (.constant 1) 2)] _ rfl, index, pool', hinsert⟩

end ConstantPool
end ScriptMachine
