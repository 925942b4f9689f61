import Mathlib
import ScriptMachine.Proofs.RoundTrip

/-!
# Cut and lengthened blobs

A reader knows where its part of a blob ends from the bytes of that part alone. What lies behind the
part makes no difference to it, and a part that is cut anywhere is found out as truncated, before any
other check is made. Both facts carry over from one reader to a chain of readers, so that they hold
of a whole blob, wherever in a count, a word or a name the cut falls.
-/

namespace ScriptMachine.Blob

variable {α β : Type}

/-- The reader takes this part and makes this of it, whatever lies behind; a cut part it refuses. -/
structure Delimits (reader : Reader α) (result : α) (part : List UInt8) : Prop where
  ahead : ∀ rest, reader (part ++ rest) = .ok (result, rest)
  cut : ∀ front, front <+: part → front ≠ part → reader front = .error .truncated

/-- Whatever the reader takes off the front is such a part. -/
def Delimited (reader : Reader α) : Prop :=
  ∀ bytes result rest, reader bytes = .ok (result, rest) →
    ∃ part, bytes = part ++ rest ∧ Delimits reader result part

/-! ### Readers one behind the other -/

theorem bind_eq_error {reader : Reader α} {next : α → Reader β} {bytes : List UInt8} {e : BlobError}
    (h : reader bytes = .error e) : (reader >>= next) bytes = .error e := by
  show Except.bind (reader bytes) _ = _
  rw [h]
  rfl

theorem bind_of_ok {reader : Reader α} {next : α → Reader β} {bytes rest : List UInt8} {first : α}
    (h : reader bytes = .ok (first, rest)) : (reader >>= next) bytes = next first rest := by
  show Except.bind (reader bytes) _ = _
  rw [h]
  rfl

/-- A cut of two parts is a cut of the first one, or leaves the first one whole and cuts the second. -/
theorem prefix_append_cases {front one two : List UInt8} (h : front <+: one ++ two)
    (hne : front ≠ one ++ two) :
    (front <+: one ∧ front ≠ one) ∨ ∃ behind, front = one ++ behind ∧ behind <+: two ∧ behind ≠ two := by
  by_cases hshort : front.length < one.length
  · have hone : front <+: one := List.prefix_of_prefix_length_le h (List.prefix_append one two) hshort.le
    refine .inl ⟨hone, ?_⟩
    intro heq
    rw [heq] at hshort
    exact Nat.lt_irrefl _ hshort
  · have hone : one <+: front :=
      List.prefix_of_prefix_length_le (List.prefix_append one two) h (Nat.not_lt.mp hshort)
    obtain ⟨behind, rfl⟩ := hone
    refine .inr ⟨behind, rfl, (List.prefix_append_right_inj one).mp h, ?_⟩
    intro heq
    exact hne (by rw [heq])

theorem Delimits.bind {reader : Reader α} {next : α → Reader β} {first : α} {result : β}
    {one two : List UInt8} (hone : Delimits reader first one) (htwo : Delimits (next first) result two) :
    Delimits (reader >>= next) result (one ++ two) where
  ahead rest := by
    rw [List.append_assoc, bind_of_ok (hone.ahead (two ++ rest))]
    exact htwo.ahead rest
  cut front hfront hne := by
    obtain ⟨hpart, hshort⟩ | ⟨behind, hbehind, hpart, hshort⟩ := prefix_append_cases hfront hne
    · exact bind_eq_error (hone.cut front hpart hshort)
    · rw [hbehind, bind_of_ok (hone.ahead behind)]
      exact htwo.cut behind hpart hshort

theorem Delimited.bind {reader : Reader α} {next : α → Reader β} (h : Delimited reader)
    (hnext : ∀ a, Delimited (next a)) : Delimited (reader >>= next) := by
  intro bytes result rest hread
  obtain ⟨first, middle, hfirst, hresult⟩ := bind_eq_ok.mp hread
  obtain ⟨one, hbytes, hone⟩ := h bytes first middle hfirst
  obtain ⟨two, hmiddle, htwo⟩ := hnext first middle result rest hresult
  refine ⟨one ++ two, ?_, hone.bind htwo⟩
  rw [hbytes, hmiddle, List.append_assoc]

/-! ### The parts of a blob -/

theorem delimited_pure (a : α) : Delimited (pure a) := by
  intro bytes result rest hread
  obtain ⟨front, hbytes, hfront, hresult⟩ := (reads_pure a bytes result rest).mp hread
  rw [hfront] at hbytes
  rw [hresult]
  refine ⟨[], hbytes, fun _ => rfl, ?_⟩
  intro cut hcut hne
  exact absurd (List.prefix_nil.mp hcut) hne

theorem delimited_throw (e : BlobError) : Delimited (throw e : Reader α) := by
  intro bytes result rest hread
  cases hread

theorem delimited_lift (x : Except BlobError α) : Delimited (liftM x) := by
  cases x with
  | ok a => exact delimited_pure a
  | error e => exact delimited_throw e

theorem delimited_unless {c : Prop} [Decidable c] {e : BlobError} {refusal reader : Reader α}
    (hrefusal : refusal = throw e) (h : Delimited reader) : Delimited (if c then refusal else reader) := by
  by_cases hc : c
  · rw [if_pos hc, hrefusal]
    exact delimited_throw e
  · rw [if_neg hc]
    exact h

theorem delimited_take (count : Nat) : Delimited (take count) := by
  intro bytes result rest hread
  obtain ⟨part, hbytes, hpart, hlength⟩ := (reads_take count bytes result rest).mp hread
  refine ⟨part, hbytes, ?_, ?_⟩
  · intro behind
    exact (reads_take count _ _ _).mpr ⟨part, rfl, hpart, hlength⟩
  · intro front hfront hne
    have hshort : front.length < count := by
      rw [← hlength, ← hpart]
      exact lt_of_le_of_ne hfront.length_le fun heq => hne (hfront.eq_of_length heq)
    have htaken : (front.take count).length < count := (List.length_take_le' count front).trans_lt hshort
    rw [take, if_pos htaken]

theorem delimited_word (width : Nat) : Delimited (readWord width) :=
  (delimited_take width).bind fun _ => delimited_pure _

theorem delimited_name : Delimited readName :=
  (delimited_word 2).bind fun length => (delimited_take length).bind fun bytes =>
    delimited_lift (nameOfBytes bytes)

theorem delimited_constant (index : Nat) : Delimited (readConstant index) := by
  apply (delimited_word 8).bind
  intro word
  cases hvalue : Value.ofPacked? (.ofNat word) with
  | some value =>
    simp only [hvalue]
    exact delimited_pure value
  | none =>
    simp only [hvalue]
    exact delimited_throw _

theorem delimited_import (index : Nat) : Delimited (readImport index) :=
  delimited_name.bind fun _ => (delimited_word 1).bind fun _ => delimited_pure _

theorem delimited_export (index : Nat) : Delimited (readExport index) :=
  delimited_name.bind fun _ => (delimited_word 1).bind fun _ => (delimited_word 4).bind fun _ =>
    delimited_pure _

theorem delimited_items {read : Nat → Reader α} (h : ∀ index, Delimited (read index)) (count index : Nat) :
    Delimited (readItems read count index) := by
  induction count generalizing index with
  | zero => exact delimited_pure []
  | succ count ih => exact (h index).bind fun _ => (ih (index + 1)).bind fun _ => delimited_pure _

theorem delimited_list {read : Nat → Reader α} (h : ∀ index, Delimited (read index)) :
    Delimited (readList read) :=
  (delimited_word 4).bind fun count => delimited_items h count 0

theorem delimited_entry : Delimited readEntry := by
  apply (delimited_word 1).bind
  intro mark
  by_cases hmark : mark = 0
  · rw [if_pos hmark]
    exact delimited_pure none
  · rw [if_neg hmark]
    exact (delimited_word 4).bind fun _ => delimited_pure _

theorem delimited_header : Delimited readHeader :=
  (delimited_take 4).bind fun _ => delimited_unless (e := .badMagic) rfl
    ((delimited_word 2).bind fun found => delimited_unless (e := .unsupportedVersion found) rfl
      (delimited_pure ()))

theorem delimited_program : Delimited readProgram :=
  delimited_header.bind fun _ => (delimited_list delimited_constant).bind fun _ =>
    (delimited_word 4).bind fun length => (delimited_take length).bind fun _ =>
    (delimited_list delimited_import).bind fun _ => (delimited_list delimited_export).bind fun _ =>
    delimited_entry.bind fun _ => delimited_pure _

/-! ### Blobs -/

theorem read_of_error {bytes : List UInt8} {e : BlobError} (h : readProgram bytes = .error e) :
    read bytes = .error e := by
  rw [read, h]
  rfl

theorem read_of_rest {bytes rest : List UInt8} {p : Program} (h : readProgram bytes = .ok (p, rest))
    (hrest : rest ≠ []) : read bytes = .error (.trailingBytes rest.length) := by
  rw [read, h]
  simp only [bind, Except.bind, ne_eq, hrest, not_false_eq_true, if_true]
  rfl

/-- A blob that is read as a program is one part to the end. -/
theorem delimits_of_read {bytes : List UInt8} {p : Program} (h : read bytes = .ok p) :
    Delimits readProgram p bytes := by
  have hprogram : readProgram bytes = .ok (p, []) := by
    obtain ⟨⟨s, hbytes, hspells⟩, -⟩ := read_eq_ok.mp h
    exact (reads_program bytes p []).mpr ⟨bytes, (List.append_nil bytes).symm, s, hbytes, hspells⟩
  obtain ⟨part, hbytes, hpart⟩ := delimited_program bytes p [] hprogram
  rw [List.append_nil] at hbytes
  rw [hbytes]
  exact hpart

/-- No blob is the beginning of another. A blob that is cut short is refused as truncated, and one that
goes on is refused for exactly the bytes that it goes on with. -/
theorem blobs_are_prefix_free {bytes : List UInt8} {p : Program} (h : read bytes = .ok p) :
    (∀ front, front <+: bytes → front ≠ bytes → read front = .error .truncated) ∧
      ∀ more, more ≠ [] → read (bytes ++ more) = .error (.trailingBytes more.length) := by
  have hpart := delimits_of_read h
  refine ⟨?_, ?_⟩
  · intro front hfront hne
    exact read_of_error (hpart.cut front hfront hne)
  · intro more hmore
    exact read_of_rest (hpart.ahead more) hmore

/-- A cut in the middle of a name, and two bytes too many. -/
theorem blobs_are_prefix_free_sample : read sampleBlob = .ok sampleProgram ∧
    read (sampleBlob.take 62) = .error .truncated ∧
    read (sampleBlob ++ [0, 0]) = .error (.trailingBytes 2) := by
  obtain ⟨hcut, hmore⟩ := blobs_are_prefix_free read_sampleBlob
  have hshort : sampleBlob.take 62 ≠ sampleBlob := by decide
  exact ⟨read_sampleBlob, hcut _ (List.take_prefix 62 sampleBlob) hshort, hmore [0, 0] (by simp)⟩

end ScriptMachine.Blob
