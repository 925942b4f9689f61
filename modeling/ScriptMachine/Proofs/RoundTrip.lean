import Mathlib
import ScriptMachine.Proofs.Blob

/-!
# Writing what was read

A program that keeps to the widths of the format has sections that spell it, and the ones that are
written are among them, so that a written program reads back. Reading gives only such programs: what
was read can be written, and writing settles the two choices that a blob has, the words of its
constants and the byte in front of its entry. All other bytes stay.
-/

namespace ScriptMachine

/-- The program keeps to the widths of a blob. -/
structure Program.Portable (p : Program) : Prop where
  decodes : (Walk.ofCode p.code).error = none
  import_names : ∀ m ∈ p.imports, m.name.utf8ByteSize ≤ maxNameLength
  export_names : ∀ e ∈ p.exports, e.name.utf8ByteSize ≤ maxNameLength
  constants : ∀ v ∈ p.constants, v.Packable
  code_lt : p.code.size < 0x100000000
  constants_lt : p.constants.size < 0x100000000
  imports_lt : p.imports.length < 0x100000000
  exports_lt : p.exports.length < 0x100000000

namespace Blob

variable {α : Type}

theorem exists_writeName {name : String} (h : name.utf8ByteSize ≤ maxNameLength) :
    ∃ bytes, writeName name = .ok bytes :=
  ⟨_, writeName_eq_ok.mpr ⟨h, rfl⟩⟩

theorem exists_writeList {write : α → Except BlobError (List UInt8)} {items : List α}
    (h : ∀ item ∈ items, ∃ piece, write item = .ok piece) : ∃ bytes, writeList write items = .ok bytes := by
  have hpieces : ∃ pieces, items.mapM write = .ok pieces := by
    simp only [mapM_eq_ok]
    induction items with
    | nil => exact ⟨[], .nil⟩
    | cons item items ih =>
      obtain ⟨piece, hpiece⟩ := h item List.mem_cons_self
      obtain ⟨pieces, hpieces⟩ := ih fun other hother => h other (List.mem_cons_of_mem item hother)
      exact ⟨piece :: pieces, .cons hpiece hpieces⟩
  obtain ⟨pieces, hpieces⟩ := hpieces
  exact ⟨_, by rw [writeList, hpieces]; rfl⟩

def constantWord (v : Value) : List UInt8 :=
  Bytes.ofNat 8 v.packed.toNat

theorem spellsConstant_constantWord {v : Value} (h : v.Packable) : SpellsConstant v (constantWord v) := by
  have hback : Bytes.toNat (constantWord v) = v.packed.toNat := by
    rw [constantWord, Bytes.toNat_ofNat]
    exact Nat.mod_eq_of_lt v.packed.toNat_lt
  refine ⟨Bytes.length_ofNat 8 _, ?_⟩
  rw [hback, UInt64.ofNat_toNat, Value.ofPacked?_packed h]

def entryMark : Option UInt32 → UInt8
  | none => 0
  | some _ => 1

theorem entryMark_eq_zero {entry : Option UInt32} : entryMark entry = 0 ↔ entry = none := by
  cases entry <;> simp [entryMark]

theorem writeEntry_eq (entry : Option UInt32) : writeEntry entry = entryMark entry :: entryBytes entry := by
  cases entry <;> rfl

namespace Sections

/-- The sections with the choices that writing the program makes. -/
def settled (s : Sections) (p : Program) : Sections :=
  { s with words := p.constants.toList.map constantWord, mark := entryMark p.entry }

variable {s : Sections} {p : Program}

theorem Spells.write (h : s.Spells p) : write p = .ok (s.settled p).bytes := by
  have hcode : p.code.size = s.code.length := by simp [h.code]
  simp only [Blob.write, h.imports, h.exports, bind, Except.bind, pure, Except.pure, settled, bytes, h.entry,
    ← h.code, hcode, writeEntry_eq, List.length_map, Array.length_toList, List.flatMap_def]
  rfl

theorem Spells.packable (h : s.Spells p) : ∀ v ∈ p.constants, v.Packable := by
  intro v hv
  have hwords : List.Forall₂ (fun v word => v.Packable ∧ SpellsConstant v word)
      p.constants.toList s.words := by
    apply h.words.imp
    intro v word hword
    exact ⟨Value.packable_of_ofPacked? hword.2, hword⟩
  exact ((List.forall₂_and_left _ _).mp hwords).1 v hv.val

theorem forall₂_constantWord {constants : List Value} (h : ∀ v ∈ constants, v.Packable) :
    List.Forall₂ SpellsConstant constants (constants.map constantWord) := by
  rw [List.forall₂_map_right_iff, List.forall₂_same]
  intro v hv
  exact spellsConstant_constantWord (h v hv)

theorem Spells.settled (h : s.Spells p) : (s.settled p).Spells p :=
  { h with
    words := forall₂_constantWord fun v hv => h.packable v (Array.mem_toList_iff.mp hv)
    words_lt := by
      have hlt := h.words_lt
      rw [← h.words.length_eq] at hlt
      simpa [Sections.settled] using hlt
    mark := entryMark_eq_zero }

theorem Spells.length_word (h : s.Spells p) : ∀ word ∈ s.words, word.length = 8 := by
  intro word hword
  have hwords : List.Forall₂ (fun word v => word.length = 8 ∧ SpellsConstant v word)
      s.words p.constants.toList := by
    apply h.words.flip.imp
    intro word v hv
    exact ⟨hv.1, hv⟩
  exact ((List.forall₂_and_left _ _).mp hwords).1 word hword

theorem length_bytes (h : ∀ word ∈ s.words, word.length = 8) :
    s.bytes.length =
      15 + 8 * s.words.length + s.code.length + s.imports.length + s.exports.length + s.entry.length := by
  have hlengths : s.words.map List.length = List.replicate s.words.length 8 := by
    rw [← List.map_const']
    exact List.map_congr_left h
  have hmagic : magic.length = 4 := rfl
  simp only [bytes, List.length_append, List.length_cons, List.length_flatten, hlengths, List.sum_replicate,
    Bytes.length_ofNat, hmagic, smul_eq_mul]
  omega

theorem Spells.length_settled (h : s.Spells p) : (s.settled p).words.length = s.words.length := by
  rw [← h.words.length_eq]
  exact List.length_map _

end Sections

/-- A program that keeps to the widths of the format can be spelled. -/
theorem exists_spells {p : Program} (h : p.Portable) : ∃ s : Sections, s.Spells p := by
  obtain ⟨imports, himports⟩ : ∃ bytes, writeList writeImport p.imports = .ok bytes := by
    apply exists_writeList
    intro m hm
    obtain ⟨name, hname⟩ := exists_writeName (h.import_names m hm)
    exact ⟨_, writeImport_eq_ok.mpr ⟨name, hname, rfl⟩⟩
  obtain ⟨exports, hexports⟩ : ∃ bytes, writeList writeExport p.exports = .ok bytes := by
    apply exists_writeList
    intro e he
    obtain ⟨name, hname⟩ := exists_writeName (h.export_names e he)
    exact ⟨_, writeExport_eq_ok.mpr ⟨name, hname, rfl⟩⟩
  refine ⟨⟨p.constants.toList.map constantWord, p.code.toList, imports, exports, entryMark p.entry,
    entryBytes p.entry⟩, ?_⟩
  exact {
    words := Sections.forall₂_constantWord fun v hv => h.constants v (Array.mem_toList_iff.mp hv)
    words_lt := by simpa using h.constants_lt
    code := rfl
    code_lt := by simpa using h.code_lt
    imports := himports
    imports_lt := h.imports_lt
    exports := hexports
    exports_lt := h.exports_lt
    mark := entryMark_eq_zero
    entry := rfl }

theorem read_settled {p : Program} {s : Sections} (h : s.Spells p)
    (hwalk : (Walk.ofCode p.code).error = none) : read (s.settled p).bytes = .ok p :=
  read_eq_ok.mpr ⟨⟨s.settled p, rfl, h.settled⟩, hwalk⟩

/-- Writing what was read from a blob gives a blob of the same length that reads the same and is
written the same. Only the words of the constants and the byte in front of the entry may change. -/
theorem rewriting_settles_a_blob {bytes : List UInt8} {p : Program} (h : read bytes = .ok p) :
    ∃ again, write p = .ok again ∧ read again = .ok p ∧ (read again >>= write) = .ok again ∧
      again.length = bytes.length ∧
      ∃ (s : Sections) (words : List (List UInt8)) (mark : UInt8), s.Spells p ∧ bytes = s.bytes ∧
        again = { s with words := words, mark := mark }.bytes ∧ words.length = s.words.length ∧
        (∀ word ∈ s.words, word.length = 8) ∧ ∀ word ∈ words, word.length = 8 := by
  obtain ⟨⟨s, rfl, hs⟩, hwalk⟩ := read_eq_ok.mp h
  have hread := read_settled hs hwalk
  have hcount := hs.length_settled
  refine ⟨(s.settled p).bytes, hs.write, hread, ?_, ?_, s, _, _, hs, rfl, rfl, hcount, hs.length_word,
    hs.settled.length_word⟩
  · rw [hread]
    exact hs.write
  · rw [Sections.length_bytes hs.settled.length_word, Sections.length_bytes hs.length_word, hcount]
    rfl

/-- A blob that spells a NaN, a bool, an array without address and the entry otherwise than they are
written. -/
def sampleBlob : List UInt8 :=
  magic ++ [1, 0]
    ++ [4, 0, 0, 0] ++ [1, 0, 0xc0, 0x7f, 9, 9, 0, 0x10] ++ [0x90, 0, 0, 0, 0, 7, 0, 0x30]
    ++ [5, 0, 0, 0, 2, 0, 0, 0x51] ++ [2, 0, 0, 0x40, 1, 0, 0, 0x70]
    ++ [1, 0, 0, 0] ++ [Opcode.halt.toByte]
    ++ [1, 0, 0, 0] ++ [1, 0, 102, 2]
    ++ [1, 0, 0, 0] ++ [2, 0, 195, 169, 0, 0, 0, 0, 0]
    ++ [7, 0, 0, 0, 0]

def sampleProgram : Program :=
  { code := #[Opcode.halt.toByte]
    constants := #[.number ⟨0x7fc00001⟩, .bool true, .array .null 2, .iterator (.constant 2) 1]
    imports := [⟨"f", 2⟩]
    exports := [⟨"é", 0, 0⟩]
    entry := some 0 }

theorem read_sampleBlob : read sampleBlob = .ok sampleProgram := by
  cbv

theorem rewriting_settles_a_blob_sample : read sampleBlob = .ok sampleProgram ∧
    ∃ again, write sampleProgram = .ok again ∧ read again = .ok sampleProgram ∧ again ≠ sampleBlob ∧
      again.length = sampleBlob.length := by
  obtain ⟨again, hwrite, hread, -, hlength, -⟩ := rewriting_settles_a_blob read_sampleBlob
  refine ⟨read_sampleBlob, again, hwrite, hread, ?_, hlength⟩
  rintro rfl
  have hdiffers : write sampleProgram ≠ .ok sampleBlob := by decide +kernel
  exact hdiffers hwrite

end Blob

end ScriptMachine
