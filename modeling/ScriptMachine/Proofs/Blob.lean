import Mathlib
import ScriptMachine.Program.Blob
import ScriptMachine.Proofs.Bytes
import ScriptMachine.Proofs.Packed

/-!
# Which blobs are read, and as what

Every reader takes one stretch of bytes off the front. Which stretches it takes, and what it makes of
them, is a relation between results and bytes, its spelling; `Reads` says that a reader and a spelling
agree in both directions, whatever comes behind. Spellings compose as readers do, so that a blob is
read as a program exactly when it is made of sections that spell the program. All sections but two
have one spelling only, the one that is written: the packed words of the constants and the byte that
tells whether there is an entry may vary.
-/

namespace ScriptMachine.Blob

variable {α β : Type}

/-- The reader takes exactly the spellings of its results, and nothing behind them. -/
def Reads (reader : Reader α) (spells : α → List UInt8 → Prop) : Prop :=
  ∀ bytes result rest, reader bytes = .ok (result, rest) ↔
    ∃ front, bytes = front ++ rest ∧ spells result front

theorem Reads.congr {reader : Reader α} {spells spells' : α → List UInt8 → Prop} (h : Reads reader spells)
    (hsame : ∀ result front, spells result front ↔ spells' result front) : Reads reader spells' := by
  intro bytes result rest
  rw [h]
  simp only [hsame]

theorem reads_pure (a : α) : Reads (pure a) fun result front => front = [] ∧ result = a := by
  intro bytes result rest
  show Except.ok (a, bytes) = .ok (result, rest) ↔ _
  constructor
  · intro h
    cases h
    exact ⟨[], rfl, rfl, rfl⟩
  · rintro ⟨front, rfl, rfl, rfl⟩
    rfl

theorem reads_throw (e : BlobError) {spells : α → List UInt8 → Prop}
    (h : ∀ result front, ¬ spells result front) : Reads (throw e) spells := by
  intro bytes result rest
  show Except.error e = .ok (result, rest) ↔ _
  simp [h]

theorem reads_lift (x : Except BlobError α) :
    Reads (liftM x) fun result front => front = [] ∧ x = .ok result := by
  intro bytes result rest
  show Except.bind x (fun a => .ok (a, bytes)) = .ok (result, rest) ↔ _
  cases x with
  | error e => simp [Except.bind]
  | ok a => simp [Except.bind, and_comm, eq_comm]

/-- The result of a reader, and the bytes behind it, go on to the next one. -/
theorem bind_eq_ok {reader : Reader α} {next : α → Reader β} {bytes rest : List UInt8} {result : β} :
    (reader >>= next) bytes = .ok (result, rest) ↔
      ∃ first middle, reader bytes = .ok (first, middle) ∧ next first middle = .ok (result, rest) := by
  show Except.bind (reader bytes) (fun p => next p.1 p.2) = _ ↔ _
  cases hreader : reader bytes with
  | error e => simp [Except.bind]
  | ok found =>
    obtain ⟨first, middle⟩ := found
    simp [Except.bind]

/-- What a chain of two readers takes: a spelling for the first, then one for the second. -/
theorem Reads.bind {reader : Reader α} {next : α → Reader β} {spells : α → List UInt8 → Prop}
    {spellsNext : α → β → List UInt8 → Prop} (h : Reads reader spells)
    (hnext : ∀ a, Reads (next a) (spellsNext a)) :
    Reads (reader >>= next) fun result front => ∃ first one two, front = one ++ two ∧ spells first one ∧
      spellsNext first result two := by
  intro bytes result rest
  rw [bind_eq_ok]
  constructor
  · rintro ⟨first, middle, hfirst, hresult⟩
    obtain ⟨one, rfl, hone⟩ := (h _ _ _).mp hfirst
    obtain ⟨two, rfl, htwo⟩ := (hnext first _ _ _).mp hresult
    exact ⟨one ++ two, by rw [List.append_assoc], first, one, two, rfl, hone, htwo⟩
  · rintro ⟨front, rfl, first, one, two, rfl, hone, htwo⟩
    refine ⟨first, two ++ rest, ?_, ?_⟩
    · exact (h _ _ _).mpr ⟨one, by rw [List.append_assoc], hone⟩
    · exact (hnext first _ _ _).mpr ⟨two, rfl, htwo⟩

/-! ### Words and names -/

theorem reads_take (count : Nat) :
    Reads (take count) fun result front => front = result ∧ result.length = count := by
  intro bytes result rest
  simp only [take]
  constructor
  · intro h
    split at h
    · cases h
    · rename_i hlength
      cases h
      refine ⟨bytes.take count, (List.take_append_drop count bytes).symm, rfl, ?_⟩
      rw [List.length_take] at hlength ⊢
      omega
  · rintro ⟨front, rfl, rfl, rfl⟩
    simp

theorem reads_word (width : Nat) :
    Reads (readWord width) fun result front => result < 256 ^ width ∧ front = Bytes.ofNat width result := by
  refine ((reads_take width).bind fun taken => reads_pure (Bytes.toNat taken)).congr ?_
  intro result front
  constructor
  · rintro ⟨taken, one, two, rfl, ⟨rfl, rfl⟩, rfl, rfl⟩
    rw [List.append_nil, Bytes.ofNat_toNat]
    exact ⟨Bytes.toNat_lt one, rfl⟩
  · rintro ⟨hlt, rfl⟩
    refine ⟨Bytes.ofNat width result, Bytes.ofNat width result, [], by simp, ⟨rfl, by simp⟩, rfl, ?_⟩
    rw [Bytes.toNat_ofNat, Nat.mod_eq_of_lt hlt]

theorem nameOfBytes_eq_ok {bytes : List UInt8} {name : String} :
    nameOfBytes bytes = .ok name ↔ bytes = name.toByteArray.data.toList := by
  unfold nameOfBytes String.fromUTF8?
  constructor
  · intro h
    by_cases hvalid : (ByteArray.mk bytes.toArray).IsValidUTF8
    · simp only [hvalid, dite_true, Except.ok.injEq] at h
      rw [← h]
      rfl
    · simp [hvalid] at h
  · rintro rfl
    have hvalid : (ByteArray.mk name.toByteArray.data.toList.toArray).IsValidUTF8 := name.isValidUTF8
    simp only [hvalid, dite_true]
    rfl

theorem writeName_eq_ok {name : String} {bytes : List UInt8} :
    writeName name = .ok bytes ↔ name.utf8ByteSize ≤ maxNameLength ∧
      bytes = Bytes.ofNat 2 name.utf8ByteSize ++ name.toByteArray.data.toList := by
  unfold writeName
  by_cases hlong : maxNameLength < name.utf8ByteSize
  · simp [hlong, Nat.not_le.mpr hlong]
  · simp [hlong, Nat.not_lt.mp hlong, eq_comm]

theorem reads_name : Reads readName fun result front => writeName result = .ok front := by
  have hmax : maxNameLength = 0xffff := rfl
  refine ((reads_word 2).bind fun length => (reads_take length).bind fun bytes =>
    reads_lift (nameOfBytes bytes)).congr ?_
  intro name front
  rw [writeName_eq_ok]
  constructor
  · rintro ⟨length, one, two, rfl, ⟨hlt, rfl⟩, bytes, three, four, rfl, ⟨rfl, rfl⟩, rfl, hname⟩
    rw [nameOfBytes_eq_ok] at hname
    have hsize : three.length = name.utf8ByteSize := congrArg List.length hname
    rw [← hsize, ← hname, List.append_nil]
    exact ⟨by omega, rfl⟩
  · rintro ⟨hlength, rfl⟩
    exact ⟨name.utf8ByteSize, _, _, rfl, ⟨by omega, rfl⟩, name.toByteArray.data.toList, _, [], by simp,
      ⟨rfl, rfl⟩, rfl, nameOfBytes_eq_ok.mpr rfl⟩

theorem reads_byte : Reads (readWord 1) fun result front => ∃ b : UInt8, result = b.toNat ∧ front = [b] := by
  refine (reads_word 1).congr ?_
  intro n front
  constructor
  · rintro ⟨hlt, rfl⟩
    refine ⟨.ofNat n, ?_, rfl⟩
    rw [UInt8.toNat_ofNat']
    omega
  · rintro ⟨b, rfl, rfl⟩
    refine ⟨b.toNat_lt, ?_⟩
    simp [Bytes.ofNat]

theorem reads_address :
    Reads (readWord 4) fun result front =>
      ∃ w : UInt32, result = w.toNat ∧ front = Bytes.ofNat 4 w.toNat := by
  refine (reads_word 4).congr ?_
  intro n front
  constructor
  · rintro ⟨hlt, rfl⟩
    have hback : (UInt32.ofNat n).toNat = n := by
      rw [UInt32.toNat_ofNat']
      omega
    exact ⟨.ofNat n, hback.symm, by rw [hback]⟩
  · rintro ⟨w, rfl, rfl⟩
    exact ⟨w.toNat_lt, rfl⟩

/-! ### Constants, imports and exports -/

def SpellsConstant (v : Value) (word : List UInt8) : Prop :=
  word.length = 8 ∧ Value.ofPacked? (.ofNat (Bytes.toNat word)) = some v

theorem reads_constant (index : Nat) : Reads (readConstant index) SpellsConstant := by
  intro bytes v rest
  rw [readConstant, bind_eq_ok]
  constructor
  · rintro ⟨n, middle, hn, hv⟩
    obtain ⟨front, rfl, hlt, rfl⟩ := (reads_word 8 _ _ _).mp hn
    cases hvalue : Value.ofPacked? (.ofNat n) with
    | none =>
      simp only [hvalue] at hv
      cases hv
    | some value =>
      simp only [hvalue] at hv
      cases hv
      refine ⟨_, rfl, Bytes.length_ofNat 8 n, ?_⟩
      rwa [Bytes.toNat_ofNat, Nat.mod_eq_of_lt hlt]
  · rintro ⟨front, rfl, hlength, hv⟩
    refine ⟨Bytes.toNat front, rest, (reads_word 8 _ _ _).mpr ⟨front, rfl, ?_, ?_⟩, ?_⟩
    · exact hlength ▸ Bytes.toNat_lt front
    · rw [← hlength, Bytes.ofNat_toNat]
    · simp only [hv]
      rfl

theorem writeImport_eq_ok {m : Import} {bytes : List UInt8} :
    writeImport m = .ok bytes ↔ ∃ name, writeName m.name = .ok name ∧ bytes = name ++ [m.arity] := by
  unfold writeImport
  cases writeName m.name <;> simp [bind, Except.bind, pure, Except.pure, eq_comm]

theorem writeExport_eq_ok {e : Export} {bytes : List UInt8} :
    writeExport e = .ok bytes ↔
      ∃ name, writeName e.name = .ok name ∧ bytes = name ++ e.arity :: Bytes.ofNat 4 e.address.toNat := by
  unfold writeExport
  cases writeName e.name <;> simp [bind, Except.bind, pure, Except.pure, eq_comm]

theorem reads_import (index : Nat) :
    Reads (readImport index) fun result front => writeImport result = .ok front := by
  refine (reads_name.bind fun name => reads_byte.bind fun arity =>
    reads_pure (Import.mk name (.ofNat arity))).congr ?_
  intro m front
  rw [writeImport_eq_ok]
  constructor
  · rintro ⟨name, one, two, rfl, hname, arity, three, four, rfl, ⟨b, rfl, rfl⟩, rfl, rfl⟩
    exact ⟨one, hname, by simp⟩
  · rintro ⟨name, hname, rfl⟩
    exact ⟨m.name, name, [m.arity], rfl, hname, m.arity.toNat, [m.arity], [], rfl, ⟨m.arity, rfl, rfl⟩,
      rfl, by simp⟩

theorem reads_export (index : Nat) :
    Reads (readExport index) fun result front => writeExport result = .ok front := by
  refine (reads_name.bind fun name => reads_byte.bind fun arity => reads_address.bind fun address =>
    reads_pure (Export.mk name (.ofNat arity) (.ofNat address))).congr ?_
  intro e front
  rw [writeExport_eq_ok]
  constructor
  · rintro ⟨name, one, two, rfl, hname, arity, three, four, rfl, ⟨b, rfl, rfl⟩, address, five, six, rfl,
      ⟨w, rfl, rfl⟩, rfl, rfl⟩
    exact ⟨one, hname, by simp⟩
  · rintro ⟨name, hname, rfl⟩
    exact ⟨e.name, name, _, rfl, hname, e.arity.toNat, [e.arity], _, rfl, ⟨e.arity, rfl, rfl⟩,
      e.address.toNat, _, [], (List.append_nil _).symm, ⟨e.address, rfl, rfl⟩, rfl, by simp⟩

/-! ### Lists -/

theorem reads_items {read : Nat → Reader α} {spells : α → List UInt8 → Prop}
    (h : ∀ index, Reads (read index) spells) (count index : Nat) :
    Reads (readItems read count index) fun items front =>
      items.length = count ∧ ∃ pieces, front = pieces.flatten ∧ List.Forall₂ spells items pieces := by
  induction count generalizing index with
  | zero =>
    refine (reads_pure []).congr ?_
    intro items front
    constructor
    · rintro ⟨rfl, rfl⟩
      exact ⟨rfl, [], rfl, .nil⟩
    · rintro ⟨hlength, pieces, rfl, hpieces⟩
      obtain rfl := List.eq_nil_of_length_eq_zero hlength
      cases hpieces
      exact ⟨rfl, rfl⟩
  | succ count ih =>
    refine ((h index).bind fun first => (ih (index + 1)).bind fun others =>
      reads_pure (first :: others)).congr ?_
    intro items front
    constructor
    · rintro ⟨first, one, two, rfl, hfirst, others, three, four, rfl, ⟨hlength, pieces, rfl, hpieces⟩,
        rfl, rfl⟩
      exact ⟨by simp [hlength], one :: pieces, by simp, .cons hfirst hpieces⟩
    · rintro ⟨hlength, pieces, rfl, hpieces⟩
      cases hpieces with
      | nil => cases hlength
      | cons hfirst hothers =>
        exact ⟨_, _, _, rfl, hfirst, _, _, [], (List.append_nil _).symm,
          ⟨Nat.succ.inj hlength, _, rfl, hothers⟩, rfl, rfl⟩

/-- A list is spelled by its length and by its items one after the other. -/
def SpellsList (spells : α → List UInt8 → Prop) (items : List α) (front : List UInt8) : Prop :=
  items.length < 0x100000000 ∧
    ∃ pieces, List.Forall₂ spells items pieces ∧ front = Bytes.ofNat 4 items.length ++ pieces.flatten

theorem reads_list {read : Nat → Reader α} {spells : α → List UInt8 → Prop}
    (h : ∀ index, Reads (read index) spells) : Reads (readList read) (SpellsList spells) := by
  refine ((reads_word 4).bind fun count => reads_items h count 0).congr ?_
  intro items front
  constructor
  · rintro ⟨count, one, two, rfl, ⟨hlt, rfl⟩, rfl, pieces, rfl, hpieces⟩
    exact ⟨hlt, pieces, hpieces, rfl⟩
  · rintro ⟨hlt, pieces, hpieces, rfl⟩
    exact ⟨_, _, _, rfl, ⟨hlt, rfl⟩, rfl, pieces, rfl, hpieces⟩

theorem mapM_eq_ok {write : α → Except BlobError β} {items : List α} {pieces : List β} :
    items.mapM write = .ok pieces ↔ List.Forall₂ (fun item piece => write item = .ok piece) items pieces := by
  induction items generalizing pieces with
  | nil => simp [pure, Except.pure, eq_comm]
  | cons item items ih =>
    rw [List.mapM_cons, List.forall₂_cons_left_iff]
    simp only [← ih]
    cases write item with
    | error e => simp [bind, Except.bind]
    | ok piece => cases items.mapM write <;> simp [bind, Except.bind, pure, Except.pure, eq_comm]

theorem spellsList_writeList {write : α → Except BlobError (List UInt8)} {items : List α}
    {bytes : List UInt8} :
    SpellsList (fun item piece => write item = .ok piece) items bytes ↔
      items.length < 0x100000000 ∧ writeList write items = .ok bytes := by
  simp only [SpellsList, ← mapM_eq_ok, writeList]
  cases items.mapM write <;> simp [bind, Except.bind, pure, Except.pure, eq_comm]

/-! ### Blobs -/

theorem reads_unless {c : Prop} [Decidable c] {e : BlobError} {refusal reader : Reader α}
    {spells : α → List UInt8 → Prop} (hrefusal : refusal = throw e) (h : Reads reader spells) :
    Reads (if c then refusal else reader) fun result front => ¬ c ∧ spells result front := by
  by_cases hc : c
  · rw [if_pos hc, hrefusal]
    exact reads_throw e (by simp [hc])
  · rw [if_neg hc]
    exact h.congr (by simp [hc])

theorem reads_header : Reads readHeader fun _ front => front = magic ++ Bytes.ofNat 2 version := by
  refine ((reads_take 4).bind fun found => reads_unless (c := found ≠ magic) (e := .badMagic) rfl
    ((reads_word 2).bind fun found => reads_unless (c := found ≠ version) rfl (reads_pure ()))).congr ?_
  intro u front
  constructor
  · rintro ⟨found, one, two, rfl, ⟨rfl, -⟩, hmagic, number, three, four, rfl, ⟨-, rfl⟩, hversion, rfl, -⟩
    rw [not_not.mp hmagic, not_not.mp hversion, List.append_nil]
  · rintro rfl
    exact ⟨magic, magic, _, rfl, ⟨rfl, rfl⟩, not_not.mpr rfl, version, _, [], (List.append_nil _).symm,
      ⟨by decide, rfl⟩, not_not.mpr rfl, rfl, rfl⟩

/-- The bytes of an entry behind the byte that says whether there is one. -/
def entryBytes : Option UInt32 → List UInt8
  | none => []
  | some entry => Bytes.ofNat 4 entry.toNat

theorem reads_entry : Reads readEntry fun entry front =>
    ∃ mark, front = mark :: entryBytes entry ∧ (mark = 0 ↔ entry = none) := by
  have hentry (mark : Nat) : Reads
      (if mark = 0 then pure none else do return some (.ofNat (← readWord 4)) : Reader (Option UInt32))
      fun entry front => front = entryBytes entry ∧ (mark = 0 ↔ entry = none) := by
    by_cases hmark : mark = 0
    · rw [if_pos hmark]
      refine (reads_pure none).congr ?_
      intro entry front
      cases entry <;> simp [hmark, entryBytes]
    · rw [if_neg hmark]
      refine (reads_address.bind fun address => reads_pure (some (UInt32.ofNat address))).congr ?_
      intro entry front
      constructor
      · rintro ⟨address, one, two, rfl, ⟨w, rfl, rfl⟩, rfl, rfl⟩
        simp [hmark, entryBytes]
      · rintro ⟨rfl, hnone⟩
        obtain ⟨w, rfl⟩ := Option.ne_none_iff_exists'.mp (mt hnone.mpr hmark)
        exact ⟨w.toNat, _, [], (List.append_nil _).symm, ⟨w, rfl, rfl⟩, rfl, by simp⟩
  refine (reads_byte.bind hentry).congr ?_
  intro entry front
  constructor
  · rintro ⟨mark, one, two, rfl, ⟨b, rfl, rfl⟩, rfl, hmark⟩
    exact ⟨b, rfl, by rw [← hmark, ← UInt8.toNat_inj]; rfl⟩
  · rintro ⟨mark, rfl, hmark⟩
    exact ⟨mark.toNat, [mark], _, rfl, ⟨mark, rfl, rfl⟩, rfl, by rw [← hmark, ← UInt8.toNat_inj]; rfl⟩

/-- What a blob is made of, beside the header and the counts. -/
structure Sections where
  words : List (List UInt8)
  code : List UInt8
  imports : List UInt8
  exports : List UInt8
  mark : UInt8
  entry : List UInt8

namespace Sections

def bytes (s : Sections) : List UInt8 :=
  magic ++ Bytes.ofNat 2 version
    ++ Bytes.ofNat 4 s.words.length ++ s.words.flatten
    ++ Bytes.ofNat 4 s.code.length ++ s.code
    ++ s.imports ++ s.exports ++ s.mark :: s.entry

/-- Only the words and the mark leave a choice. -/
structure Spells (s : Sections) (p : Program) : Prop where
  words : List.Forall₂ SpellsConstant p.constants.toList s.words
  words_lt : s.words.length < 0x100000000
  code : s.code = p.code.toList
  code_lt : s.code.length < 0x100000000
  imports : writeList writeImport p.imports = .ok s.imports
  imports_lt : p.imports.length < 0x100000000
  exports : writeList writeExport p.exports = .ok s.exports
  exports_lt : p.exports.length < 0x100000000
  mark : s.mark = 0 ↔ p.entry = none
  entry : s.entry = entryBytes p.entry

end Sections

theorem reads_program : Reads readProgram fun p front => ∃ s : Sections, front = s.bytes ∧ s.Spells p := by
  refine (reads_header.bind fun _ => (reads_list reads_constant).bind fun constants =>
    (reads_word 4).bind fun length => (reads_take length).bind fun code =>
    (reads_list reads_import).bind fun imports => (reads_list reads_export).bind fun exports =>
    reads_entry.bind fun entry =>
    reads_pure (Program.mk code.toArray constants.toArray imports exports entry)).congr ?_
  simp only [spellsList_writeList]
  intro p front
  constructor
  · rintro ⟨-, header, behindHeader, rfl, rfl, constants, constantPart, behindConstants, rfl,
      ⟨hwords_lt, words, hwords, rfl⟩, length, lengthPart, behindLength, rfl, ⟨hcode_lt, rfl⟩, code,
      codePart, behindCode, rfl, ⟨rfl, rfl⟩, imports, importPart, behindImports, rfl,
      ⟨himports_lt, himports⟩, exports, exportPart, behindExports, rfl, ⟨hexports_lt, hexports⟩, entry,
      entryPart, behindEntry, rfl, ⟨mark, rfl, hmark⟩, rfl, rfl⟩
    refine ⟨⟨words, codePart, importPart, exportPart, mark, entryBytes entry⟩, ?_, ?_⟩
    · simp [Sections.bytes, hwords.length_eq]
    · exact ⟨hwords, hwords.length_eq ▸ hwords_lt, rfl, hcode_lt, himports, himports_lt, hexports,
        hexports_lt, hmark, rfl⟩
  · rintro ⟨s, rfl, h⟩
    have hcount := h.words.length_eq
    refine ⟨(), _, _, ?_, rfl, p.constants.toList, _, _, rfl, ⟨hcount ▸ h.words_lt, s.words, h.words, rfl⟩,
      s.code.length, _, _, rfl, ⟨h.code_lt, rfl⟩, s.code, s.code, _, rfl, ⟨rfl, rfl⟩,
      p.imports, s.imports, _, rfl, ⟨h.imports_lt, h.imports⟩,
      p.exports, s.exports, _, rfl, ⟨h.exports_lt, h.exports⟩,
      p.entry, s.mark :: s.entry, [], (List.append_nil _).symm, ⟨s.mark, by rw [h.entry], h.mark⟩, rfl, ?_⟩
    · simp only [Sections.bytes, hcount, List.append_assoc]
    · rw [h.code]

theorem read_eq_ok {bytes : List UInt8} {p : Program} :
    read bytes = .ok p ↔
      (∃ s : Sections, bytes = s.bytes ∧ s.Spells p) ∧ (Walk.ofCode p.code).error = none := by
  have hprogram := reads_program bytes p []
  simp only [List.append_nil, exists_eq_left'] at hprogram
  rw [← hprogram]
  unfold read
  cases hread : readProgram bytes with
  | error e => simp [bind, Except.bind]
  | ok found =>
    obtain ⟨q, rest⟩ := found
    by_cases hrest : rest = []
    · by_cases hq : q = p
      · cases hwalk : (Walk.ofCode q.code).error <;>
          simp [bind, Except.bind, pure, Except.pure, hrest, hwalk, ← hq]
      · cases hwalk : (Walk.ofCode q.code).error <;>
          simp [bind, Except.bind, pure, Except.pure, hrest, hwalk, hq]
    · simp [bind, Except.bind, hrest]

end ScriptMachine.Blob
