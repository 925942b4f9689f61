import Mathlib
import ScriptMachine.Assembly
import ScriptMachine.Proofs.Bytes

/-!
# Linked code reads back

What is known about the way from drafted instructions to bytes and back. A walk over linked code
finds exactly the drafted instructions, each at its offset and with its target replaced by the offset
that the target stands for. Everything that reasons about the code of a program does so on the walk
and on the drafts, and never looks at a byte.
-/

namespace ScriptMachine

namespace Opcode

theorem ofByte?_toByte (op : Opcode) : ofByte? op.toByte = some op := by
  cases op <;> rfl

theorem toByte_of_ofByte? {byte : UInt8} {op : Opcode} (h : ofByte? byte = some op) :
    byte = op.toByte := by
  have htable : ∀ k : Fin all.length, UInt8.ofNat k = (all.get k).toByte := by decide
  rw [ofByte?, table, List.getElem?_toArray] at h
  obtain ⟨hlt, hget⟩ := List.getElem?_eq_some_iff.mp h
  have := htable ⟨byte.toNat, hlt⟩
  rw [← hget]
  simpa using this

theorem operandCount_le (op : Opcode) : op.operandCount ≤ 2 := by
  cases op <;> decide

theorem operandCount_of_hasTarget {op : Opcode} (h : op.hasTarget = true) : op.operandCount = 1 := by
  cases op <;> first | rfl | cases h

end Opcode

namespace Instruction

theorem length_encode (op : Opcode) (first second : UInt32) :
    (encode op first second).length = op.encodedLength := by
  have hcount := op.operandCount_le
  simp only [encode, Opcode.encodedLength, List.length_cons, List.length_flatMap, Bytes.length_ofNat,
    List.map_const', List.sum_replicate_nat, List.length_take]
  simp
  omega

theorem wordAt_append (before after : List UInt8) (word : UInt32) :
    wordAt (before ++ (Bytes.ofNat 4 word.toNat ++ after)).toArray before.length = word := by
  have hbyte (i : Nat) : (before ++ (Bytes.ofNat 4 word.toNat ++ after)).toArray.getD (before.length + i) 0
      = (Bytes.ofNat 4 word.toNat ++ after).getD i 0 := by
    simp [Array.getD_eq_getD_getElem?, List.getElem?_append_right]
  have hword := Bytes.toNat_ofNat 4 word.toNat
  rw [Nat.mod_eq_of_lt (by have := word.toNat_lt; omega)] at hword
  simp only [wordAt, hbyte]
  simp only [Bytes.ofNat, Bytes.toNat, List.cons_append, List.nil_append, List.getD_cons_zero, List.getD_cons_succ] at hword ⊢
  apply UInt32.toNat_inj.mp
  rw [UInt32.toNat_ofNat']
  have := word.toNat_lt
  omega

/-- The instruction that is read where one was written: operands that are not encoded read as zero. -/
def read (offset : Nat) (op : Opcode) (first second : UInt32) : Instruction :=
  ⟨offset, op, if 1 ≤ op.operandCount then first else 0, if 2 ≤ op.operandCount then second else 0⟩

theorem encode_of_one {op : Opcode} (h : 1 ≤ op.operandCount) (first second : UInt32) :
    ∃ rest, encode op first second = op.toByte :: (Bytes.ofNat 4 first.toNat ++ rest) := by
  obtain ⟨n, hn⟩ := Nat.exists_eq_add_of_le' h
  refine ⟨([second].take n).flatMap fun operand => Bytes.ofNat 4 operand.toNat, ?_⟩
  simp [encode, hn]

theorem encode_of_two {op : Opcode} (h : 2 ≤ op.operandCount) (first second : UInt32) :
    ∃ rest, encode op first second =
      op.toByte :: (Bytes.ofNat 4 first.toNat ++ (Bytes.ofNat 4 second.toNat ++ rest)) := by
  obtain ⟨n, hn⟩ := Nat.exists_eq_add_of_le' h
  refine ⟨[], ?_⟩
  simp [encode, hn]

theorem decodeAt_encode (before after : List UInt8) (op : Opcode) (first second : UInt32) :
    decodeAt (before ++ (encode op first second ++ after)).toArray before.length
      = .ok (read before.length op first second) := by
  have hbyte : (before ++ (encode op first second ++ after)).toArray[before.length]? = some op.toByte := by
    simp [encode]
  have hfirst (h : 1 ≤ op.operandCount) :
      wordAt (before ++ (encode op first second ++ after)).toArray (before.length + 1) = first := by
    obtain ⟨rest, hrest⟩ := encode_of_one h first second
    have := wordAt_append (before ++ [op.toByte]) (rest ++ after) first
    simpa [hrest] using this
  have hsecond (h : 2 ≤ op.operandCount) :
      wordAt (before ++ (encode op first second ++ after)).toArray (before.length + 5) = second := by
    obtain ⟨rest, hrest⟩ := encode_of_two h first second
    have := wordAt_append (before ++ op.toByte :: Bytes.ofNat 4 first.toNat) (rest ++ after) second
    simpa [hrest] using this
  have hroom : ¬ (before ++ (encode op first second ++ after)).toArray.size
      < before.length + op.encodedLength := by
    simp [length_encode]
  rw [decodeAt, hbyte]
  simp only [Opcode.ofByte?_toByte, if_neg hroom, read]
  congr 2
  · split
    · exact hfirst ‹_›
    · rfl
  · split
    · exact hsecond ‹_›
    · rfl

/-- What it takes to read an instruction: its operation stands at the place, and none of its bytes is
missing. -/
theorem decodeAt_eq_ok {code : Array UInt8} {offset : Nat} {i : Instruction}
    (h : decodeAt code offset = .ok i) :
    code[offset]? = some i.op.toByte ∧ offset + i.op.encodedLength ≤ code.size ∧
      i = read offset i.op (wordAt code (offset + 1)) (wordAt code (offset + 5)) := by
  unfold decodeAt at h
  split at h
  · cases h
  · rename_i byte hbyte
    split at h
    · cases h
    · rename_i op hop
      split at h
      · cases h
      · rename_i hroom
        cases h
        exact ⟨by rw [hbyte, Opcode.toByte_of_ofByte? hop], Nat.not_lt.mp hroom, rfl⟩

theorem byte_of_decodeAt {code : Array UInt8} {offset : Nat} {i : Instruction}
    (h : decodeAt code offset = .ok i) : code[offset]? = some i.op.toByte :=
  (decodeAt_eq_ok h).1

theorem offset_of_decodeAt {code : Array UInt8} {offset : Nat} {i : Instruction}
    (h : decodeAt code offset = .ok i) : i.offset = offset ∧ offset < code.size := by
  obtain ⟨hbyte, -, hread⟩ := decodeAt_eq_ok h
  exact ⟨congrArg Instruction.offset hread, (Array.getElem?_eq_some_iff.mp hbyte).1⟩

end Instruction

namespace Walk

theorem go_of_size_le {code : Array UInt8} {fuel offset : Nat} (h : code.size ≤ offset) :
    go code fuel offset = ⟨[], none⟩ := by
  cases fuel with
  | zero => rfl
  | succ fuel => rw [go, if_pos h]

theorem go_of_decodeAt {code : Array UInt8} {fuel offset : Nat} {i : Instruction}
    (h : Instruction.decodeAt code offset = .ok i) :
    go code (fuel + 1) offset
      = ⟨i :: (go code fuel i.nextOffset).instructions, (go code fuel i.nextOffset).error⟩ := by
  have hlt := (Instruction.offset_of_decodeAt h).2
  rw [go, if_neg (by omega), h]

theorem decodeAt_of_mem_go {code : Array UInt8} {fuel offset : Nat} {i : Instruction}
    (h : i ∈ (go code fuel offset).instructions) : Instruction.decodeAt code i.offset = .ok i := by
  induction fuel generalizing offset with
  | zero => cases h
  | succ fuel ih =>
    rw [go] at h
    split at h
    · cases h
    · split at h
      · cases h
      · rename_i first hfirst
        rcases List.mem_cons.mp h with rfl | hrest
        · rw [(Instruction.offset_of_decodeAt hfirst).1]
          exact hfirst
        · exact ih hrest

/-- Each instruction begins where the one before it ends. -/
theorem isChain_go (code : Array UInt8) (fuel offset : Nat) :
    (go code fuel offset).instructions.IsChain (fun i j => j.offset = i.nextOffset) ∧
      ∀ i ∈ (go code fuel offset).instructions.head?, i.offset = offset := by
  induction fuel generalizing offset with
  | zero => simp [go]
  | succ fuel ih =>
    unfold go
    split
    · simp
    · cases hdecode : Instruction.decodeAt code offset with
      | error e => simp
      | ok i =>
        obtain ⟨hchain, hhead⟩ := ih i.nextOffset
        simp only [List.head?_cons, Option.mem_def, Option.some.injEq, forall_eq']
        exact ⟨List.isChain_cons.mpr ⟨fun j hj => hhead j hj, hchain⟩,
          (Instruction.offset_of_decodeAt hdecode).1⟩

theorem isChain (code : Array UInt8) :
    (ofCode code).instructions.IsChain fun i j => j.offset = i.nextOffset :=
  (isChain_go code code.size 0).1

/-- Every instruction of a walk can be read at its own offset. -/
theorem decodeAt_of_mem {code : Array UInt8} {i : Instruction} (h : i ∈ (ofCode code).instructions) :
    Instruction.decodeAt code i.offset = .ok i :=
  decodeAt_of_mem_go h

end Walk

namespace Draft

/-- The instruction that a draft becomes at an offset. -/
def placed (offsets : List Nat) (offset : Nat) (draft : Draft) : Instruction :=
  .read offset draft.op
    (if draft.op.hasTarget then .ofNat (offsets.getD draft.first.toNat 0) else draft.first)
    draft.second

theorem nextOffset_placed (offsets : List Nat) (offset : Nat) (draft : Draft) :
    (draft.placed offsets offset).nextOffset = offset + draft.length :=
  rfl

@[simp] theorem length_offsets (offset : Nat) (drafts : List Draft) :
    (offsets offset drafts).length = drafts.length + 1 := by
  induction drafts generalizing offset with
  | nil => rfl
  | cons draft rest ih => simp [offsets, ih]

theorem getLastD_offsets (offset : Nat) (drafts : List Draft) :
    (offsets offset drafts).getLastD 0 = offset + (drafts.map length).sum := by
  induction drafts generalizing offset with
  | nil => simp [offsets]
  | cons draft rest ih =>
    have hrest := ih (offset + draft.length)
    rw [offsets, List.map_cons, List.sum_cons, ← Nat.add_assoc, ← hrest]
    cases rest <;> simp [offsets]

/-- A resolved draft has its operands as they are written into the code. -/
theorem read_of_resolve {table : Array Nat} {draft d : Draft} (h : draft.resolve table = .ok d)
    (offset : Nat) :
    Instruction.read offset d.op d.first d.second = draft.placed table.toList offset := by
  unfold resolve at h
  split at h
  · rename_i htarget
    split at h
    · rename_i target hget
      cases h
      simp [placed, htarget, hget]
    · cases h
  · rename_i htarget
    cases h
    simp [placed, htarget]

theorem offsets_succ (start : Nat) {k : Nat} {drafts : List Draft} {draft : Draft}
    (h : drafts[k]? = some draft) :
    (offsets start drafts).getD (k + 1) 0 = (offsets start drafts).getD k 0 + draft.length := by
  induction drafts generalizing start k with
  | nil => cases h
  | cons first rest ih =>
    cases k with
    | zero =>
      cases h
      cases rest <;> rfl
    | succ k => exact ih _ h

theorem le_of_mem_offsets {start offset : Nat} {drafts : List Draft}
    (h : offset ∈ offsets start drafts) : start ≤ offset ∧ offset ≤ start + (drafts.map length).sum := by
  induction drafts generalizing start with
  | nil =>
    rw [offsets, List.mem_singleton] at h
    simp [h]
  | cons first rest ih =>
    rw [List.map_cons, List.sum_cons]
    rcases List.mem_cons.mp h with rfl | hrest
    · omega
    · have := ih hrest
      omega

theorem length_pos (draft : Draft) : 0 < draft.length := by
  simp [length, Opcode.encodedLength]

theorem length_le_sum (drafts : List Draft) : drafts.length ≤ (drafts.map length).sum := by
  induction drafts with
  | nil => simp
  | cons first rest ih =>
    have := first.length_pos
    simp only [List.length_cons, List.map_cons, List.sum_cons]
    omega

theorem assemble_cons {table : Array Nat} {position : Nat} {draft : Draft} {rest : List Draft}
    {code : List UInt8} (h : assemble table position (draft :: rest) = .ok code) :
    ∃ d bytes, draft.resolve table = .ok d ∧ assemble table (position + 1) rest = .ok bytes ∧
      code = Instruction.encode d.op d.first d.second ++ bytes := by
  rw [assemble] at h
  split at h
  · cases h
  · rename_i d hd
    split at h
    · cases h
    · rename_i bytes hbytes
      cases h
      exact ⟨d, bytes, hd, hbytes, rfl⟩

theorem op_of_resolve {table : Array Nat} {draft d : Draft} (h : draft.resolve table = .ok d) :
    d.op = draft.op :=
  congrArg Instruction.op (read_of_resolve h 0)

/-- A walk over assembled drafts finds each of them at its offset. -/
theorem go_assemble {table : Array Nat} {position : Nat} {drafts : List Draft} {code : List UInt8}
    (h : assemble table position drafts = .ok code) (before : List UInt8) (fuel : Nat)
    (hfuel : code.length ≤ fuel) :
    Walk.go (before ++ code).toArray fuel before.length
      = ⟨List.zipWith (placed table.toList) (offsets before.length drafts) drafts, none⟩ := by
  induction drafts generalizing position code before fuel with
  | nil =>
    cases h
    exact Walk.go_of_size_le (by simp)
  | cons draft rest ih =>
    obtain ⟨d, bytes, hd, hbytes, rfl⟩ := assemble_cons h
    have hread := read_of_resolve hd before.length
    have hdecode := Instruction.decodeAt_encode before bytes d.op d.first d.second
    rw [hread] at hdecode
    have hlength : (before ++ Instruction.encode d.op d.first d.second).length
        = before.length + draft.length := by
      rw [List.length_append, Instruction.length_encode, op_of_resolve hd, length]
    have hpos := draft.length_pos
    rw [List.length_append] at hfuel hlength
    obtain ⟨fuel, rfl⟩ : ∃ n, fuel = n + 1 := ⟨fuel - 1, by omega⟩
    have hrest := ih hbytes (before ++ Instruction.encode d.op d.first d.second) fuel
      (by omega)
    rw [List.append_assoc, List.length_append, hlength] at hrest
    rw [Walk.go_of_decodeAt hdecode, nextOffset_placed, hrest, offsets, List.zipWith_cons_cons]

end Draft

namespace Assembly

theorem link_eq_ok {a : Assembly} {linked : Linked} (h : a.link = .ok linked) :
    linked.offsets = Draft.offsets 0 a.drafts.toList ∧
      (a.drafts.toList.map Draft.length).sum ≤ maxCodeLength ∧
      Draft.assemble linked.offsets.toArray 0 a.drafts.toList = .ok linked.code := by
  rw [link] at h
  split at h
  · cases h
  · rename_i hlarge
    split at h
    · cases h
    · rename_i code hcode
      cases h
      rw [Draft.getLastD_offsets] at hlarge
      exact ⟨rfl, by omega, hcode⟩

/-- A walk over linked code finds every draft at its offset, and nothing else. -/
theorem walk_link {a : Assembly} {linked : Linked} (h : a.link = .ok linked) :
    Walk.ofCode linked.code.toArray
      = ⟨List.zipWith (Draft.placed linked.offsets) linked.offsets a.drafts.toList, none⟩ := by
  obtain ⟨hoffsets, -, hcode⟩ := link_eq_ok h
  have hgo := Draft.go_assemble hcode [] _ (Nat.le_refl _)
  simpa [Walk.ofCode, hoffsets] using hgo

/-! ### Positions of a draft and instructions of its code -/

/-- The instruction at a position of linked code. -/
theorem walk_getElem? {a : Assembly} {linked : Linked} (h : a.link = .ok linked) (k : Nat) :
    (Walk.ofCode linked.code.toArray).instructions[k]?
      = a.drafts[k]?.map (Draft.placed linked.offsets (linked.offsets.getD k 0)) := by
  have hlength : linked.offsets.length = a.drafts.toList.length + 1 := by
    rw [(link_eq_ok h).1, Draft.length_offsets]
  rw [walk_link h, List.getElem?_zipWith, Array.getElem?_toList]
  cases hdraft : a.drafts[k]? with
  | none => cases linked.offsets[k]? <;> rfl
  | some draft =>
    obtain ⟨hlt, -⟩ := Array.getElem?_eq_some_iff.mp hdraft
    have hoffset : k < linked.offsets.length := by simp [hlength]; omega
    simp [List.getElem?_eq_getElem hoffset]

theorem offset_lt {a : Assembly} {linked : Linked} (h : a.link = .ok linked) {k : Nat} :
    linked.offsets.getD k 0 < 0x100000000 := by
  obtain ⟨hoffsets, hsize, -⟩ := link_eq_ok h
  have hmax : maxCodeLength = 0xffffffff := rfl
  rw [hoffsets]
  rcases Nat.lt_or_ge k (Draft.offsets 0 a.drafts.toList).length with hlt | hge
  · rw [List.getD_eq_getElem _ _ hlt]
    have := Draft.le_of_mem_offsets (List.getElem_mem hlt)
    omega
  · rw [List.getD_eq_default _ _ hge]
    omega

theorem size_lt {a : Assembly} {linked : Linked} (h : a.link = .ok linked) :
    a.drafts.size < 0x100000000 := by
  obtain ⟨-, hsize, -⟩ := link_eq_ok h
  have hmax : maxCodeLength = 0xffffffff := rfl
  have := Draft.length_le_sum a.drafts.toList
  simp at this
  omega

end Assembly

namespace Linked

/-- The instruction that a draft becomes at a position of linked code. -/
def placed (linked : Linked) (position : Nat) (draft : Draft) : Instruction :=
  draft.placed linked.offsets (linked.offsets.getD position 0)

theorem walk_eq_mapIdx {a : Assembly} {linked : Linked} (h : a.link = .ok linked) :
    Walk.ofCode linked.code.toArray = ⟨a.drafts.toList.mapIdx linked.placed, none⟩ := by
  rw [Assembly.walk_link h, Walk.mk.injEq]
  refine ⟨List.ext_getElem? fun k => ?_, rfl⟩
  have hwalk := Assembly.walk_getElem? h k
  rw [Assembly.walk_link h] at hwalk
  rw [hwalk, List.getElem?_mapIdx, Array.getElem?_toList]
  rfl

@[simp] theorem op_placed (linked : Linked) (position : Nat) (draft : Draft) :
    (linked.placed position draft).op = draft.op :=
  rfl

theorem first_placed (linked : Linked) (position : Nat) {op : Opcode} (first second : UInt32)
    (hcount : 1 ≤ op.operandCount) (htarget : op.hasTarget = false) :
    (linked.placed position ⟨op, first, second⟩).first = first := by
  simp [placed, Draft.placed, Instruction.read, hcount, htarget]

theorem second_placed (linked : Linked) (position : Nat) {op : Opcode} (first second : UInt32)
    (hcount : 2 ≤ op.operandCount) : (linked.placed position ⟨op, first, second⟩).second = second := by
  simp [placed, Draft.placed, Instruction.read, hcount]

/-- A target becomes the offset of its position. -/
theorem target_placed {a : Assembly} {linked : Linked} (h : a.link = .ok linked) (position : Nat)
    {op : Opcode} {target : Nat} (second : UInt32) (htarget : op.hasTarget = true)
    (hlt : target < 0x100000000) :
    (linked.placed position ⟨op, .ofNat target, second⟩).first.toNat = linked.offsets.getD target 0 := by
  have hoffset := Assembly.offset_lt h (k := target)
  simp only [placed, Draft.placed, Instruction.read, htarget, if_true,
    Opcode.operandCount_of_hasTarget htarget, Nat.le_refl, UInt32.toNat_ofNat']
  rw [Nat.mod_eq_of_lt (a := target) (by omega), Nat.mod_eq_of_lt (by omega)]

/-- The instruction behind another one is the one at the next position. -/
theorem nextOffset_placed {a : Assembly} {linked : Linked} (h : a.link = .ok linked) {position : Nat}
    {draft : Draft} (hdraft : a.drafts.toList[position]? = some draft) :
    (linked.placed position draft).nextOffset = linked.offsets.getD (position + 1) 0 := by
  rw [(Assembly.link_eq_ok h).1, Draft.offsets_succ 0 hdraft, ← (Assembly.link_eq_ok h).1]
  rfl

end Linked

/-! ### Parts that are filled in later -/

namespace Draft

/-- A part of a drafted instruction that may be open while the rest of the code is drafted. -/
inductive Part where
  | op
  | first
  | second
  deriving DecidableEq

def SameAt (draft other : Draft) : Part → Prop
  | .op => draft.op = other.op
  | .first => draft.first = other.first
  | .second => draft.second = other.second

theorem eq_of_sameAt {draft other : Draft} (h : ∀ part, draft.SameAt other part) : draft = other := by
  have hop : draft.op = other.op := h .op
  have hfirst : draft.first = other.first := h .first
  have hsecond : draft.second = other.second := h .second
  cases draft
  cases other
  simp_all

end Draft

namespace Assembly

theorem getElem?_emit (a : Assembly) (op : Opcode) (first second : UInt32) (k : Nat) :
    (a.emit op first second).drafts[k]? = if k = a.next then some ⟨op, first, second⟩ else a.drafts[k]? :=
  Array.getElem?_push

theorem getElem?_replace (a : Assembly) (position : Nat) (draft : Draft) (k : Nat) :
    (a.replace position draft).drafts[k]?
      = a.drafts[k]?.map fun d => if k = position then draft else d := by
  rw [replace, Array.getElem?_setIfInBounds]
  by_cases hk : position = k
  · subst hk
    rcases Nat.lt_or_ge position a.drafts.size with hlt | hge
    · simp [hlt]
    · simp [Nat.not_lt.mpr hge]
  · simp [hk, Ne.symm hk]

theorem getElem?_patch (a : Assembly) (position slot : Nat) (value : UInt32) (k : Nat) :
    (a.patch position slot value).drafts[k]? = a.drafts[k]?.map fun d =>
      if k = position then
        ⟨d.op, if slot = 0 then value else d.first, if slot = 1 then value else d.second⟩
      else d := by
  rw [patch, Array.getElem?_modify]
  by_cases hk : position = k
  · subst hk
    rcases slot with _ | _ | slot <;> simp
  · simp [hk, Ne.symm hk]

/-- The ways to draft `code`. Its instructions are emitted in order, each with any of its parts left
open, and an open part may be filled in at any time after; `missing` are the parts that are open, with
the positions of their instructions. -/
inductive Drafting (code : List Draft) : List (Nat × Draft.Part) → Assembly → Prop
  | start : Drafting code [] empty
  | emit {missing : List (Nat × Draft.Part)} {a : Assembly} {final : Draft}
      (h : Drafting code missing a) (hcode : code[a.next]? = some final) (draft : Draft)
      (parts : List Draft.Part) (hparts : ∀ part ∉ parts, draft.SameAt final part) :
      Drafting code (missing ++ parts.map (a.next, ·)) (a.emit draft.op draft.first draft.second)
  | first {missing : List (Nat × Draft.Part)} {a : Assembly} {position : Nat} {final : Draft}
      (h : Drafting code missing a) (hcode : code[position]? = some final) :
      Drafting code (missing.filter (· ≠ (position, .first))) (a.patch position 0 final.first)
  | second {missing : List (Nat × Draft.Part)} {a : Assembly} {position : Nat} {final : Draft}
      (h : Drafting code missing a) (hcode : code[position]? = some final) :
      Drafting code (missing.filter (· ≠ (position, .second))) (a.patch position 1 final.second)
  | replace {missing : List (Nat × Draft.Part)} {a : Assembly} {position : Nat} {final : Draft}
      (h : Drafting code missing a) (hcode : code[position]? = some final) :
      Drafting code (missing.filter (·.1 ≠ position)) (a.replace position final)

namespace Drafting

variable {code : List Draft} {missing : List (Nat × Draft.Part)} {a : Assembly}

/-- An open target is filled in by pointing it at the position it has in `code`. -/
theorem bind {position target : Nat} {final : Draft} (h : Drafting code missing a)
    (hcode : code[position]? = some final) (htarget : final.first = .ofNat target) :
    Drafting code (missing.filter (· ≠ (position, .first))) (a.bind position target) := by
  rw [Assembly.bind, ← htarget]
  exact h.first hcode

/-- A change at one position is judged by what it makes of the instruction there. -/
theorem sameAt_change {old : Option Draft} {change : Draft → Draft} {k position : Nat}
    {draft final : Draft} {part : Draft.Part}
    (hdraft : (old.map fun d => if k = position then change d else d) = some draft)
    (hthere : ∀ d, old = some d → k = position → (change d).SameAt final part)
    (helse : ∀ d, old = some d → k ≠ position → d.SameAt final part) : draft.SameAt final part := by
  obtain ⟨d, hd, rfl⟩ := Option.map_eq_some_iff.mp hdraft
  split
  · rename_i hk
    exact hthere d hd hk
  · rename_i hk
    exact helse d hd hk

/-- What is not open is as in `code`, at every moment of the drafting. -/
theorem sameAt (h : Drafting code missing a) {k : Nat} {draft final : Draft}
    (hdraft : a.drafts[k]? = some draft) (hfinal : code[k]? = some final) {part : Draft.Part}
    (hpart : (k, part) ∉ missing) : draft.SameAt final part := by
  induction h generalizing draft with
  | start => cases hdraft
  | emit _ hcode emitted parts hparts ih =>
    rw [List.mem_append, not_or] at hpart
    rw [getElem?_emit] at hdraft
    split at hdraft
    · rename_i hk
      subst hk
      cases hdraft
      cases hcode.symm.trans hfinal
      exact hparts part fun hmem => hpart.2 (List.mem_map_of_mem hmem)
    · exact ih hdraft hpart.1
  | first _ hcode ih =>
    rw [getElem?_patch] at hdraft
    refine sameAt_change hdraft (fun d hd hk => ?_) fun d hd hk => ih hd (by simpa [hk] using hpart)
    subst hk
    cases hcode.symm.trans hfinal
    by_cases hfirst : part = .first
    · subst hfirst
      rfl
    · have hsame := ih hd (by simpa [hfirst] using hpart)
      cases part <;> first | exact hsame | exact absurd rfl hfirst
  | second _ hcode ih =>
    rw [getElem?_patch] at hdraft
    refine sameAt_change hdraft (fun d hd hk => ?_) fun d hd hk => ih hd (by simpa [hk] using hpart)
    subst hk
    cases hcode.symm.trans hfinal
    by_cases hsecond : part = .second
    · subst hsecond
      rfl
    · have hsame := ih hd (by simpa [hsecond] using hpart)
      cases part <;> first | exact hsame | exact absurd rfl hsecond
  | replace _ hcode ih =>
    rw [getElem?_replace] at hdraft
    refine sameAt_change hdraft (fun d _ hk => ?_) fun d hd hk => ih hd (by simpa [hk] using hpart)
    subst hk
    cases hcode.symm.trans hfinal
    cases part <;> rfl

/-- When all of `code` is emitted and nothing is open, the draft is `code`: it does not matter in which
order targets were bound and stand-ins replaced. -/
theorem eq_mk (h : Drafting code [] a) (hnext : a.next = code.length) : a = ⟨code.toArray⟩ := by
  have hdrafts : a.drafts = code.toArray := by
    refine Array.ext (by simpa [next] using hnext) fun k hk hk' => ?_
    have hlt : k < code.length := by simpa using hk'
    rw [List.getElem_toArray]
    exact Draft.eq_of_sameAt fun part => h.sameAt (Array.getElem?_eq_getElem hk)
      (List.getElem?_eq_getElem hlt) List.not_mem_nil
  rw [← hdrafts]

end Drafting

/-- A jump over one instruction, which is bound when the instruction behind it is next. -/
example : (((empty.emit .jumpIfFalse).emit .pop1).bind 0 2).drafts
    = #[⟨.jumpIfFalse, 2, 0⟩, ⟨.pop1, 0, 0⟩] := by
  decide

end Assembly

end ScriptMachine
