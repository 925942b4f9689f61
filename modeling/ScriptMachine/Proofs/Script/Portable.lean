import Mathlib
import ScriptMachine.Proofs.Relocation
import ScriptMachine.Proofs.RoundTrip
import ScriptMachine.Proofs.Script.WellFormed

/-!
# Compiled programs fit a blob

The widths of a blob are kept from the side of the compilation: names are measured where they enter
it, as imports, as offers and as functions, and arrays are measured by the constant pool. Drafting
code only moves names from the offers to the imports and adds constants through the pool, so that the
bounds last to the end; the size of the code is bounded by the linker.
-/

namespace ScriptMachine

namespace ConstantPool

/-- Every constant of the pool keeps to the limits of a packed word. -/
def Packable (pool : ConstantPool) : Prop :=
  ∀ v ∈ pool.values.toList, v.Packable

variable {pool pool' : ConstantPool} {index : Nat}

theorem Packable.append (h : pool.Packable) (added : List Value) (hadded : ∀ v ∈ added, v.Packable)
    (hvalues : pool'.values.toList = pool.values.toList ++ added) : pool'.Packable := by
  rw [Packable, hvalues, List.forall_mem_append]
  exact ⟨h, hadded⟩

theorem Packable.push {value : Value} (h : pool.Packable) (hvalue : value.Packable)
    (hvalues : pool'.values = pool.values.push value) : pool'.Packable := by
  apply h.append [value] (List.forall_mem_singleton.mpr hvalue)
  rw [hvalues, Array.toList_push]

theorem Packable.insert {value : Value} (h : pool.Packable)
    (hinsert : pool.insert? value = some (index, pool')) (hvalue : value.Packable) : pool'.Packable := by
  unfold insert? at hinsert
  split at hinsert
  · cases hinsert
    exact h
  · obtain ⟨-, -, hvalues⟩ := push?_ok hinsert
    exact h.push hvalue hvalues

theorem packable_runValue {start count : Nat} (hstart : start ≤ maxOffset)
    (hcount : count ≤ maxArrayLength) : (runValue start count).Packable := by
  have hlength : (UInt32.ofNat count).toNat ≤ count := by
    rw [UInt32.toNat_ofNat']
    exact Nat.mod_le _ _
  have hoffset : (UInt32.ofNat start).toNat ≤ start := by
    rw [UInt32.toNat_ofNat']
    exact Nat.mod_le _ _
  refine ⟨hlength.trans hcount, ?_⟩
  by_cases hzero : count = 0
  · rw [if_pos hzero]
    exact Nat.zero_le _
  · rw [if_neg hzero]
    exact hoffset.trans hstart

theorem Packable.insertText {text : String} (h : pool.Packable)
    (hinsert : pool.insertText? text = some (index, pool')) : pool'.Packable := by
  obtain ⟨rfl, -⟩ | ⟨-, hlength, filled, hfilled, hpush⟩ := insertArray?_cases hinsert
  · exact h
  · obtain ⟨-, hroom, hvalues⟩ := push?_ok hpush
    obtain ⟨hlist, -⟩ := pushAll?_ok hfilled
    have hstart : pool.size ≤ filled.size := Grows.size_le ⟨_, hlist.symm⟩
    have hchars : ∀ v ∈ text.toList.map Value.char, v.Packable := by
      intro v hv
      obtain ⟨c, -, rfl⟩ := List.mem_map.mp hv
      trivial
    exact (h.append _ hchars hlist).push (packable_runValue (hstart.trans hroom) hlength) hvalues

end ConstantPool

namespace Compilation

open Outcome

/-- What a compilation knows keeps to the widths of a blob. -/
structure Portable (c : Compilation) : Prop where
  constants : c.constants.Packable
  imports : ∀ m ∈ c.imports, m.entry.name.utf8ByteSize ≤ maxNameLength
  offered : ∀ offer ∈ c.offered, offer.name.utf8ByteSize ≤ maxNameLength
  functions : ∀ f ∈ c.functions, f.name.utf8ByteSize ≤ maxNameLength

variable {c c' : Compilation} {name : String}

/-! ### Where names enter -/

theorem Portable.import {m : KnownImport} (h : c.Portable)
    (hname : m.entry.name.utf8ByteSize ≤ maxNameLength) : { c with imports := c.imports ++ [m] }.Portable := by
  refine { h with imports := ?_ }
  rw [List.forall_mem_append]
  exact ⟨h.imports, List.forall_mem_singleton.mpr hname⟩

theorem name_le_of_addImport {arity : Nat} {span : Option Span} {u : Unit}
    (h : addImport name arity span c = .ok u c') : name.utf8ByteSize ≤ maxNameLength := by
  by_contra hlong
  simp only [addImport, if_pos (Nat.not_le.mp hlong)] at h
  split at h <;> cases h

theorem name_le_of_offerNative {arity : UInt8} {kind : NativeKind} {u : Unit}
    (h : offerNative name arity kind c = .ok u c') : name.utf8ByteSize ≤ maxNameLength := by
  by_contra hlong
  simp only [offerNative, if_pos (Nat.not_le.mp hlong)] at h
  split at h <;> cases h

theorem name_le_of_declareFunction {span : Span} {parameters : List String} {body : Node} {u : Unit}
    (h : declareFunction span name parameters body c = .ok u c') : name.utf8ByteSize ≤ maxNameLength := by
  unfold declareFunction at h
  obtain ⟨_, d, hget, hrun⟩ := bind_eq_ok.mp h
  obtain ⟨-, hrun⟩ := guard_eq_ok.mp hrun
  obtain ⟨hname, -⟩ := guard_eq_ok.mp hrun
  exact Nat.not_lt.mp hname

theorem Portable.addImport {arity : Nat} {span : Option Span} {u : Unit} (hc : c.Portable)
    (h : addImport name arity span c = .ok u c') : c'.Portable := by
  rw [addImport_ok h]
  exact hc.import (name_le_of_addImport h)

theorem Prepared.portable (h : Prepared c) : c.Portable := by
  induction h with
  | start => exact ⟨by simp [ConstantPool.Packable, ConstantPool.empty], by simp, by simp, by simp⟩
  | declare hc h ih => exact ih.addImport h
  | offer hc h ih =>
    rw [offerNative_ok h]
    refine { ih with offered := ?_ }
    rw [List.forall_mem_append]
    exact ⟨ih.offered, List.forall_mem_singleton.mpr (name_le_of_offerNative h)⟩

/-! ### Drafting -/

theorem Portable.of_locals (h : c.Portable) (hc' : c' = { c with locals := c'.locals }) : c'.Portable := by
  rw [hc']
  exact { h with }

theorem Portable.targetSlot {target : Node} {slot : Nat} (h : c.Portable)
    (hslot : targetSlot target c = .ok slot c') : c'.Portable := by
  unfold Compilation.targetSlot at hslot
  split at hslot
  · exact h.of_locals (declareLocal_ok hslot).2.2
  · obtain ⟨rfl, -⟩ := findLocal_ok hslot
    exact h
  · exact absurd hslot throw_ne_ok

theorem Portable.insert {insert : Insertion} {n : Node} {index : Nat} {pool : ConstantPool} (h : c.Portable)
    (hn : Literal n insert) (hinsert : insert c.constants = some (index, pool)) :
    { c with constants := pool }.Portable := by
  refine { h with constants := ?_ }
  cases hn with
  | number span value => exact h.constants.insert hinsert trivial
  | bool span value => exact h.constants.insert hinsert trivial
  | text span value => exact h.constants.insertText hinsert

theorem Portable.acceptOffer (h : c.Portable) (name : String) : (c.acceptOffer name).Portable := by
  unfold Compilation.acceptOffer
  split
  · exact h
  · rename_i offer hoffer
    have hname := h.offered offer (List.mem_of_find?_eq_some hoffer)
    refine { h.import (m := ⟨⟨offer.name, offer.arity⟩, some offer.kind⟩) hname with offered := ?_ }
    intro other hother
    exact h.offered other (List.mem_filter.mp hother).1

theorem Portable.resolveImport {found : Option (Nat × KnownImport)} (h : c.Portable)
    (hfound : resolveImport name c = .ok found c') : c'.Portable := by
  unfold Compilation.resolveImport at hfound
  split at hfound
  · cases hfound
    exact h
  · cases hfound
    exact h.acceptOffer name

theorem Portable.callItem {span : Span} {arguments : Nat} {item : Item} (h : c.Portable)
    (hitem : callItem span name arguments c = .ok item c') : c'.Portable := by
  unfold Compilation.callItem at hitem
  obtain ⟨found, d, hfound, hitem⟩ := bind_eq_ok.mp hitem
  have hd := h.resolveImport hfound
  cases found with
  | some found =>
    obtain ⟨_, e, hcheck, hitem⟩ := bind_eq_ok.mp hitem
    obtain ⟨rfl, -⟩ := checkArity_ok hcheck
    obtain ⟨rfl, rfl⟩ := pure_eq_ok.mp hitem
    exact hd
  | none =>
    obtain ⟨_, e, hget, hitem⟩ := bind_eq_ok.mp hitem
    obtain ⟨rfl, rfl⟩ := get_eq_ok.mp hget
    cases hfunction : d.findFunction? name with
    | some function =>
      simp only [hfunction] at hitem
      obtain ⟨_, e, hcheck, hitem⟩ := bind_eq_ok.mp hitem
      obtain ⟨rfl, -⟩ := checkArity_ok hcheck
      obtain ⟨rfl, rfl⟩ := pure_eq_ok.mp hitem
      exact hd
    | none =>
      simp only [hfunction] at hitem
      obtain ⟨_, e, hmodify, hitem⟩ := bind_eq_ok.mp hitem
      obtain rfl := modify_eq_ok.mp hmodify
      obtain ⟨rfl, rfl⟩ := pure_eq_ok.mp hitem
      exact { hd with }

theorem Drafted.portable {l : Bool} {p : Nat} {part : Part} {code : Code} (h : Drafted l p part c code c')
    (hc : c.Portable) : c'.Portable := by
  induction h with
  | literal hn hinsert => exact hc.insert hn hinsert
  | declare hslot => exact hc.of_locals (declareLocal_ok hslot).2.2
  | array helements hinsert ih =>
    have hd := ih hc
    exact { hd with constants := hd.constants.insert hinsert trivial }
  | lastBranch htest hbody hnext ihtest ihbody => exact ihbody (ihtest hc)
  | branch htest hbody hnext hrest ihtest ihbody ihrest => exact ihrest (ihbody (ihtest hc))
  | forEach helements hslot hbody ihelements ihbody =>
    exact ihbody ((ihelements hc).of_locals (declareLocal_ok hslot).2.2)
  | binary hright hleft ihright ihleft => exact ihleft (ihright hc)
  | assign hvalue hslot ih => exact (ih hc).targetSlot hslot
  | call hname harguments hitem ih => exact (ih hc).callItem hitem
  | nodesCons hfirst hrest ihfirst ihrest => exact ihrest (ihfirst hc)
  | statementsCons hfirst hrest ihfirst ihrest => exact ihrest (ihfirst hc)
  | block _ ih | unary _ ih | resultValue _ ih | intrinsic _ _ ih => exact ih hc
  | read _ | resultNothing | leave | nodesNil | statementsNil => exact hc

/-! ### Whole scripts -/

theorem Portable.function {span : Span} {parameters : List String} {body : Node} {u : Unit}
    (hc : c.Portable) (h : declareFunction span name parameters body c = .ok u c')
    (herrors : c'.errors = []) : c'.Portable := by
  obtain ⟨-, -, inner, d, hdrafted, -, -, rfl⟩ := declareFunction_ok h herrors
  have hentering : (c.entering name parameters).Portable := by
    refine { hc with functions := ?_ }
    rw [entering, List.forall_mem_append]
    exact ⟨hc.functions, List.forall_mem_singleton.mpr (name_le_of_declareFunction h)⟩
  exact { hdrafted.portable hentering with }

theorem Portable.declaration {n : Node} (hc : c.Portable) (hn : ∀ span items, n ≠ .block span items)
    (herrors : (declaration c n).errors = []) : (declaration c n).Portable := by
  obtain ⟨span, name, parameters, rfl, h⟩ | ⟨span, name, parameters, body, rfl, h⟩ :=
    declaration_cases hn herrors
  · exact hc.addImport h
  · exact hc.function h herrors

theorem Portable.foldl_declaration {items : List Node} (hc : c.Portable)
    (hitems : ∀ n ∈ items, ∀ span inner, n ≠ .block span inner)
    (herrors : (items.foldl Compilation.declaration c).errors = []) :
    (items.foldl Compilation.declaration c).Portable := by
  induction items using List.reverseRecOn with
  | nil => exact hc
  | append_singleton front last ih =>
    rw [List.foldl_append] at herrors ⊢
    have hlast := hitems last (by simp)
    have hfront := errors_of_declaration hlast herrors
    exact (ih (fun n hn => hitems n (by simp [hn])) hfront).declaration hlast herrors

theorem Layout.length_segments_lt {root : Node} {program : Program} {segments : List Segment}
    {linked : Linked} (h : Layout root program c segments linked) : segments.length < 0x100000000 := by
  have hsize := Assembly.size_lt h.link
  have hcode : segments.length ≤ c.code.length := by
    rw [h.laid.code, List.length_flatMap]
    have hcodes : ∀ n ∈ segments.map (fun s => s.code.length), 1 ≤ n := by
      intro n hn
      obtain ⟨s, -, rfl⟩ := List.mem_map.mp hn
      rw [s.length_code]
      omega
    simpa using List.length_le_sum_of_one_le _ hcodes
  simp only [List.size_toArray, List.length_cons, List.length_map] at hsize
  omega

/-- A compiled program keeps to the widths of a blob, as long as its imports can be counted there. -/
theorem portable_of_compile {root : Node} {program : Program} (hc : Prepared c)
    (h : c.compile root = .ok program) (himports : program.imports.length < 0x100000000) :
    program.Portable := by
  obtain ⟨segments, linked, hlayout⟩ := exists_layout hc h
  obtain ⟨herrors, -⟩ := compile_ok h
  have hfinal : (declaration c root).Portable := by
    rw [declaration_eq_foldl] at herrors ⊢
    exact hc.portable.foldl_declaration (topLevel_ne_block root) herrors
  refine ⟨?_, ?_, ?_, ?_, ?_, ?_, himports, ?_⟩
  · rw [hlayout.code, Assembly.walk_link hlayout.link]
  · intro m hm
    rw [hlayout.imports] at hm
    obtain ⟨known, hknown, rfl⟩ := List.mem_map.mp hm
    exact hfinal.imports known hknown
  · intro e he
    rw [hlayout.exports] at he
    obtain ⟨s, hs, rfl⟩ := List.mem_map.mp he
    apply hfinal.functions s.function
    rw [hlayout.laid.functions]
    exact List.mem_map_of_mem hs
  · intro v hv
    rw [hlayout.constants] at hv
    exact hfinal.constants v hv.val
  · obtain ⟨-, hsize, hcode⟩ := Assembly.link_eq_ok hlayout.link
    have hmax : Assembly.maxCodeLength = 0xffffffff := rfl
    rw [hlayout.code, List.size_toArray, Draft.length_assemble hcode]
    omega
  · have hsize := hlayout.laid.constants.size_le
    have hmax : maxOffset = 0x3fffffff := rfl
    rw [hlayout.constants]
    exact Nat.lt_of_le_of_lt hsize (by omega)
  · rw [hlayout.exports, List.length_map]
    exact hlayout.length_segments_lt

end Compilation

namespace Blob

open Compilation

/-- Programs that keep to the widths of the format read back as they were written, and compiled
programs keep to them. -/
theorem written_program_reads_back :
    (∀ p : Program, p.Portable → ∃ bytes, write p = .ok bytes ∧ read bytes = .ok p) ∧
      ∀ (c : Compilation) (root : Node) (program : Program), Prepared c → c.compile root = .ok program →
        program.imports.length < 0x100000000 → program.Portable := by
  constructor
  · intro p hp
    obtain ⟨s, hs⟩ := exists_spells hp
    exact ⟨(s.settled p).bytes, hs.write, read_settled hs hp.decodes⟩
  · intro c root program hc h himports
    exact portable_of_compile hc h himports

theorem portable_sampleProgram : sampleProgram.Portable where
  decodes := by cbv
  import_names := by decide +kernel
  export_names := by decide +kernel
  constants := by decide
  code_lt := by decide
  constants_lt := by decide
  imports_lt := by decide
  exports_lt := by decide

theorem written_program_reads_back_sample :
    (∃ bytes, write sampleProgram = .ok bytes ∧ read bytes = .ok sampleProgram) ∧
      ∃ program bytes, sampleHost.compile sampleScript = .ok program ∧ write program = .ok bytes ∧
        read bytes = .ok program := by
  obtain ⟨hread, hcompiled⟩ := written_program_reads_back
  refine ⟨hread sampleProgram portable_sampleProgram, ?_⟩
  obtain ⟨program, hprogram⟩ := compiles_sampleScript
  have himports : (sampleHost.compile sampleScript).toOption.all (·.imports.length < 0x100000000)
      = true := by cbv
  rw [hprogram] at himports
  have hportable := hcompiled sampleHost sampleScript program prepared_sampleHost hprogram
    (of_decide_eq_true himports)
  obtain ⟨bytes, hwrite, hback⟩ := hread program hportable
  exact ⟨program, bytes, hprogram, hwrite, hback⟩

end Blob

end ScriptMachine
