import Mathlib
import ScriptMachine.Proofs.Outcome
import ScriptMachine.Proofs.ConstantPool
import ScriptMachine.Script.Compile

/-!
# What compiling a node leaves behind

While the code of a function is drafted, a compilation only adds to what it knows: constants, imports,
locals, open calls and faults are appended, and the functions and the code so far stay as they are. An
index that went into drafted code therefore stays good for as long as the compilation goes on.
-/

namespace ScriptMachine

namespace Compilation

open Outcome

/-- The second state continues the first one inside one function. -/
structure Grows (c c' : Compilation) : Prop where
  code : c'.code = c.code
  functions : c'.functions = c.functions
  locals : c.locals <+: c'.locals
  constants : c.constants.Grows c'.constants
  sound : c.constants.Sound → c'.constants.Sound
  imports : c.imports <+: c'.imports
  pending : c.pending <+: c'.pending
  errors : c.errors <+: c'.errors

theorem Grows.refl (c : Compilation) : c.Grows c :=
  ⟨rfl, rfl, List.prefix_rfl, .refl _, id, List.prefix_rfl, List.prefix_rfl, List.prefix_rfl⟩

theorem Grows.trans {c d e : Compilation} (hcd : c.Grows d) (hde : d.Grows e) : c.Grows e where
  code := hde.code.trans hcd.code
  functions := hde.functions.trans hcd.functions
  locals := hcd.locals.trans hde.locals
  constants := hcd.constants.trans hde.constants
  sound h := hde.sound (hcd.sound h)
  imports := hcd.imports.trans hde.imports
  pending := hcd.pending.trans hde.pending
  errors := hcd.errors.trans hde.errors

/-- A state without faults comes from a state without faults. -/
theorem Grows.errors_eq_nil {c c' : Compilation} (h : c.Grows c') (herrors : c'.errors = []) :
    c.errors = [] :=
  List.prefix_nil.mp (herrors ▸ h.errors)

/-! ### Single actions -/

/-- A way of adding a constant that returns an index of the pool and keeps the pool sound. -/
def Inserts (insert : ConstantPool → Option (Nat × ConstantPool)) : Prop :=
  ∀ (pool pool' : ConstantPool) (index : Nat), insert pool = some (index, pool') →
    pool.Grows pool' ∧ index < pool'.size ∧ (pool.Sound → pool'.Sound)

theorem inserts_scalar (value : Value) (hscalar : value.isScalar = true) :
    Inserts (·.insert? value) := by
  intro pool pool' index h
  obtain ⟨hgrows, ⟨v, hget, -⟩, hkeep⟩ := ConstantPool.insert?_ok h
  exact ⟨hgrows, ConstantPool.lt_size_of_get? hget, fun hs => hkeep hs hscalar⟩

theorem inserts_text (text : String) : Inserts (·.insertText? text) := by
  intro pool pool' index h
  exact ConstantPool.insertText?_ok h

theorem pushConstant_eq_ok {span : Span} {insert : ConstantPool → Option (Nat × ConstantPool)}
    {c c' : Compilation} {code : Code} :
    pushConstant span insert c = .ok code c' ↔ ∃ index pool, insert c.constants = some (index, pool) ∧
      code = [.withOperand .pushValue index] ∧ c' = { c with constants := pool } := by
  simp only [pushConstant, bind_eq_ok, pure_eq_ok, addConstant]
  constructor
  · rintro ⟨index, d, hinsert, rfl, rfl⟩
    split at hinsert
    · rename_i i pool hpool
      cases hinsert
      exact ⟨index, pool, hpool, rfl, rfl⟩
    · cases hinsert
  · rintro ⟨index, pool, hinsert, rfl, rfl⟩
    exact ⟨index, { c with constants := pool }, by rw [hinsert], rfl, rfl⟩

theorem declareLocal_ok {name : String} {slot : Nat} {c c' : Compilation}
    (h : declareLocal name c = .ok slot c') :
    c'.locals[slot]? = some name ∧ c.locals <+: c'.locals ∧ c' = { c with locals := c'.locals } := by
  unfold declareLocal at h
  split at h
  · rename_i hfound
    cases h
    obtain ⟨hlt, hname, -⟩ := List.findIdx?_eq_some_iff_getElem.mp hfound
    refine ⟨?_, List.prefix_rfl, rfl⟩
    rw [List.getElem?_eq_getElem hlt, eq_of_beq hname]
  · cases h
    exact ⟨by simp, List.prefix_append _ _, rfl⟩

theorem findLocal_ok {span : Span} {name : String} {slot : Nat} {c c' : Compilation}
    (h : findLocal span name c = .ok slot c') : c = c' ∧ c.locals[slot]? = some name := by
  unfold findLocal at h
  split at h
  · rename_i hfound
    cases h
    obtain ⟨hlt, hname, -⟩ := List.findIdx?_eq_some_iff_getElem.mp hfound
    rw [List.getElem?_eq_getElem hlt, eq_of_beq hname]
    exact ⟨rfl, rfl⟩
  · cases h

theorem Grows.of_locals {c c' : Compilation} (hlocals : c.locals <+: c'.locals)
    (h : c' = { c with locals := c'.locals }) : c.Grows c' := by
  rw [h]
  exact { Grows.refl c with locals := hlocals }

theorem growth_of_declareLocal {name : String} {slot : Nat} {c c' : Compilation}
    (h : declareLocal name c = .ok slot c') : c.Grows c' := by
  obtain ⟨-, hlocals, hc⟩ := declareLocal_ok h
  exact .of_locals hlocals hc

theorem targetSlot_ok {target : Node} {slot : Nat} {c c' : Compilation}
    (h : targetSlot target c = .ok slot c') : c.Grows c' ∧ slot < c'.locals.length := by
  unfold targetSlot at h
  split at h
  · obtain ⟨hslot, hlocals, hc⟩ := declareLocal_ok h
    exact ⟨.of_locals hlocals hc, (List.getElem?_eq_some_iff.mp hslot).1⟩
  · obtain ⟨rfl, hslot⟩ := findLocal_ok h
    exact ⟨.refl _, (List.getElem?_eq_some_iff.mp hslot).1⟩
  · exact absurd h throw_ne_ok

theorem checkArity_ok {span : Span} {name : String} {expected found : Nat} {u : Unit}
    {c c' : Compilation} (h : checkArity span name expected found c = .ok u c') :
    c = c' ∧ expected = found := by
  unfold checkArity at h
  split at h
  · exact ⟨(pure_eq_ok.mp h).2, ‹_›⟩
  · exact absurd h throw_ne_ok

theorem grows_acceptOffer (name : String) (c : Compilation) : c.Grows (c.acceptOffer name) := by
  unfold acceptOffer
  split
  · exact .refl c
  · exact { Grows.refl c with imports := List.prefix_append _ _ }

theorem resolveImport_ok {name : String} {found : Option (Nat × KnownImport)} {c c' : Compilation}
    (h : resolveImport name c = .ok found c') : c.Grows c' ∧ found = c'.findImport? name := by
  unfold resolveImport at h
  split at h
  · rename_i hfound
    cases h
    exact ⟨.refl c, hfound.symm⟩
  · cases h
    exact ⟨grows_acceptOffer name c, rfl⟩

theorem lt_of_findImport? {c : Compilation} {name : String} {index : Nat} {found : KnownImport}
    (h : c.findImport? name = some (index, found)) : index < c.imports.length := by
  unfold findImport? at h
  split at h
  · cases h
  · rename_i i hi
    obtain ⟨_, -, heq⟩ := Option.map_eq_some_iff.mp h
    cases heq
    exact (List.findIdx?_eq_some_iff_getElem.mp hi).1

/-- The instruction of a call is one to an import, or it is left to be settled by its name. -/
theorem callItem_ok {span : Span} {name : String} {arguments : Nat} {item : Item}
    {c c' : Compilation} (h : callItem span name arguments c = .ok item c') :
    c.Grows c' ∧ ((∃ index, index < c'.imports.length ∧ item = .withOperand .callNative index) ∨
      (item = .call name ∧ ((c'.findFunction? name).isSome ∨ ∃ call ∈ c'.pending, call.name = name))) := by
  unfold callItem at h
  obtain ⟨found, d, hfound, h⟩ := bind_eq_ok.mp h
  obtain ⟨hgrows, rfl⟩ := resolveImport_ok hfound
  cases himport : d.findImport? name with
  | some found =>
    obtain ⟨index, found⟩ := found
    simp only [himport] at h
    obtain ⟨_, e, hcheck, h⟩ := bind_eq_ok.mp h
    obtain ⟨rfl, -⟩ := checkArity_ok hcheck
    obtain ⟨rfl, rfl⟩ := pure_eq_ok.mp h
    exact ⟨hgrows, .inl ⟨index, lt_of_findImport? himport, rfl⟩⟩
  | none =>
    simp only [himport] at h
    obtain ⟨_, e, hget, h⟩ := bind_eq_ok.mp h
    obtain ⟨rfl, rfl⟩ := get_eq_ok.mp hget
    cases hfunction : d.findFunction? name with
    | some function =>
      simp only [hfunction] at h
      obtain ⟨_, e, hcheck, h⟩ := bind_eq_ok.mp h
      obtain ⟨rfl, -⟩ := checkArity_ok hcheck
      obtain ⟨rfl, rfl⟩ := pure_eq_ok.mp h
      exact ⟨hgrows, .inr ⟨rfl, .inl (by rw [hfunction]; rfl)⟩⟩
    | none =>
      simp only [hfunction] at h
      obtain ⟨_, e, hmodify, h⟩ := bind_eq_ok.mp h
      obtain rfl := modify_eq_ok.mp hmodify
      obtain ⟨rfl, rfl⟩ := pure_eq_ok.mp h
      refine ⟨hgrows.trans { Grows.refl _ with pending := List.prefix_append _ _ }, .inr ⟨rfl, .inr ?_⟩⟩
      exact ⟨_, List.mem_append_right _ (List.mem_singleton_self _), rfl⟩

end Compilation

end ScriptMachine
