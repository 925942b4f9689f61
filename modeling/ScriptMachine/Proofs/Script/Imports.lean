import Mathlib
import ScriptMachine.Proofs.Script.WellScoped

/-!
# Where imports come from

A host function gets into the import table of a program in one of three ways: the host declared it, the
script gives a signature for it, or it was offered and the script calls it. Signatures are added where
they stand in the script and offers at the first call, so that the two are mixed in the table, but the
imports of which no more than the signature is known keep the order of the script.
-/

namespace ScriptMachine

namespace Node

def signature? : Node → Option String
  | .signature _ name _ => some name
  | _ => none

/-- The names that a script gives signatures for, in the order of its text. -/
def signatures (root : Node) : List String :=
  root.topLevel.filterMap signature?

/-- What is declared is a function or a signature. -/
theorem declared_perm (items : List Node) :
    ((items.filterMap declared?).map Prod.fst).Perm
      ((items.filterMap function?).map Prod.fst ++ items.filterMap signature?) := by
  induction items with
  | nil => exact .nil
  | cons item rest ih =>
    cases item with
    | function span name parameters body => exact ih.cons name
    | signature span name parameters => exact (ih.cons name).trans List.perm_middle.symm
    | _ => exact ih

end Node

def Offer.accepted (offer : Offer) : KnownImport :=
  ⟨⟨offer.name, offer.arity⟩, some offer.kind⟩

namespace Compilation

open Outcome

variable {c d e : Compilation} {names more : List String}

/-- The imports of which only the signature is known. -/
def signed (c : Compilation) : List String :=
  (c.imports.filter (·.kind.isNone)).map (·.entry.name)

/-- Between the two states, imports were added for the signatures, and otherwise only for offers. -/
structure Acquires (c : Compilation) (names : List String) (d : Compilation) : Prop where
  signed : d.signed = c.signed ++ names
  sources : ∀ known ∈ d.imports, known.kind = none ∨ known ∈ c.imports ∨
    ∃ offer ∈ c.offered, known = offer.accepted
  offered : d.offered ⊆ c.offered

theorem Acquires.of_eq (himports : d.imports = c.imports) (hoffered : d.offered = c.offered) :
    c.Acquires [] d := by
  refine ⟨?_, ?_, ?_⟩
  · rw [Compilation.signed, Compilation.signed, himports, List.append_nil]
  · intro known hknown
    exact .inr (.inl (himports ▸ hknown))
  · rw [hoffered]
    exact List.Subset.refl _

theorem Acquires.refl (c : Compilation) : c.Acquires [] c :=
  .of_eq rfl rfl

theorem Acquires.trans (h : c.Acquires names d) (h' : d.Acquires more e) : c.Acquires (names ++ more) e := by
  refine ⟨?_, ?_, List.Subset.trans h'.offered h.offered⟩
  · rw [h'.signed, h.signed, List.append_assoc]
  · intro known hknown
    rcases h'.sources known hknown with hkind | hmem | ⟨offer, hoffer, heq⟩
    · exact .inl hkind
    · exact h.sources known hmem
    · exact .inr (.inr ⟨offer, h.offered hoffer, heq⟩)

theorem acquires_acceptOffer (name : String) (c : Compilation) : c.Acquires [] (c.acceptOffer name) := by
  unfold acceptOffer
  cases hfind : c.offered.find? (·.name == name) with
  | none => exact .refl c
  | some offer =>
    refine ⟨by simp [signed], ?_, List.filter_subset_self _⟩
    intro known hknown
    rcases List.mem_append.mp hknown with hmem | hnew
    · exact .inr (.inl hmem)
    · exact .inr (.inr ⟨offer, List.mem_of_find?_eq_some hfind, List.mem_singleton.mp hnew⟩)

theorem acquires_callItem {span : Span} {name : String} {arguments : Nat} {item : Item}
    (h : callItem span name arguments c = .ok item d) : c.Acquires [] d := by
  have hresolved : c.Acquires [] (c.resolved name) := by
    unfold resolved
    split
    · exact .refl c
    · exact acquires_acceptOffer name c
  obtain ⟨arity, called, -, hcall⟩ | ⟨-, hcall⟩ := callItem_cases span name arguments c
  · rw [hcall] at h
    obtain ⟨_, e, hcheck, h⟩ := bind_eq_ok.mp h
    obtain ⟨rfl, -⟩ := checkArity_ok hcheck
    obtain ⟨-, rfl⟩ := pure_eq_ok.mp h
    exact hresolved
  · rw [hcall] at h
    cases h
    exact hresolved.trans (.of_eq rfl rfl)

/-- Drafting code turns offers into imports and does nothing else to the table. -/
theorem Drafted.acquires {l : Bool} {p : Nat} {part : Part} {code : Code} (h : Drafted l p part c code d) :
    c.Acquires [] d :=
  h.relates .refl .trans (fun _ _ => .of_eq rfl rfl) (fun _ _ => .of_eq rfl rfl) acquires_callItem

theorem acquires_addImport {name : String} {arity : Nat} {span : Option Span} {u : Unit}
    (h : addImport name arity span c = .ok u d) : c.Acquires [name] d := by
  rw [addImport_ok h]
  refine ⟨by simp [signed], ?_, List.Subset.refl _⟩
  intro known hknown
  rcases List.mem_append.mp hknown with hmem | hnew
  · exact .inr (.inl hmem)
  · rw [List.mem_singleton.mp hnew]
    exact .inl rfl

theorem acquires_declaration {item : Node} (hitem : ∀ span items, item ≠ .block span items)
    (herrors : (declaration c item).errors = []) : c.Acquires item.signature?.toList (declaration c item) := by
  obtain ⟨span, name, parameters, rfl, h⟩ | ⟨span, name, parameters, body, rfl, h⟩ :=
    declaration_cases hitem herrors
  · exact acquires_addImport h
  · obtain ⟨-, -, inner, d, hdrafted, -, -, heq⟩ := declareFunction_ok h herrors
    have hentering : c.Acquires [] (c.entering name parameters) := .of_eq rfl rfl
    rw [heq]
    exact (hentering.trans hdrafted.acquires).trans (.of_eq rfl rfl)

/-- Declarations without faults acquire the imports of their signatures in order. -/
theorem acquires_foldl {items : List Node} (hitems : ∀ n ∈ items, ∀ span inner, n ≠ .block span inner)
    (herrors : (items.foldl declaration c).errors = []) :
    c.Acquires (items.filterMap Node.signature?) (items.foldl declaration c) := by
  induction items using List.reverseRecOn with
  | nil => exact .refl c
  | append_singleton front last ih =>
    rw [List.foldl_append] at herrors ⊢
    have hlast := hitems last (by simp)
    have hfront := ih (fun n hn => hitems n (by simp [hn])) (errors_of_declaration hlast herrors)
    have hdeclare := hfront.trans (acquires_declaration hlast herrors)
    rw [List.filterMap_append]
    cases hname : last.signature? <;> simpa [hname] using hdeclare

/-! ### Host functions and functions -/

/-- The names of the host functions that a script can call: the host's own and those of its signatures. -/
def natives (c : Compilation) (root : Node) : List String :=
  c.hostFunctions.map Prod.fst ++ root.signatures

theorem name_mem_hostFunctions {known : KnownImport} (h : known ∈ c.imports) :
    known.entry.name ∈ c.hostFunctions.map Prod.fst :=
  List.mem_map.mpr ⟨_, List.mem_append_left _ (List.mem_map_of_mem h), rfl⟩

theorem Acquires.name_mem (h : c.Acquires names d) {known : KnownImport} (hknown : known ∈ d.imports) :
    known.entry.name ∈ c.hostFunctions.map Prod.fst ++ names := by
  rcases h.sources known hknown with hkind | hmem | ⟨offer, hoffer, rfl⟩
  · have hsigned : known.entry.name ∈ d.signed :=
      List.mem_map_of_mem (List.mem_filter.mpr ⟨hknown, by simp [hkind]⟩)
    rw [h.signed] at hsigned
    rcases List.mem_append.mp hsigned with hold | hnew
    · obtain ⟨old, hold, heq⟩ := List.mem_map.mp hold
      rw [← heq]
      exact List.mem_append_left _ (name_mem_hostFunctions (List.mem_filter.mp hold).1)
    · exact List.mem_append_right _ hnew
  · exact List.mem_append_left _ (name_mem_hostFunctions hmem)
  · exact List.mem_append_left _ (List.mem_map.mpr ⟨_, List.mem_append_right _ (List.mem_map_of_mem hoffer), rfl⟩)

/-- All names of a script without faults are distinct. -/
theorem nodup_names {root : Node} (hc : Prepared c) (herrors : (declaration c root).errors = []) :
    (c.taken ++ (root.functions.map Prod.fst ++ root.signatures)).Nodup := by
  rw [declaration_eq_foldl] at herrors
  have hnodup := nodup_of_foldl hc.nodup_taken (topLevel_ne_block root) herrors
  exact ((Node.declared_perm root.topLevel).append_left _).nodup_iff.mp hnodup

theorem not_mem_natives {root : Node} (hc : Prepared c) (herrors : (declaration c root).errors = [])
    {name : String} (hname : name ∈ root.functions.map Prod.fst) : name ∉ c.natives root := by
  have hnodup := nodup_names hc herrors
  intro hnative
  rcases List.mem_append.mp hnative with hhost | hsignature
  · have htaken : name ∈ c.taken := by
      rw [taken, hc.knownFunctions_eq]
      exact List.mem_append_right _ hhost
    exact List.disjoint_of_nodup_append hnodup htaken (List.mem_append_left _ hname)
  · exact List.disjoint_of_nodup_append hnodup.of_append_right hname hsignature

end Compilation

end ScriptMachine
