import Mathlib
import ScriptMachine.Host
import ScriptMachine.Proofs.Binding
import ScriptMachine.Proofs.Script.Imports

/-!
# Hosts and what they have loaded

A host that reloads scripts always has a program that is bound to its own environment. Compiling comes
first, so a script with faults changes nothing. Binding comes second and looks up what is imported: the
natives of the registry that the script calls, which are there because they were offered, and what the
script gives signatures for. The latter is never in the registry. A native that is offered takes its name,
and a name that cannot be offered because it is taken already or too long cannot be declared either.
-/

namespace ScriptMachine

namespace Host

open Environment Compilation

variable {registry : Registry} {natives : List Native} {c : Compilation} {root : Node} {program : Program}

/-! ### Offering the registry -/

/-- What is known of a compilation to which natives were offered one by one. -/
structure Offered (natives : List Native) (c : Compilation) : Prop where
  prepared : Prepared c
  imports : c.imports = []
  /-- Nothing can be declared under the name of a native, be it offered or refused. -/
  covered : ∀ native ∈ natives, native.name ∈ c.taken ∨ maxNameLength < native.name.utf8ByteSize
  /-- The first native of a name is the one that is offered. -/
  sources : ∀ offer ∈ c.offered, ∃ native, natives.find? (·.name == offer.name) = some native ∧
    native.arity = offer.arity

theorem offer_cases (c : Compilation) (native : Native) :
    offerNative native.name native.arity native.kind c = .ok () (offer c native) ∨
      offer c native = c ∧ (native.name ∈ c.taken ∨ maxNameLength < native.name.utf8ByteSize) := by
  unfold offer
  cases hoffer : offerNative native.name native.arity native.kind c with
  | ok u d => exact .inl rfl
  | error e d =>
    right
    unfold offerNative at hoffer
    split at hoffer
    · rename_i hdeclared
      cases hoffer
      refine ⟨rfl, .inl ?_⟩
      by_contra hnew
      rw [isDeclared_eq_false.mpr hnew] at hdeclared
      cases hdeclared
    · split at hoffer
      · rename_i hlong
        cases hoffer
        exact ⟨rfl, .inr hlong⟩
      · cases hoffer

theorem Offered.offer (h : Offered natives c) (native : Native) : Offered (natives ++ [native]) (offer c native) := by
  have hold : ∀ offer ∈ c.offered, ∃ found, (natives ++ [native]).find? (·.name == offer.name) = some found ∧
      found.arity = offer.arity := by
    intro offer hoffer
    obtain ⟨found, hfound, harity⟩ := h.sources offer hoffer
    exact ⟨found, by rw [List.find?_append, hfound, Option.some_or], harity⟩
  rcases offer_cases c native with hoffer | ⟨hsame, hrefused⟩
  · have hnew : native.name ∉ c.taken := isDeclared_eq_false.mp (offerNative_checks hoffer)
    have hshort := name_le_of_offerNative hoffer
    have htaken : (Host.offer c native).taken.Perm (c.taken ++ [native.name]) := by
      rw [taken, taken, List.append_assoc]
      apply List.Perm.append_left
      simpa using (knownFunctions_offerNative hoffer).map Prod.fst
    refine ⟨.offer h.prepared hoffer, ?_, ?_, ?_⟩
    · rw [offerNative_ok hoffer]
      exact h.imports
    · rw [List.forall_mem_append, List.forall_mem_singleton]
      refine ⟨fun other hother => ?_, .inl (htaken.mem_iff.mpr (by simp))⟩
      exact (h.covered other hother).imp_left fun hmem => htaken.mem_iff.mpr (List.mem_append_left _ hmem)
    · -- An earlier native of this name would have taken it.
      have hfirst : natives.find? (·.name == native.name) = none := by
        rw [List.find?_eq_none]
        intro other hother hname
        rw [beq_iff_eq] at hname
        rcases h.covered other hother with hmem | hlong
        · exact hnew (hname ▸ hmem)
        · rw [hname] at hlong
          omega
      rw [offerNative_ok hoffer, List.forall_mem_append, List.forall_mem_singleton]
      refine ⟨hold, native, ?_, rfl⟩
      rw [List.find?_append, hfirst, Option.none_or, List.find?_singleton]
      simp
  · rw [hsame]
    refine ⟨h.prepared, h.imports, ?_, hold⟩
    rw [List.forall_mem_append, List.forall_mem_singleton]
    exact ⟨h.covered, hrefused⟩

theorem offered_compilation (registry : Registry) : Offered registry.natives (compilation registry) := by
  unfold compilation
  induction registry.natives using List.reverseRecOn with
  | nil => exact ⟨.start, rfl, by simp, by simp⟩
  | append_singleton front last ih =>
    rw [List.foldl_append]
    exact ih.offer last

/-! ### Imports and the registry -/

/-- What a script gives a signature for is not in the registry. -/
theorem find?_signature (h : (compilation registry).compile root = .ok program) {name : String}
    (hname : name ∈ root.signatures) : registry.find? name = none := by
  have hoffered := offered_compilation registry
  rw [Registry.find?, List.find?_eq_none]
  intro native hnative hsame
  rw [beq_iff_eq] at hsame
  rcases hoffered.covered native hnative with htaken | hlong
  · rw [hsame] at htaken
    have hnodup := nodup_names hoffered.prepared (compile_ok h).1
    exact List.disjoint_of_nodup_append hnodup htaken (List.mem_append_right _ hname)
  · obtain ⟨item, hitem, hsignature⟩ := List.mem_filterMap.mp hname
    obtain ⟨arity, hdeclared⟩ : ∃ arity, item.declared? = some (name, arity) := by
      cases item <;> cases hsignature
      exact ⟨_, rfl⟩
    have hshort := (wellScoped_of_compile hoffered.prepared h).names _
      (List.mem_filterMap.mpr ⟨item, hitem, hdeclared⟩)
    rw [hsame] at hlong
    exact absurd hlong (Nat.not_lt.mpr hshort)

theorem acquires_of_compile (h : (compilation registry).compile root = .ok program) :
    (compilation registry).Acquires root.signatures (declaration (compilation registry) root) := by
  obtain ⟨herrors, -, -⟩ := compile_ok h
  rw [declaration_eq_foldl] at herrors ⊢
  exact acquires_foldl (topLevel_ne_block root) herrors

theorem signed_of_compile (h : (compilation registry).compile root = .ok program) :
    (declaration (compilation registry) root).signed = root.signatures := by
  have hnone : (compilation registry).signed = [] := by
    rw [signed, (offered_compilation registry).imports]
    rfl
  rw [(acquires_of_compile h).signed, hnone, List.nil_append]

/-- An import is missing in the registry if it comes from a signature, and served by it otherwise. -/
theorem import_cases (h : (compilation registry).compile root = .ok program) {known : KnownImport}
    (hknown : known ∈ (declaration (compilation registry) root).imports) :
    known.kind = none ∧ known.entry.name ∈ root.signatures ∧ registry.find? known.entry.name = none ∨
      known.kind ≠ none ∧ known.entry.name ∉ root.signatures ∧ ∃ native, Serves registry known.entry native := by
  have hoffered := offered_compilation registry
  rcases (acquires_of_compile h).sources known hknown with hkind | hmem | ⟨offer, hoffer, rfl⟩
  · have hname : known.entry.name ∈ root.signatures := by
      rw [← signed_of_compile h]
      exact List.mem_map_of_mem (List.mem_filter.mpr ⟨hknown, by simp [hkind]⟩)
    exact .inl ⟨hkind, hname, find?_signature h hname⟩
  · rw [hoffered.imports] at hmem
    cases hmem
  · obtain ⟨native, hfound, harity⟩ := hoffered.sources offer hoffer
    refine .inr ⟨by simp [Offer.accepted], ?_, native, hfound, harity⟩
    intro hname
    have hnone := find?_signature h hname
    rw [Registry.find?, Offer.accepted, hfound] at hnone
    cases hnone

theorem imports_of_compile (h : (compilation registry).compile root = .ok program) :
    program.imports = (declaration (compilation registry) root).imports.map KnownImport.entry := by
  obtain ⟨segments, linked, hlayout⟩ := exists_layout (offered_compilation registry).prepared h
  exact hlayout.imports

/-- Binding misses exactly what the script gives signatures for. -/
theorem problems_of_compile (h : (compilation registry).compile root = .ok program) :
    program.imports.filterMap (problem? registry) = root.signatures.map .missing := by
  rw [imports_of_compile h, ← signed_of_compile h, signed]
  have hcases := @import_cases registry root program h
  generalize (declaration (compilation registry) root).imports = imports at hcases ⊢
  induction imports with
  | nil => rfl
  | cons known rest ih =>
    have hrest := ih fun hmem => hcases (List.mem_cons_of_mem _ hmem)
    rw [List.map_cons]
    rcases hcases (List.mem_cons_self) with ⟨hkind, -, hnone⟩ | ⟨hkind, -, hserves⟩
    · have hproblem : problem? registry known.entry = some (.missing known.entry.name) := by
        simp [problem?, bindImport, hnone]
      rw [List.filterMap_cons_some hproblem, hrest, List.filter_cons_of_pos (by simp [hkind])]
      rfl
    · rw [List.filterMap_cons_none (problem?_eq_none.mpr hserves), hrest,
        List.filter_cons_of_neg (by simpa using hkind)]

/-- The imports that come from signatures keep the order of the script. -/
theorem signatures_in_import_order (h : (compilation registry).compile root = .ok program) :
    (program.imports.filter (·.name ∈ root.signatures)).map Import.name = root.signatures := by
  have hsame : ∀ known ∈ (declaration (compilation registry) root).imports,
      ((fun entry : Import => decide (entry.name ∈ root.signatures)) ∘ KnownImport.entry) known
        = known.kind.isNone := by
    intro known hknown
    rcases import_cases h hknown with ⟨hkind, hname, -⟩ | ⟨hkind, hname, -⟩
    · simp [hkind, hname]
    · simp [hname, Option.isSome_iff_ne_none, hkind]
  rw [imports_of_compile h, List.filter_map, List.filter_congr hsame, List.map_map]
  exact signed_of_compile h

/-! ### Loading -/

/-- The host has a program that is bound to its environment: every import has the native of its name, and
that takes as many arguments. -/
def Matched (host : Host) : Prop :=
  List.Forall₂ (Serves host.registry) host.loaded.program.imports host.loaded.environment.natives.toList

/-- What comes of an attempt to load a script. -/
structure LoadsOrKeeps (host : Host) (root : Node) : Prop where
  kept : ∀ e after, reload root host = .error e after → after = host
  replaced : ∀ generation after, reload root host = .ok generation after →
    (compilation host.registry).compile root = .ok after.loaded.program ∧ after.Matched ∧
      after.registry = host.registry ∧ after.loaded.generation = host.loaded.generation + 1 ∧
      generation = after.loaded.generation
  succeeds : (∃ generation after, reload root host = .ok generation after) ↔
    (∃ program, (compilation host.registry).compile root = .ok program) ∧ root.signatures = []
  faulty : ∀ diagnostics, reload root host = .error (.compile diagnostics) host ↔
    (compilation host.registry).compile root = .error diagnostics
  unbound : ∀ e, reload root host = .error (.bind e) host ↔
    (∃ program, (compilation host.registry).compile root = .ok program) ∧ root.signatures ≠ [] ∧
      e.problems = root.signatures.map .missing
  order : ∀ program, (compilation host.registry).compile root = .ok program →
    (program.imports.filter (·.name ∈ root.signatures)).map Import.name = root.signatures

/-- The three ways in which an attempt ends. -/
theorem reload_cases (host : Host) (root : Node) :
    (∃ diagnostics, (compilation host.registry).compile root = .error diagnostics ∧
      reload root host = .error (.compile diagnostics) host) ∨
    ∃ program, (compilation host.registry).compile root = .ok program ∧
      ((root.signatures ≠ [] ∧
        reload root host = .error (.bind ⟨root.signatures.map .missing⟩) host) ∨
      (root.signatures = [] ∧ ∃ env, List.Forall₂ (Serves host.registry) program.imports env.natives.toList ∧
        reload root host = .ok (host.loaded.generation + 1)
          ⟨host.registry, program, env, host.loaded.generation + 1⟩)) := by
  unfold reload prepare
  cases hcompile : (compilation host.registry).compile root with
  | error diagnostics => exact .inl ⟨diagnostics, rfl, rfl⟩
  | ok program =>
    refine .inr ⟨program, rfl, ?_⟩
    have hproblems := problems_of_compile hcompile
    cases hbind : Environment.bind host.registry program with
    | error e =>
      obtain ⟨hne, heq⟩ := bind_eq_error.mp hbind
      rw [hproblems] at heq
      obtain ⟨problems⟩ := e
      subst heq
      exact .inl ⟨by simpa using hne, by simp [hbind]⟩
    | ok env =>
      have hserves := bind_eq_ok.mp hbind
      rw [(filterMap_bindImport.mp hserves).1] at hproblems
      exact .inr ⟨by simpa using hproblems.symm, env, hserves, by simp [hbind]⟩

theorem eq_of_reload_error {host after : Host} {e : ReloadError} (h : reload root host = .error e after) :
    after = host := by
  unfold reload at h
  split at h
  · cases h
    rfl
  · cases h

theorem loadsOrKeeps (host : Host) (root : Node) : LoadsOrKeeps host root := by
  have hkept : ∀ e after, reload root host = .error e after → after = host :=
    fun e after => eq_of_reload_error
  have horder : ∀ program, (compilation host.registry).compile root = .ok program →
      (program.imports.filter (·.name ∈ root.signatures)).map Import.name = root.signatures :=
    fun program => signatures_in_import_order
  obtain ⟨diagnostics, hcompile, hreload⟩ |
    ⟨program, hcompile, ⟨hsome, hreload⟩ | ⟨hnone, env, hserves, hreload⟩⟩ := reload_cases host root
  · refine ⟨hkept, by simp [hreload], ?_, ?_, ?_, horder⟩
    · simp [hreload, hcompile]
    · simp [hreload, hcompile]
    · simp [hreload, hcompile]
  · refine ⟨hkept, by simp [hreload], ?_, ?_, ?_, horder⟩
    · simp [hreload, hsome]
    · simp [hreload, hcompile]
    · intro e
      obtain ⟨problems⟩ := e
      simp [hreload, hcompile, hsome, eq_comm]
  · refine ⟨hkept, ?_, ?_, ?_, ?_, horder⟩
    · intro generation after h
      rw [hreload] at h
      cases h
      exact ⟨hcompile, hserves, rfl, rfl, rfl⟩
    · simp [hreload, hcompile, hnone]
    · simp [hreload, hcompile]
    · simp [hreload, hnone]

/-! ### Loading again and again -/

/-- An attempt to load a script, with what it returns and the host that it leaves. -/
def attempt (root : Node) (host : Host) : Except ReloadError Nat × Host :=
  match reload root host with
  | .ok generation after => (.ok generation, after)
  | .error e after => (.error e, after)

def reloadAll : List Node → Host → List (Except ReloadError Nat) × Host
  | [], host => ([], host)
  | root :: rest, host =>
    ((attempt root host).1 :: (reloadAll rest (attempt root host).2).1, (reloadAll rest (attempt root host).2).2)

theorem attempt_step (root : Node) (host : Host) :
    (attempt root host).2.registry = host.registry ∧
    (attempt root host).2.loaded.generation
      = host.loaded.generation + (if (attempt root host).1.isOk then 1 else 0) ∧
    (host.Matched → (attempt root host).2.Matched) := by
  have hloads := loadsOrKeeps host root
  unfold attempt
  cases hreload : reload root host with
  | ok generation after =>
    obtain ⟨-, hmatched, hregistry, hgeneration, -⟩ := hloads.replaced generation after hreload
    exact ⟨hregistry, hgeneration, fun _ => hmatched⟩
  | error e after =>
    obtain rfl := hloads.kept e after hreload
    exact ⟨rfl, rfl, id⟩

theorem reloadAll_run (roots : List Node) (host : Host) (hmatched : host.Matched) :
    (reloadAll roots host).2.registry = host.registry ∧
    (reloadAll roots host).2.loaded.generation
      = host.loaded.generation + (reloadAll roots host).1.countP Except.isOk ∧
    (reloadAll roots host).2.Matched := by
  induction roots generalizing host with
  | nil => exact ⟨rfl, rfl, hmatched⟩
  | cons root rest ih =>
    obtain ⟨hregistry, hgeneration, hkeeps⟩ := attempt_step root host
    obtain ⟨hregistry', hgeneration', hmatched'⟩ := ih (attempt root host).2 (hkeeps hmatched)
    rw [reloadAll]
    refine ⟨hregistry'.trans hregistry, ?_, hmatched'⟩
    rw [hgeneration', hgeneration, List.countP_cons, Nat.add_assoc, Nat.add_comm (ite _ _ _)]

/-- However often a host has tried to load scripts, it has counted the times that it succeeded, and its
program has from the registry what it imports. The next attempt either leaves everything as it was, because
the script has faults or gives signatures, or loads the new program together with its environment. -/
theorem reload_is_atomic_and_matched (registry : Registry) (past : List Node) : ∃ results host,
    reloadAll past { registry := registry } = (results, host) ∧ host.registry = registry ∧
    host.loaded.generation = results.countP Except.isOk ∧ host.Matched ∧
    ∀ root, LoadsOrKeeps host root := by
  obtain ⟨hregistry, hgeneration, hmatched⟩ := reloadAll_run past { registry := registry } .nil
  rw [Nat.zero_add] at hgeneration
  exact ⟨_, _, rfl, hregistry, hgeneration, hmatched, loadsOrKeeps _⟩

end Host

end ScriptMachine
