import Mathlib
import ScriptMachine.Proofs.Script.Acceptance

/-!
# Which scripts compile

A script compiles exactly if it is well scoped, unless it is too large. Both directions follow the
declarations of the script in their order: each one makes one name known, with the arity that the script
gives it, and a name that is known is never declared again.

A name that is called before its declaration is looked up when all declarations are done. By then the
known names are those of the host and those of the script, so the call is judged just like one that
comes behind the declaration.
-/

namespace ScriptMachine

namespace Compilation

open Outcome Mention

variable {c s s' : Compilation} {root : Node} {name : String}

/-! ### Names that are taken -/

theorem firstDuplicate?_eq_none {seen names : List String} :
    firstDuplicate? seen names = none ↔ names.Nodup ∧ ∀ name ∈ names, name ∉ seen := by
  induction names generalizing seen with
  | nil => simp [firstDuplicate?]
  | cons first rest ih =>
    rw [firstDuplicate?]
    by_cases hseen : first ∈ seen
    · simp [hseen]
    · have hcontains : seen.contains first = false := by simpa using hseen
      rw [hcontains, if_neg Bool.false_ne_true, ih, List.nodup_cons]
      constructor
      · intro h
        obtain ⟨hnodup, hnew⟩ := h
        refine ⟨⟨fun hfirst => ?_, hnodup⟩, ?_⟩
        · exact hnew first hfirst (List.mem_append_right _ (List.mem_singleton_self _))
        · rw [List.forall_mem_cons]
          exact ⟨hseen, fun name hname hmem => hnew name hname (List.mem_append_left _ hmem)⟩
      · intro h
        obtain ⟨⟨hfirst, hnodup⟩, hnew⟩ := h
        refine ⟨hnodup, fun name hname hmem => ?_⟩
        rcases List.mem_append.mp hmem with hold | hsame
        · exact hnew name (List.mem_cons_of_mem _ hname) hold
        · exact hfirst (List.mem_singleton.mp hsame ▸ hname)

theorem mem_of_intrinsic? {arity : Nat} {op : Opcode} (h : intrinsic? name = some (arity, op)) :
    (name, arity, op) ∈ intrinsics := by
  obtain ⟨before, after, heq, -⟩ := List.lookup_eq_some_iff.mp h
  rw [heq]
  exact List.mem_append_right _ List.mem_cons_self

theorem intrinsic?_eq_none : intrinsic? name = none ↔ name ∉ intrinsics.map Prod.fst := by
  rw [intrinsic?, List.lookup_eq_none_iff, List.mem_map]
  constructor
  · intro h hmem
    obtain ⟨entry, hentry, hname⟩ := hmem
    exact bne_iff_ne.mp (h entry hentry) hname.symm
  · intro h entry hentry
    exact bne_iff_ne.mpr fun hname => h ⟨entry, hentry, hname.symm⟩

/-- The names that nothing else may be called. -/
def taken (s : Compilation) : List String :=
  intrinsics.map Prod.fst ++ s.knownFunctions.map Prod.fst

theorem isDeclared_eq_false : s.isDeclared name = false ↔ name ∉ s.taken := by
  have hintrinsic : (intrinsic? name).isSome = false ↔ name ∉ intrinsics.map Prod.fst := by
    rw [← intrinsic?_eq_none, Option.isSome_eq_false_iff, Option.isNone_iff_eq_none]
  simp only [isDeclared, Bool.or_eq_false_iff, hintrinsic, taken, knownFunctions, hostFunctions,
    List.mem_append, not_or, List.map_append, List.map_map, List.any_eq_false, beq_iff_eq, List.mem_map,
    Function.comp_apply, not_exists, not_and, and_assoc]

/-- A new name is added to distinct ones. -/
theorem nodup_taken {entry : String × Nat} (h : s.taken.Nodup) (hnew : s.isDeclared entry.1 = false)
    (hknown : s'.knownFunctions.Perm (s.knownFunctions ++ [entry])) : s'.taken.Nodup := by
  have hperm : s'.taken.Perm (s.taken ++ [entry.1]) := by
    rw [taken, taken, List.append_assoc]
    apply List.Perm.append_left
    simpa using hknown.map Prod.fst
  rw [hperm.nodup_iff]
  exact h.append (List.nodup_singleton _) (by simpa using isDeclared_eq_false.mp hnew)

/-! ### Signatures and offers -/

theorem addImport_checks {arity : Nat} {span : Option Span} {u : Unit}
    (h : addImport name arity span s = .ok u s') : s.isDeclared name = false ∧ arity ≤ 255 := by
  unfold addImport at h
  split at h
  · cases h
  · rename_i hnew
    split at h
    · cases h
    · split at h
      · cases h
      · exact ⟨by simpa using hnew, by omega⟩

theorem knownFunctions_addImport {arity : Nat} {span : Option Span} {u : Unit}
    (h : addImport name arity span s = .ok u s') :
    s'.knownFunctions.Perm (s.knownFunctions ++ [(name, arity)]) := by
  obtain ⟨-, harity⟩ := addImport_checks h
  have hentry : (UInt8.ofNat arity).toNat = arity := by
    rw [UInt8.toNat_ofNat']
    omega
  rw [addImport_ok h]
  simp only [knownFunctions, hostFunctions, List.map_append, List.map_cons, List.map_nil, hentry,
    List.append_assoc]
  apply List.Perm.append_left
  rw [← List.append_assoc (List.map _ s.offered)]
  exact List.perm_append_comm

theorem offerNative_checks {arity : UInt8} {kind : NativeKind} {u : Unit}
    (h : offerNative name arity kind s = .ok u s') : s.isDeclared name = false := by
  unfold offerNative at h
  split at h
  · cases h
  · rename_i hnew
    simpa using hnew

theorem knownFunctions_offerNative {arity : UInt8} {kind : NativeKind} {u : Unit}
    (h : offerNative name arity kind s = .ok u s') :
    s'.knownFunctions.Perm (s.knownFunctions ++ [(name, arity.toNat)]) := by
  rw [offerNative_ok h]
  simp only [knownFunctions, hostFunctions, List.map_append, List.map_cons, List.map_nil, List.append_assoc]
  apply List.Perm.append_left
  apply List.Perm.append_left
  exact List.perm_append_comm

theorem Prepared.nodup_taken (h : Prepared c) : c.taken.Nodup := by
  induction h with
  | start => decide
  | declare hc h ih =>
    exact Compilation.nodup_taken ih (addImport_checks h).1 (knownFunctions_addImport h)
  | offer hc h ih =>
    exact Compilation.nodup_taken ih (offerNative_checks h) (knownFunctions_offerNative h)

theorem Prepared.knownFunctions_eq (h : Prepared c) : c.knownFunctions = c.hostFunctions := by
  have hfunctions : c.functions = [] := by rw [h.blank]
  rw [knownFunctions, hfunctions, List.map_nil, List.append_nil]

/-! ### Declarations make names known -/

/-- Between two states some names become known, with their arities. -/
structure Gains (s : Compilation) (entries : List (String × Nat)) (s' : Compilation) : Prop where
  functions : s'.knownFunctions ⊆ s.knownFunctions ++ entries
  names : (s.knownFunctions ++ entries).map Prod.fst ⊆ s'.knownFunctions.map Prod.fst
  offered : s'.offered ⊆ s.offered

theorem Gains.refl (s : Compilation) : s.Gains [] s := by
  constructor <;> simp

theorem Gains.trans {first second : List (String × Nat)} {s'' : Compilation} (h : s.Gains first s')
    (h' : s'.Gains second s'') : s.Gains (first ++ second) s'' := by
  refine ⟨?_, ?_, List.Subset.trans h'.offered h.offered⟩
  · rw [← List.append_assoc]
    exact List.Subset.trans h'.functions (append_subset_append h.functions (List.Subset.refl _))
  · have hnames := h'.names
    rw [List.map_append] at hnames
    rw [← List.append_assoc, List.map_append]
    exact List.Subset.trans (append_subset_append h.names (List.Subset.refl _)) hnames

theorem gains_addImport {arity : Nat} {span : Option Span} {u : Unit}
    (h : addImport name arity span s = .ok u s') : s.Gains [(name, arity)] s' := by
  have hperm := knownFunctions_addImport h
  refine ⟨hperm.subset, (hperm.symm.map Prod.fst).subset, ?_⟩
  rw [addImport_ok h]
  exact List.Subset.refl _

theorem knownFunctions_entering (s : Compilation) (name : String) (parameters : List String) :
    (s.entering name parameters).knownFunctions = s.knownFunctions ++ [(name, parameters.length)] := by
  simp [knownFunctions, hostFunctions, entering]

theorem gains_declareFunction {span : Span} {parameters : List String} {body : Node} {u : Unit}
    (h : declareFunction span name parameters body s = .ok u s') (herrors : s'.errors = []) :
    s.Gains [(name, parameters.length)] s' := by
  obtain ⟨-, -, inner, d, hdrafted, -, -, rfl⟩ := declareFunction_ok h herrors
  have hknown := knownFunctions_entering s name parameters
  refine ⟨hknown ▸ hdrafted.knownFunctions_subset, ?_, hdrafted.hosts.offered⟩
  rw [← hknown]
  show _ ⊆ d.knownFunctions.map Prod.fst
  rw [knownFunctions, knownFunctions, List.map_append, List.map_append, hdrafted.grows.functions]
  exact append_subset_append hdrafted.hosts.names (List.Subset.refl _)

/-- A declaration without fault makes a new name known. -/
theorem gains_declaration {n : Node} (hn : ∀ span items, n ≠ .block span items)
    (herrors : (declaration s n).errors = []) :
    ∃ entry, n.declared? = some entry ∧ s.Gains [entry] (declaration s n) ∧
      s.isDeclared entry.1 = false ∧ entry.1.utf8ByteSize ≤ maxNameLength := by
  obtain ⟨span, name, parameters, rfl, h⟩ | ⟨span, name, parameters, body, rfl, h⟩ :=
    declaration_cases hn herrors
  · exact ⟨_, rfl, gains_addImport h, (addImport_checks h).1, name_le_of_addImport h⟩
  · exact ⟨_, rfl, gains_declareFunction h herrors, (declareFunction_ok h herrors).2.1,
      name_le_of_declareFunction h⟩

theorem gains_foldl {items : List Node} (hitems : ∀ n ∈ items, ∀ span inner, n ≠ .block span inner)
    (herrors : (items.foldl declaration s).errors = []) :
    s.Gains (items.filterMap Node.declared?) (items.foldl declaration s) := by
  induction items using List.reverseRecOn with
  | nil => exact .refl s
  | append_singleton front last ih =>
    rw [List.foldl_append] at herrors ⊢
    have hlast := hitems last (by simp)
    have hfront := ih (fun n hn => hitems n (by simp [hn])) (errors_of_declaration hlast herrors)
    obtain ⟨entry, hentry, hgains, -⟩ := gains_declaration hlast herrors
    rw [List.filterMap_append, List.filterMap_cons_some hentry]
    exact hfront.trans hgains

/-- The names of declarations without faults are new and distinct. -/
theorem nodup_of_foldl {items : List Node} (hs : s.taken.Nodup)
    (hitems : ∀ n ∈ items, ∀ span inner, n ≠ .block span inner)
    (herrors : (items.foldl declaration s).errors = []) :
    (s.taken ++ (items.filterMap Node.declared?).map Prod.fst).Nodup := by
  induction items using List.reverseRecOn with
  | nil => simpa using hs
  | append_singleton front last ih =>
    rw [List.foldl_append] at herrors
    have hlast := hitems last (by simp)
    have hitems' : ∀ n ∈ front, ∀ span inner, n ≠ .block span inner := fun n hn => hitems n (by simp [hn])
    have hfront := errors_of_declaration hlast herrors
    obtain ⟨entry, hentry, -, hnew, -⟩ := gains_declaration hlast herrors
    rw [List.filterMap_append, List.filterMap_cons_some hentry, List.map_append, ← List.append_assoc]
    apply (ih hitems' hfront).append (List.nodup_singleton _)
    intro name hname hsame
    obtain rfl := List.mem_singleton.mp hsame
    apply isDeclared_eq_false.mp hnew
    rw [taken, List.append_assoc, ← List.map_append] at hname
    exact append_subset_append (List.Subset.refl _) (gains_foldl hitems' hfront).names hname

/-! ### Scripts that compile -/

theorem nodup_of_declareFunction {span : Span} {parameters : List String} {body : Node} {u : Unit}
    (h : declareFunction span name parameters body s = .ok u s') : parameters.Nodup := by
  unfold declareFunction at h
  obtain ⟨_, d, hget, hrun⟩ := bind_eq_ok.mp h
  obtain ⟨-, hrun⟩ := guard_eq_ok.mp hrun
  obtain ⟨-, hrun⟩ := guard_eq_ok.mp hrun
  obtain ⟨_, d, -, hrun⟩ := bind_eq_ok.mp hrun
  obtain ⟨code, d, hcode, -⟩ := bind_eq_ok.mp hrun
  unfold functionBody at hcode
  cases hduplicate : firstDuplicate? [] parameters with
  | none => exact (firstDuplicate?_eq_none.mp hduplicate).1
  | some duplicate =>
    simp only [hduplicate] at hcode
    obtain ⟨_, d, hfail, -⟩ := bind_eq_ok.mp hcode
    exact absurd hfail throw_ne_ok

/-- A declaration of a script without faults is compiled behind those before it, without fault. -/
theorem exists_declaration (herrors : (declaration c root).errors = []) {item : Node}
    (hitem : item ∈ root.topLevel) :
    ∃ before after, root.topLevel = before ++ item :: after ∧
      (declaration (before.foldl declaration c) item).errors = [] := by
  obtain ⟨before, after, hroot⟩ := List.append_of_mem hitem
  have hblocks := topLevel_ne_block root
  rw [declaration_eq_foldl, hroot, List.foldl_append, List.foldl_cons] at herrors
  rw [hroot] at hblocks
  exact ⟨before, after, hroot, errors_of_foldl (fun n hn => hblocks n (by simp [hn])) herrors⟩

theorem mem_knownFunctions_of_settled {call : PendingCall} (h : s.pendingError? call = none) :
    (call.name, call.arguments) ∈ s.knownFunctions := by
  simp only [pendingError?] at h
  cases hfunction : s.findFunction? call.name with
  | some function =>
    simp only [hfunction, ite_eq_left_iff, reduceCtorEq, imp_false, not_not] at h
    rw [← h]
    exact mem_knownFunctions_of_findFunction? hfunction
  | none =>
    cases himport : s.findImport? call.name with
    | none => simp [hfunction, himport] at h
    | some found =>
      obtain ⟨index, found⟩ := found
      simp only [hfunction, himport, ite_eq_left_iff, reduceCtorEq, imp_false, not_not] at h
      rw [← h]
      exact List.mem_append_left _ (mem_hostFunctions_of_findImport? himport)

theorem intrinsic_mem_callable {arity : Nat} {op : Opcode} (h : intrinsic? name = some (arity, op)) :
    (name, arity) ∈ c.callable root := by
  apply List.mem_append_left
  apply List.mem_append_left
  exact List.mem_map.mpr ⟨_, mem_of_intrinsic? h, rfl⟩

theorem Gains.subset_callable (hc : Prepared c) {entries : List (String × Nat)} (h : c.Gains entries s)
    (hentries : entries ⊆ root.declared) : s.knownFunctions ⊆ c.callable root := by
  apply List.Subset.trans h.functions
  rw [hc.knownFunctions_eq]
  exact append_subset_append (List.subset_append_right _ _) hentries

theorem map_fst_callable (hc : Prepared c) (root : Node) :
    (c.callable root).map Prod.fst = c.taken ++ root.declared.map Prod.fst := by
  rw [callable, List.map_append, List.map_append, taken, hc.knownFunctions_eq, List.map_map]
  rfl

/-- A function of a script that compiles makes sense with all that the script can call. -/
theorem scopedFunction_of_compile {program : Program} {span : Span} {parameters : List String} {body : Node}
    (hc : Prepared c) (h : c.compile root = .ok program)
    (hitem : .function span name parameters body ∈ root.topLevel) :
    ScopedFunction (c.callable root) parameters body := by
  obtain ⟨herrors, hsettled, -⟩ := compile_ok h
  obtain ⟨before, after, hroot, hfunction⟩ := exists_declaration herrors hitem
  have hblocks := topLevel_ne_block root
  have hbefore : ∀ n ∈ before, ∀ span inner, n ≠ .block span inner :=
    fun n hn => hblocks n (by simp [hroot, hn])
  have hdeclare : declareFunction span name parameters body (before.foldl declaration c) = .ok () _ :=
    recoverDeclaration_ok hfunction
  obtain ⟨hclean, -, inner, d, hdrafted, hparameters, hextra, -⟩ := declareFunction_ok hdeclare hfunction
  have hdistinct := nodup_of_declareFunction hdeclare
  -- The state behind the body is the one that the whole compilation goes through.
  obtain ⟨_, d', hdrafted', -, -, hextends, -⟩ := exists_body hc h hroot
  cases hdrafted.generate.symm.trans hdrafted'.generate
  have hlength := length_boundAfter hdistinct (body.mentions false)
  have hlocals : d.locals = boundAfter parameters (body.mentions false) := hdrafted.locals_eq
  refine ⟨hdistinct, hparameters, ?_, ?_⟩
  · rw [hlocals] at hextra
    omega
  · apply hdrafted.scoped
    refine ⟨fun name arity op hname => intrinsic_mem_callable hname, ?_, ?_⟩
    · have hgains := gains_foldl hbefore hclean
      rw [knownFunctions_entering]
      refine List.append_subset.mpr ⟨hgains.subset_callable hc ?_, ?_⟩
      · rw [Node.declared, hroot, List.filterMap_append]
        exact List.subset_append_left _ _
      · rw [List.cons_subset]
        refine ⟨List.mem_append_right _ ?_, List.nil_subset _⟩
        exact List.mem_filterMap.mpr ⟨_, hitem, rfl⟩
    · intro call hcall
      have hknown := mem_knownFunctions_of_settled (hsettled call (hextends.pending.subset hcall))
      rw [declaration_eq_foldl] at herrors hknown
      exact (gains_foldl hblocks herrors).subset_callable hc (List.Subset.refl _) hknown

theorem wellScoped_of_compile {program : Program} (hc : Prepared c) (h : c.compile root = .ok program) :
    c.WellScoped root := by
  obtain ⟨herrors, -, -⟩ := compile_ok h
  have hblocks := topLevel_ne_block root
  refine ⟨?_, ?_, ?_, ?_, fun _ _ _ _ => scopedFunction_of_compile hc h⟩
  · intro item hitem
    obtain ⟨before, after, -, hclean⟩ := exists_declaration herrors hitem
    obtain ⟨entry, hentry, -⟩ := gains_declaration (hblocks item hitem) hclean
    rw [hentry]
    rfl
  · rw [declaration_eq_foldl] at herrors
    rw [map_fst_callable hc]
    exact nodup_of_foldl hc.nodup_taken hblocks herrors
  · intro entry hentry
    obtain ⟨item, hitem, hdeclared⟩ := List.mem_filterMap.mp hentry
    obtain ⟨before, after, -, hclean⟩ := exists_declaration herrors hitem
    obtain ⟨entry', hentry', -, -, hname⟩ := gains_declaration (hblocks item hitem) hclean
    rw [hdeclared] at hentry'
    cases hentry'
    exact hname
  · intro span name parameters hitem
    obtain ⟨before, after, -, hclean⟩ := exists_declaration herrors hitem
    have himport : addImport name parameters.length (some span) (before.foldl declaration c) = .ok () _ :=
      recoverDeclaration_ok hclean
    exact (addImport_checks himport).2

/-! ### Declarations that go well -/

section

variable {known : List (String × Nat)} {hosts : List String}

/-- A body that makes sense compiles, with as many further locals as it introduces. -/
theorem accepts_body (htable : Table known) {parameters : List String} {body : Node}
    (hbody : ScopedFunction known parameters body) (position : Nat) :
    Accepts (fun c => Clean known hosts c ∧ c.locals = parameters) (node false position body)
      fun _ d => Clean known hosts d ∧ d.locals.length - parameters.length ≤ 255 := by
  have hnode : Accepts (fun c => Clean known hosts c ∧ c.locals = parameters) (node false position body)
      fun _ => Awaits known hosts [] := by
    apply (accepts_node htable body false position []).strengthen
    intro c hc
    refine ⟨hc.1, ?_⟩
    rw [hc.2, List.append_nil]
    exact hbody.mentions
  apply hnode.traced.weaken
  intro code d hbehind
  obtain ⟨hd, c, hc, hrun⟩ := hbehind
  refine ⟨hd.clean, ?_⟩
  obtain ⟨-, hdrafted⟩ := drafted_of_node body hrun hd.clean.errors
  have hlocals : d.locals = boundAfter c.locals (body.mentions false) := hdrafted.locals_eq
  have hlength := length_boundAfter hbody.distinct (body.mentions false)
  have hfurther := hbody.further_le
  rw [hlocals, hc.2]
  omega

theorem accepts_functionBody (htable : Table known) {parameters : List String} {body : Node}
    (hbody : ScopedFunction known parameters body) (position : Nat) (span : Span) (name : String) :
    Accepts (Clean known hosts) (functionBody position span name parameters body)
      fun _ => Clean known hosts := by
  have hdistinct : firstDuplicate? [] parameters = none :=
    firstDuplicate?_eq_none.mpr ⟨hbody.distinct, fun _ _ => List.not_mem_nil⟩
  have hstart : Accepts (Clean known hosts) (modify fun c => { c with locals := parameters })
      fun _ c => Clean known hosts c ∧ c.locals = parameters :=
    accepts_modify (fun _ => rfl) fun _ hc => ⟨{ hc with }, rfl⟩
  unfold functionBody
  simp only [hdistinct]
  apply hstart.bind
  intro _
  apply (accepts_body htable hbody (position + 1)).bind
  intro code
  have hget : Accepts (fun d => Clean known hosts d ∧ d.locals.length - parameters.length ≤ 255) get
      fun e d => Clean known hosts d ∧ e.locals.length - parameters.length ≤ 255 :=
    accepts_get fun _ hd => hd
  apply hget.bind
  intro d
  apply accepts_guard
  · intro _ hd
    have := hbody.parameters_le
    omega
  · exact accepts_pure fun _ hd => hd.1

theorem accepts_declareFunction (htable : Table known) {parameters : List String} {body : Node}
    (hbody : ScopedFunction known parameters body) (hentry : (name, parameters.length) ∈ known)
    (hlength : name.utf8ByteSize ≤ maxNameLength) (span : Span) :
    Accepts (fun c => Clean known hosts c ∧ c.isDeclared name = false)
      (declareFunction span name parameters body) fun _ => Clean known hosts := by
  have hget : Accepts (fun c => Clean known hosts c ∧ c.isDeclared name = false) get
      fun e c => Clean known hosts c ∧ e.isDeclared name = false :=
    accepts_get fun _ hc => hc
  unfold declareFunction
  apply hget.bind
  intro e
  apply accepts_guard
  · intro _ hc
    rw [hc.2]
    exact Bool.false_ne_true
  apply accepts_guard
  · intro _ _
    exact Nat.not_lt.mpr hlength
  have hknown : Accepts (fun c => Clean known hosts c ∧ e.isDeclared name = false)
      (modify fun c => { c with functions := c.functions ++ [⟨name, parameters.length, e.nextPosition⟩] })
      fun _ => Clean known hosts := by
    refine accepts_modify (fun _ => rfl) fun c hc => ?_
    refine { hc.1 with functions := ?_ }
    show c.hostFunctions ++ _ ⊆ known
    rw [List.map_append, ← List.append_assoc]
    exact List.append_subset.mpr ⟨hc.1.functions, by simpa using hentry⟩
  apply hknown.bind
  intro _
  apply (accepts_functionBody htable hbody _ span name).bind
  intro code
  exact accepts_modify (fun _ => rfl) fun _ hc => { hc with }

theorem accepts_addImport {arity : Nat} (hentry : (name, arity) ∈ known)
    (hlength : name.utf8ByteSize ≤ maxNameLength) (harity : arity ≤ 255) (span : Option Span) :
    Accepts (fun c => Clean known hosts c ∧ c.isDeclared name = false) (addImport name arity span)
      fun _ => Clean known hosts := by
  apply accepts_of_ok
  · intro c
    unfold addImport
    split
    · exact List.subset_append_left _ _
    · split
      · exact List.subset_append_left _ _
      · split
        · exact List.subset_append_left _ _
        · exact List.Subset.refl _
  · intro c hc
    have hok : addImport name arity span c
        = .ok () { c with imports := c.imports ++ [⟨⟨name, .ofNat arity⟩, none⟩] } := by
      unfold addImport
      rw [hc.2, if_neg Bool.false_ne_true, if_neg (Nat.not_lt.mpr hlength), if_neg (Nat.not_lt.mpr harity)]
    have hperm := knownFunctions_addImport hok
    refine ⟨(), _, hok, hc.1.errors, ?_, ?_, hc.1.pending⟩
    · exact List.Subset.trans hperm.subset (List.append_subset.mpr ⟨hc.1.functions, by simpa using hentry⟩)
    · apply List.Subset.trans hc.1.names
      simp only [hostFunctions, List.map_append]
      exact append_subset_append (List.subset_append_left _ _) (List.Subset.refl _)

/-- A declaration that goes well leaves the state of its action, and no fault is forgotten. -/
theorem Accepts.recoverDeclaration {action : Action Unit} {pre post : Compilation → Prop}
    (h : Accepts pre action fun _ => post) (s : Compilation) :
    s.errors ⊆ (recoverDeclaration action s).errors ∧
      (pre s → post (recoverDeclaration action s) ∨ Hits (recoverDeclaration action s).errors) := by
  obtain ⟨hkept, hwell⟩ := h s
  unfold Compilation.recoverDeclaration
  cases hrun : action s with
  | ok u d =>
    rw [hrun] at hkept hwell
    refine ⟨hkept, fun hpre => ?_⟩
    obtain ⟨a, d', heq, hpost⟩ | hhits := hwell hpre
    · cases heq
      exact .inl hpost
    · exact .inr hhits
  | error e d =>
    rw [hrun] at hkept hwell
    refine ⟨hkept, fun hpre => ?_⟩
    obtain ⟨a, d', heq, -⟩ | hhits := hwell hpre
    · cases heq
    · exact .inr hhits

end

/-! ### Well-scoped scripts compile -/

theorem WellScoped.table (h : c.WellScoped root) : Table (c.callable root) :=
  ⟨h.distinct, fun _ _ _ hname => intrinsic_mem_callable hname⟩

/-- The names of the host are known from the start. -/
abbrev hostNames (c : Compilation) : List String :=
  c.hostFunctions.map Prod.fst

theorem Prepared.clean (hc : Prepared c) (root : Node) : Clean (c.callable root) c.hostNames c := by
  have hblank := hc.blank
  refine ⟨by rw [hblank], ?_, List.Subset.refl _, ?_⟩
  · exact (Gains.refl c).subset_callable hc (List.nil_subset _)
  · have hpending : c.pending = [] := by rw [hblank]
    rw [hpending]
    exact fun _ hcall => absurd hcall List.not_mem_nil

theorem WellScoped.isDeclared_eq_false (hc : Prepared c) (h : c.WellScoped root) {before after : List Node}
    {item : Node} {entry : String × Nat} (hroot : root.topLevel = before ++ item :: after)
    (hentry : item.declared? = some entry) (hgains : c.Gains (before.filterMap Node.declared?) s) :
    s.isDeclared entry.1 = false := by
  have htaken : s.taken ⊆ c.taken ++ (before.filterMap Node.declared?).map Prod.fst := by
    rw [taken, taken, List.append_assoc, ← List.map_append]
    exact append_subset_append (List.Subset.refl _) (List.map_subset _ hgains.functions)
  have hdistinct := h.distinct
  rw [map_fst_callable hc, Node.declared, hroot, List.filterMap_append, List.filterMap_cons_some hentry,
    List.map_append, List.map_cons, ← List.append_assoc, List.nodup_middle, List.nodup_cons] at hdistinct
  rw [Compilation.isDeclared_eq_false]
  exact fun hmem => hdistinct.1 (List.mem_append_left _ (htaken hmem))

/-- A declaration of a well-scoped script goes well behind those before it, or hits a limit. -/
theorem WellScoped.declaration (hc : Prepared c) (h : c.WellScoped root) {before after : List Node}
    {item : Node} (hroot : root.topLevel = before ++ item :: after) (s : Compilation) :
    s.errors ⊆ (declaration s item).errors ∧
      (Clean (c.callable root) c.hostNames s ∧ c.Gains (before.filterMap Node.declared?) s →
        Clean (c.callable root) c.hostNames (declaration s item) ∨ Hits (declaration s item).errors) := by
  have hitem : item ∈ root.topLevel := by simp [hroot]
  obtain ⟨entry, hentry⟩ := Option.isSome_iff_exists.mp (h.declarations item hitem)
  have hdeclared : entry ∈ root.declared := List.mem_filterMap.mpr ⟨item, hitem, hentry⟩
  have hknown : entry ∈ c.callable root := List.mem_append_right _ hdeclared
  have hlength := h.names entry hdeclared
  have hnew (hs : Clean (c.callable root) c.hostNames s ∧ c.Gains (before.filterMap Node.declared?) s) :
      Clean (c.callable root) c.hostNames s ∧ s.isDeclared entry.1 = false :=
    ⟨hs.1, h.isDeclared_eq_false hc hroot hentry hs.2⟩
  cases item with
  | function span name parameters body =>
    cases hentry
    have hbody := h.functions span name parameters body hitem
    exact ((accepts_declareFunction h.table hbody hknown hlength span).recoverDeclaration s).imp_right
      fun hwell hs => hwell (hnew hs)
  | signature span name parameters =>
    cases hentry
    have harity := h.signatures span name parameters hitem
    exact ((accepts_addImport hknown hlength harity (some span)).recoverDeclaration s).imp_right
      fun hwell hs => hwell (hnew hs)
  | _ => cases hentry

/-- The declarations of a well-scoped script go well, as far as one looks, or have hit a limit. -/
theorem WellScoped.foldl_declaration (hc : Prepared c) (h : c.WellScoped root) {before after : List Node}
    (hroot : root.topLevel = before ++ after) :
    Clean (c.callable root) c.hostNames (before.foldl Compilation.declaration c) ∨
      Hits (before.foldl Compilation.declaration c).errors := by
  induction before using List.reverseRecOn generalizing after with
  | nil => exact .inl (hc.clean root)
  | append_singleton front last ih =>
    rw [List.append_assoc, List.singleton_append] at hroot
    have hfront : ∀ n ∈ front, ∀ span inner, n ≠ .block span inner :=
      fun n hn => topLevel_ne_block root n (by simp [hroot, hn])
    rw [List.foldl_append, List.foldl_cons, List.foldl_nil]
    obtain ⟨hkept, hwell⟩ := h.declaration hc hroot (front.foldl Compilation.declaration c)
    rcases ih hroot with hclean | hhits
    · exact hwell ⟨hclean, gains_foldl hfront hclean.errors⟩
    · exact .inr (hhits.mono hkept)

/-- A name that a script calls and that nothing stands for is an intrinsic or one of the host. -/
theorem Gains.name_cases {arguments : Nat} (hgains : c.Gains root.declared s)
    (hknown : (name, arguments) ∈ c.callable root) (hfunction : s.findFunction? name = none)
    (himport : s.findImport? name = none) : name ∈ intrinsics.map Prod.fst ∨ name ∈ c.hostNames := by
  rcases List.mem_append.mp hknown with hbefore | hdeclared
  · rcases List.mem_append.mp hbefore with hintrinsic | hhost
    · obtain ⟨entry, hentry, heq⟩ := List.mem_map.mp hintrinsic
      cases heq
      exact .inl (List.mem_map_of_mem hentry)
    · exact .inr (List.mem_map.mpr ⟨_, hhost, rfl⟩)
  · have hname : name ∈ s.knownFunctions.map Prod.fst :=
      hgains.names (List.mem_map.mpr ⟨_, List.mem_append_right _ hdeclared, rfl⟩)
    simp only [knownFunctions, hostFunctions, List.map_append, List.map_map, List.mem_append, List.mem_map,
      Function.comp_apply] at hname
    rcases hname with (⟨found, hfound, hsame⟩ | ⟨offer, hoffer, hsame⟩) | ⟨function, hmem, hsame⟩
    · exact absurd hsame (findImport?_eq_none.mp himport found hfound)
    · refine .inr (List.mem_map.mpr ⟨(offer.name, offer.arity.toNat), ?_, hsame⟩)
      exact List.mem_append_right _ (List.mem_map_of_mem (hgains.offered hoffer))
    · have hnone := List.find?_eq_none.mp hfunction function hmem
      simp [hsame] at hnone

/-- When all declarations are done, the calls that were left pending are good. -/
theorem WellScoped.settled (h : c.WellScoped root) (hclean : Clean (c.callable root) c.hostNames s)
    (hgains : c.Gains root.declared s) : ∀ call ∈ s.pending, s.pendingError? call = none := by
  intro call hcall
  obtain ⟨hknown, hintrinsic, hhost⟩ := hclean.pending call hcall
  have hsame {arity : Nat} (harity : (call.name, arity) ∈ s.knownFunctions) : arity = call.arguments :=
    h.table.arity_eq (hclean.functions harity) hknown
  simp only [pendingError?]
  cases hfunction : s.findFunction? call.name with
  | some function =>
    have harity := hsame (mem_knownFunctions_of_findFunction? hfunction)
    simp [harity]
  | none =>
    cases himport : s.findImport? call.name with
    | some found =>
      obtain ⟨index, found⟩ := found
      have harity := hsame (List.mem_append_left _ (mem_hostFunctions_of_findImport? himport))
      simp [harity]
    | none =>
      rcases hgains.name_cases hknown hfunction himport with hmem | hmem
      · exact absurd hmem (intrinsic?_eq_none.mp hintrinsic)
      · exact absurd hmem hhost

/-! ### Linking -/

theorem not_misses_of_hasTarget {count : Nat} {draft : Draft} (h : draft.op.hasTarget = false)
    (target : UInt32) : ¬ draft.Misses count target := by
  intro hmisses
  have htarget := (Draft.mem_operands_address.mp hmisses.1).1
  rw [h] at htarget
  cases htarget

theorem not_misses_of_le {count position : Nat} (h : position ≤ count) (op : Opcode)
    (second target : UInt32) : ¬ (⟨op, .ofNat position, second⟩ : Draft).Misses count target := by
  intro hmisses
  have hlt := hmisses.2
  rw [(Draft.mem_operands_address.mp hmisses.1).2, UInt32.toNat_ofNat'] at hlt
  have := Nat.mod_le position (2 ^ 32)
  omega

variable {segments : List Segment}

theorem Laid.end_le (h : Laid s segments) {q : Segment} (hq : q ∈ segments) :
    q.function.start + 1 + q.body.length ≤ s.code.length := by
  have hend := h.consecutive.end_le hq
  rw [← h.code, Segment.length_code] at hend
  omega

/-- The instructions of a layout have their targets in it. -/
theorem Laid.not_misses (h : Laid s segments) (hsettled : ∀ call ∈ s.pending, s.pendingError? call = none)
    {draft : Draft} (hdraft : draft ∈ s.entryDraft :: s.code.map s.settle) (target : UInt32) :
    ¬ draft.Misses (s.code.length + 1) target := by
  rcases List.mem_cons.mp hdraft with rfl | hmem
  · unfold entryDraft
    cases hmain : s.findFunction? entryFunction with
    | none => exact not_misses_of_hasTarget rfl target
    | some main =>
      have hfunction := List.mem_of_find?_eq_some hmain
      rw [h.functions] at hfunction
      obtain ⟨q, hq, rfl⟩ := List.mem_map.mp hfunction
      have := h.end_le hq
      exact not_misses_of_le (by omega) _ _ _
  · obtain ⟨item, hitem, rfl⟩ := List.mem_map.mp hmem
    rw [h.code] at hitem
    obtain ⟨q, hq, hitem⟩ := List.mem_flatMap.mp hitem
    have hend := h.end_le hq
    rcases List.mem_cons.mp hitem with rfl | hinner
    · exact not_misses_of_hasTarget rfl target
    · cases h.fits hq hinner with
      | @plain op hop =>
        apply not_misses_of_hasTarget
        show op.hasTarget = false
        rw [Bool.eq_false_iff]
        intro htarget
        have hcount := Opcode.operandCount_of_hasTarget htarget
        omega
      | branch hop htarget =>
        have := htarget.2.1
        exact not_misses_of_le (by omega) _ _ _
      | constant hindex => exact not_misses_of_hasTarget rfl target
      | native hindex => exact not_misses_of_hasTarget rfl target
      | @slot op slot hop hslot =>
        apply not_misses_of_hasTarget
        show op.hasTarget = false
        revert hop
        cases op <;> decide
      | leave hloop => cases hloop
      | call hname =>
        obtain ⟨called, hcalled, heq⟩ | ⟨index, -, heq⟩ := h.settle_call hsettled hname
        · have := h.end_le hcalled
          rw [heq]
          exact not_misses_of_le (by omega) _ _ _
        · rw [heq]
          exact not_misses_of_hasTarget rfl target

/-- Code with all its targets links unless it is too long. -/
theorem Laid.program_cases (h : Laid s segments)
    (hsettled : ∀ call ∈ s.pending, s.pendingError? call = none) :
    (∃ program, s.program = .ok program) ∨ s.program = .error .tooLarge := by
  unfold program
  rcases Assembly.link_cases ⟨(s.entryDraft :: s.code.map s.settle).toArray⟩ with
    ⟨hlink, -⟩ | ⟨-, position, target, -, ⟨draft, hdraft, hmisses⟩, -⟩ | ⟨-, ⟨linked, hlink⟩, -⟩
  · rw [hlink]
    exact .inr rfl
  · have hmem := List.mem_of_getElem? hdraft
    exact absurd (by simpa using hmisses) (h.not_misses hsettled (by simpa using hmem) target)
  · rw [hlink]
    exact .inl ⟨_, rfl⟩

/-- Without faults, what becomes of a script is what becomes of its program. -/
theorem compile_of_settled (herrors : (declaration c root).errors = [])
    (hsettled : ∀ call ∈ (declaration c root).pending, (declaration c root).pendingError? call = none) :
    (∀ program, (declaration c root).program = .ok program → c.compile root = .ok program) ∧
      ∀ e, (declaration c root).program = .error e → c.compile root = .error ⟨[⟨.link e, none⟩]⟩ := by
  have hchecked : (declaration c root).checkPending = declaration c root := by
    simp [checkPending, List.filterMap_eq_nil_iff.mpr hsettled]
  simp only [compile, hchecked, herrors]
  constructor
  · intro program hprogram
    simp [hprogram]
  · intro e hprogram
    simp [hprogram]

theorem compile_of_errors (herrors : (declaration c root).errors ≠ []) :
    ∃ more, c.compile root = .error ⟨(declaration c root).errors ++ more⟩ := by
  have hchecked : (declaration c root).checkPending.errors ≠ [] :=
    fun hnil => herrors (List.append_eq_nil_iff.mp hnil).1
  exact ⟨_, if_pos hchecked⟩

/-- A well-scoped script compiles unless it is too large. -/
theorem WellScoped.compiles (hc : Prepared c) (h : c.WellScoped root) :
    (∃ program, c.compile root = .ok program) ∨ ∃ d, c.compile root = .error d ∧ Hits d.errors := by
  have hblocks := topLevel_ne_block root
  have hfold := h.foldl_declaration hc (List.append_nil _).symm
  rcases hfold with hclean | hhits
  · have hsettled := h.settled hclean (gains_foldl hblocks hclean.errors)
    obtain ⟨-, segments, hlaid, -⟩ := hc.laid.foldl_declaration hblocks hclean.errors
    have hprogram := hlaid.program_cases hsettled
    have herrors := hclean.errors
    rw [← declaration_eq_foldl] at herrors hsettled hprogram
    obtain ⟨hok, herror⟩ := compile_of_settled herrors hsettled
    rcases hprogram with ⟨program, hprogram⟩ | hlarge
    · exact .inl ⟨program, hok program hprogram⟩
    · exact .inr ⟨_, herror _ hlarge, _, List.mem_singleton_self _, rfl⟩
  · rw [← declaration_eq_foldl] at hhits
    obtain ⟨more, hcompile⟩ := compile_of_errors hhits.ne_nil
    exact .inr ⟨_, hcompile, hhits.mono (List.subset_append_left _ _)⟩

/-- The compiler accepts exactly the well-scoped scripts, as long as there is room: no constant was
refused, and the code is not too long. -/
theorem compiles_iff_wellScoped {c : Compilation} {root : Node} (hc : Prepared c)
    (hroom : ∀ d, c.compile root = .error d → ¬ Hits d.errors) :
    (∃ program, c.compile root = .ok program) ↔ c.WellScoped root := by
  constructor
  · intro h
    obtain ⟨program, hprogram⟩ := h
    exact wellScoped_of_compile hc hprogram
  · intro h
    rcases h.compiles hc with hok | ⟨d, hd, hhits⟩
    · exact hok
    · exact absurd hhits (hroom d hd)

def sumScript (left right : Node) : Node :=
  .function {} "main" [] (.binary {} .add left right)

/-- The right operand is compiled first, so a variable may be introduced there and read on the left, and
not the other way round. -/
theorem compiles_iff_wellScoped_sample : sampleHost.WellScoped sampleScript ∧
    WellScoped {} (sumScript (.read {} "x") (.declare {} "x")) ∧
      ¬ WellScoped {} (sumScript (.declare {} "x") (.read {} "x")) := by
  have hroom {c : Compilation} {root : Node} (h : ∃ program, c.compile root = .ok program) :
      ∀ d, c.compile root = .error d → ¬ Hits d.errors := by
    intro d hd
    obtain ⟨program, hprogram⟩ := h
    rw [hprogram] at hd
    cases hd
  have haccepted : ∃ program, compile {} (sumScript (.read {} "x") (.declare {} "x")) = .ok program :=
    ⟨_, by cbv⟩
  have hrejected : compile {} (sumScript (.declare {} "x") (.read {} "x"))
      = .error ⟨[⟨.unknownVariable "x", some {}⟩]⟩ := by cbv
  refine ⟨?_, ?_, ?_⟩
  · exact (compiles_iff_wellScoped prepared_sampleHost (hroom compiles_sampleScript)).mp compiles_sampleScript
  · exact (compiles_iff_wellScoped .start (hroom haccepted)).mp haccepted
  · intro h
    have hlimit : ∀ d, compile {} (sumScript (.declare {} "x") (.read {} "x")) = .error d →
        ¬ Hits d.errors := by
      intro d hd
      rw [hrejected] at hd
      cases hd
      simp [Hits, CompileFault.isLimit]
    obtain ⟨program, hprogram⟩ := (compiles_iff_wellScoped .start hlimit).mpr h
    rw [hrejected] at hprogram
    cases hprogram

end Compilation

end ScriptMachine
