import Mathlib
import ScriptMachine.Proofs.Script.Layout

/-!
# Names and their places

Which scripts make sense is a matter of names: what is called has to be there and take that many
arguments, and what is read has to have been introduced before. *Before* means in the order in which
code is generated, which is not that of the text: the right operand comes before the left one, the
value of an assignment before its target, and the collection of a loop before its variable.

A body is therefore looked at as the list of its mentions in that order, and what it takes to be well
scoped is said of this list alone. A compilation without faults is tied to it by the rules of code
generation.
-/

namespace ScriptMachine

/-- What a body says about names, and the things in it that are out of place. -/
inductive Mention where
  /-- A variable is read, or assigned to by its name. -/
  | uses (name : String)
  /-- A variable comes into being, or is there already. -/
  | introduces (name : String)
  | calls (name : String) (arguments : Nat)
  /-- A loop is left where there is none. -/
  | strayBreak
  /-- A function or a signature is declared inside a function. -/
  | strayDeclaration
  /-- Something that is no variable is assigned to. -/
  | strayTarget
  deriving DecidableEq, Repr

namespace Mention

def introduced? : Mention → Option String
  | .introduces name => some name
  | _ => none

/-- The names that are introduced, in order and with repetitions. -/
def introduced (mentions : List Mention) : List String :=
  mentions.filterMap introduced?

/-- The name that is called and the number of arguments. -/
def call? : Mention → Option (String × Nat)
  | .calls name arguments => some (name, arguments)
  | _ => none

def called (mentions : List Mention) : List (String × Nat) :=
  mentions.filterMap call?

def adjoin (bound : List String) (name : String) : List String :=
  if name ∈ bound then bound else bound ++ [name]

/-- The names that are bound behind the mentions. -/
def boundAfter (bound : List String) (mentions : List Mention) : List String :=
  (introduced mentions).foldl adjoin bound

end Mention

namespace Node

def asTarget : Node → Mention
  | .declare _ name => .introduces name
  | .read _ name => .uses name
  | _ => .strayTarget

mutual

/-- The mentions of a node in the order of code generation. `inLoop` says whether there is a loop of
the function around it. -/
def mentions (inLoop : Bool) : Node → List Mention
  | .number _ _ | .bool _ _ | .text _ _ => []
  | .read _ name => [.uses name]
  | .declare _ name => [.introduces name]
  | .array _ elements => mentionsAll inLoop elements
  | .block _ items => mentionsAll inLoop items
  | .branch _ condition body next =>
    mentions inLoop condition ++ mentions inLoop body ++ mentionsOption inLoop next
  | .forEach _ name collection body =>
    mentions inLoop collection ++ .introduces name :: mentions true body
  | .binary _ _ left right => mentions inLoop right ++ mentions inLoop left
  | .unary _ _ inner => mentions inLoop inner
  | .assign _ target value => mentions inLoop value ++ [target.asTarget]
  | .result _ value => mentionsOption inLoop value
  | .leave _ => if inLoop then [] else [.strayBreak]
  | .signature _ _ _ => [.strayDeclaration]
  | .function _ _ _ _ => [.strayDeclaration]
  | .call _ name arguments => mentionsAll inLoop arguments ++ [.calls name arguments.length]

def mentionsAll (inLoop : Bool) : List Node → List Mention
  | [] => []
  | first :: rest => mentions inLoop first ++ mentionsAll inLoop rest

def mentionsOption (inLoop : Bool) : Option Node → List Mention
  | none => []
  | some inner => mentions inLoop inner

end

/-- The name of a function or a signature and the number of its parameters. -/
def declared? : Node → Option (String × Nat)
  | .function _ name parameters _ | .signature _ name parameters => some (name, parameters.length)
  | _ => none

/-- What a script declares, in the order of its text. -/
def declared (root : Node) : List (String × Nat) :=
  root.topLevel.filterMap declared?

def bodyCalls : Node → List (String × Nat)
  | .function _ _ _ body => Mention.called (body.mentions false)
  | _ => []

/-- The calls in the functions of a script, in the order of code generation. -/
def calls (root : Node) : List (String × Nat) :=
  root.topLevel.flatMap bodyCalls

end Node

/-- The mentions make sense: `callable` are the names that can be called with their arities, and `bound`
are the variables that are there at the start. -/
structure Scoped (callable : List (String × Nat)) (bound : List String) (mentions : List Mention) : Prop where
  uses : ∀ before name after, mentions = before ++ .uses name :: after →
    name ∈ bound ∨ .introduces name ∈ before
  calls : ∀ name arguments, .calls name arguments ∈ mentions → (name, arguments) ∈ callable
  breaks : .strayBreak ∉ mentions
  declarations : .strayDeclaration ∉ mentions
  targets : .strayTarget ∉ mentions

/-- The body of a function makes sense with its parameters. -/
structure ScopedFunction (callable : List (String × Nat)) (parameters : List String) (body : Node) :
    Prop where
  distinct : parameters.Nodup
  parameters_le : parameters.length ≤ 255
  further_le : ((Mention.introduced (body.mentions false)).toFinset \ parameters.toFinset).card ≤ 255
  mentions : Scoped callable parameters (body.mentions false)

namespace Compilation

/-- The host functions that are declared or offered, with their arities. -/
def hostFunctions (c : Compilation) : List (String × Nat) :=
  c.imports.map (fun known => (known.entry.name, known.entry.arity.toNat))
    ++ c.offered.map fun offer => (offer.name, offer.arity.toNat)

def callable (c : Compilation) (root : Node) : List (String × Nat) :=
  intrinsics.map (fun (name, arity, _) => (name, arity)) ++ c.hostFunctions ++ root.declared

/-- The script makes sense with the host functions that were declared and offered. -/
structure WellScoped (c : Compilation) (root : Node) : Prop where
  declarations : ∀ item ∈ root.topLevel, item.declared?.isSome = true
  distinct : ((c.callable root).map Prod.fst).Nodup
  names : ∀ entry ∈ root.declared, entry.1.utf8ByteSize ≤ 65535
  signatures : ∀ span name parameters, .signature span name parameters ∈ root.topLevel →
    parameters.length ≤ 255
  functions : ∀ span name parameters body, .function span name parameters body ∈ root.topLevel →
    ScopedFunction (c.callable root) parameters body

end Compilation

/-! ### Mentions one behind the other -/

namespace Mention

theorem mem_adjoin {bound : List String} {name other : String} :
    other ∈ adjoin bound name ↔ other ∈ bound ∨ other = name := by
  unfold adjoin
  split
  · rename_i hmem
    constructor
    · exact .inl
    · intro h
      rcases h with hother | rfl
      · exact hother
      · exact hmem
  · simp

theorem mem_foldl_adjoin {names bound : List String} {name : String} :
    name ∈ names.foldl adjoin bound ↔ name ∈ bound ∨ name ∈ names := by
  induction names generalizing bound with
  | nil => simp
  | cons first rest ih =>
    rw [List.foldl_cons, ih, mem_adjoin, List.mem_cons]
    exact or_assoc

theorem mem_introduced {mentions : List Mention} {name : String} :
    name ∈ introduced mentions ↔ .introduces name ∈ mentions := by
  rw [introduced, List.mem_filterMap]
  constructor
  · intro h
    obtain ⟨mention, hmention, hname⟩ := h
    cases mention with
    | introduces other =>
      cases hname
      exact hmention
    | _ => cases hname
  · intro h
    exact ⟨_, h, rfl⟩

theorem mem_boundAfter {mentions : List Mention} {bound : List String} {name : String} :
    name ∈ boundAfter bound mentions ↔ name ∈ bound ∨ .introduces name ∈ mentions := by
  rw [boundAfter, mem_foldl_adjoin, mem_introduced]

theorem boundAfter_append (bound : List String) (first second : List Mention) :
    boundAfter bound (first ++ second) = boundAfter (boundAfter bound first) second := by
  rw [boundAfter, introduced, List.filterMap_append, List.foldl_append]
  rfl

theorem nodup_foldl_adjoin {names bound : List String} (h : bound.Nodup) :
    (names.foldl adjoin bound).Nodup := by
  induction names generalizing bound with
  | nil => exact h
  | cons first rest ih =>
    apply ih
    unfold adjoin
    split
    · exact h
    · rename_i hnew
      exact List.Nodup.append h (List.nodup_singleton first) (by simpa using hnew)

/-- The variables beyond those of the start are counted by the names that are introduced. -/
theorem length_boundAfter {bound : List String} (h : bound.Nodup) (mentions : List Mention) :
    (boundAfter bound mentions).length
      = bound.length + ((introduced mentions).toFinset \ bound.toFinset).card := by
  have hunion : (boundAfter bound mentions).toFinset
      = bound.toFinset ∪ ((introduced mentions).toFinset \ bound.toFinset) := by
    ext name
    simp [mem_boundAfter, mem_introduced]
  have hnodup : (boundAfter bound mentions).Nodup := nodup_foldl_adjoin h
  rw [← List.toFinset_card_of_nodup hnodup, hunion, Finset.card_union_of_disjoint Finset.disjoint_sdiff,
    List.toFinset_card_of_nodup h]

end Mention

section

open Mention

variable {known : List (String × Nat)} {bound : List String} {first second : List Mention}

theorem scoped_append :
    Scoped known bound (first ++ second) ↔
      Scoped known bound first ∧ Scoped known (boundAfter bound first) second := by
  constructor
  · intro h
    refine ⟨⟨?_, ?_, ?_, ?_, ?_⟩, ⟨?_, ?_, ?_, ?_, ?_⟩⟩
    · intro before name after heq
      apply h.uses before name (after ++ second)
      rw [heq, List.append_assoc, List.cons_append]
    · intro name arguments hcall
      exact h.calls name arguments (List.mem_append_left _ hcall)
    · exact fun hmem => h.breaks (List.mem_append_left _ hmem)
    · exact fun hmem => h.declarations (List.mem_append_left _ hmem)
    · exact fun hmem => h.targets (List.mem_append_left _ hmem)
    · intro before name after heq
      have huse := h.uses (first ++ before) name after (by rw [heq, List.append_assoc])
      rw [mem_boundAfter]
      rw [List.mem_append] at huse
      exact or_assoc.mpr huse
    · intro name arguments hcall
      exact h.calls name arguments (List.mem_append_right _ hcall)
    · exact fun hmem => h.breaks (List.mem_append_right _ hmem)
    · exact fun hmem => h.declarations (List.mem_append_right _ hmem)
    · exact fun hmem => h.targets (List.mem_append_right _ hmem)
  · intro h
    obtain ⟨hfirst, hsecond⟩ := h
    have hneither {mention : Mention} (hf : mention ∉ first) (hs : mention ∉ second) :
        mention ∉ first ++ second := by
      rw [List.mem_append]
      exact not_or.mpr ⟨hf, hs⟩
    refine ⟨?_, ?_, hneither hfirst.breaks hsecond.breaks,
      hneither hfirst.declarations hsecond.declarations, hneither hfirst.targets hsecond.targets⟩
    · intro before name after heq
      -- The use lies in the second list behind all of the first, or in the first one.
      obtain ⟨middle, rfl, hrest⟩ | ⟨middle, hbefore, hrest⟩ := List.append_eq_append_iff.mp heq
      · have huse := hsecond.uses middle name after hrest
        rw [mem_boundAfter] at huse
        rw [List.mem_append]
        exact or_assoc.mp huse
      · cases middle with
        | nil =>
          rw [List.append_nil] at hbefore
          have huse := hsecond.uses [] name after hrest.symm
          rw [mem_boundAfter] at huse
          subst hbefore
          simpa using huse
        | cons mention middle =>
          rw [List.cons_append] at hrest
          obtain ⟨rfl, -⟩ := List.cons.inj hrest
          exact hfirst.uses before name middle hbefore
    · intro name arguments hcall
      rcases List.mem_append.mp hcall with hmem | hmem
      · exact hfirst.calls name arguments hmem
      · exact hsecond.calls name arguments hmem

theorem scoped_cons {mention : Mention} {rest : List Mention} :
    Scoped known bound (mention :: rest) ↔
      Scoped known bound [mention] ∧ Scoped known (boundAfter bound [mention]) rest := by
  rw [← List.singleton_append]
  exact scoped_append

theorem scoped_nil : Scoped known bound [] := by
  refine ⟨?_, by simp, by simp, by simp, by simp⟩
  intro before name after heq
  simp at heq

theorem scoped_introduces (name : String) : Scoped known bound [.introduces name] := by
  refine ⟨?_, by simp, by simp, by simp, by simp⟩
  intro before other after heq
  simp [List.singleton_eq_append_iff] at heq

theorem scoped_uses {name : String} : Scoped known bound [.uses name] ↔ name ∈ bound := by
  constructor
  · intro h
    simpa using h.uses [] name [] rfl
  · intro h
    refine ⟨?_, by simp, by simp, by simp, by simp⟩
    intro before other after heq
    rw [List.singleton_eq_append_iff] at heq
    simp at heq
    obtain ⟨-, rfl, -⟩ := heq
    exact .inl h

theorem scoped_calls {name : String} {arguments : Nat} :
    Scoped known bound [.calls name arguments] ↔ (name, arguments) ∈ known := by
  constructor
  · intro h
    exact h.calls name arguments (by simp)
  · intro h
    refine ⟨?_, ?_, by simp, by simp, by simp⟩
    · intro before other after heq
      simp [List.singleton_eq_append_iff] at heq
    · intro other count hcall
      cases List.mem_singleton.mp hcall
      exact h

end

namespace Compilation

open Mention

/-! ### The variables of a function -/

def Part.mentions (inLoop : Bool) : Part → List Mention
  | .node n => n.mentions inLoop
  | .nodes list | .statements list => Node.mentionsAll inLoop list

theorem locals_of_declareLocal {name : String} {slot : Nat} {c c' : Compilation}
    (h : declareLocal name c = .ok slot c') : c'.locals = adjoin c.locals name := by
  unfold declareLocal at h
  cases hfound : c.locals.findIdx? (· == name) with
  | some index =>
    rw [hfound] at h
    cases h
    have hmem : name ∈ c.locals := by
      obtain ⟨hlt, hname, -⟩ := List.findIdx?_eq_some_iff_getElem.mp hfound
      rw [← eq_of_beq hname]
      exact List.getElem_mem hlt
    rw [adjoin, if_pos hmem]
  | none =>
    rw [hfound] at h
    cases h
    have hnew : name ∉ c.locals := by
      intro hmem
      simpa using List.findIdx?_eq_none_iff.mp hfound name hmem
    rw [adjoin, if_neg hnew]

theorem mem_locals_of_findLocal {span : Span} {name : String} {slot : Nat} {c c' : Compilation}
    (h : findLocal span name c = .ok slot c') : name ∈ c.locals :=
  List.mem_of_getElem? (findLocal_ok h).2

theorem locals_of_targetSlot {target : Node} {slot : Nat} {c c' : Compilation}
    (h : targetSlot target c = .ok slot c') :
    c'.locals = boundAfter c.locals [target.asTarget] ∧
      ∀ known, Scoped known c.locals [target.asTarget] := by
  unfold targetSlot at h
  split at h
  · exact ⟨locals_of_declareLocal h, fun _ => scoped_introduces _⟩
  · obtain ⟨rfl, -⟩ := findLocal_ok h
    exact ⟨rfl, fun _ => scoped_uses.mpr (mem_locals_of_findLocal h)⟩
  · exact absurd h Outcome.throw_ne_ok

/-! ### What can be called -/

def knownFunctions (c : Compilation) : List (String × Nat) :=
  c.hostFunctions ++ c.functions.map fun function => (function.name, function.arity)

/-- The state in which a call finds the import of a name: an offer for it is accepted. -/
def resolved (name : String) (c : Compilation) : Compilation :=
  if (c.findImport? name).isSome then c else c.acceptOffer name

theorem resolveImport_eq (name : String) (c : Compilation) :
    resolveImport name c = .ok ((c.resolved name).findImport? name) (c.resolved name) := by
  unfold resolveImport resolved
  cases hfound : c.findImport? name with
  | some found => simp [hfound]
  | none => simp

/-- The host functions of the first state are those of the second, where offers may have become
imports. -/
structure Hosts (c c' : Compilation) : Prop where
  subset : c'.hostFunctions ⊆ c.hostFunctions
  names : c.hostFunctions.map Prod.fst ⊆ c'.hostFunctions.map Prod.fst
  offered : c'.offered ⊆ c.offered

theorem Hosts.refl (c : Compilation) : c.Hosts c :=
  ⟨List.Subset.refl _, List.Subset.refl _, List.Subset.refl _⟩

theorem Hosts.trans {c d e : Compilation} (hcd : c.Hosts d) (hde : d.Hosts e) : c.Hosts e :=
  ⟨List.Subset.trans hde.subset hcd.subset, List.Subset.trans hcd.names hde.names,
    List.Subset.trans hde.offered hcd.offered⟩

theorem Hosts.of_eq {c c' : Compilation} (himports : c'.imports = c.imports)
    (hoffered : c'.offered = c.offered) : c.Hosts c' := by
  have hsame : c'.hostFunctions = c.hostFunctions := by rw [hostFunctions, hostFunctions, himports, hoffered]
  refine ⟨?_, ?_, ?_⟩
  · rw [hsame]
    exact List.Subset.refl _
  · rw [hsame]
    exact List.Subset.refl _
  · rw [hoffered]
    exact List.Subset.refl _

theorem append_subset_append {α : Type} {a b x y : List α} (h : a ⊆ b) (h' : x ⊆ y) : a ++ x ⊆ b ++ y :=
  List.append_subset.mpr ⟨List.subset_append_of_subset_left _ h, List.subset_append_of_subset_right _ h'⟩

theorem Hosts.knownFunctions_subset {c c' : Compilation} (h : c.Hosts c')
    (hfunctions : c'.functions = c.functions) : c'.knownFunctions ⊆ c.knownFunctions := by
  rw [knownFunctions, knownFunctions, hfunctions]
  exact append_subset_append h.subset (List.Subset.refl _)

theorem hosts_acceptOffer (name : String) (c : Compilation) : c.Hosts (c.acceptOffer name) := by
  unfold acceptOffer
  cases hfind : c.offered.find? (·.name == name) with
  | none => exact .refl c
  | some offer =>
    have hoffer : offer ∈ c.offered := List.mem_of_find?_eq_some hfind
    have hname : offer.name = name := by simpa using List.find?_some hfind
    refine ⟨?_, ?_, ?_⟩
    · intro entry hentry
      simp only [hostFunctions, List.map_append, List.mem_append, List.mem_map] at hentry ⊢
      rcases hentry with (himport | ⟨known, hknown, rfl⟩) | ⟨other, hother, rfl⟩
      · exact .inl himport
      · rw [List.mem_singleton.mp hknown]
        exact .inr ⟨offer, hoffer, rfl⟩
      · exact .inr ⟨other, (List.mem_filter.mp hother).1, rfl⟩
    · intro other hother
      simp only [hostFunctions, List.map_append, List.map_map, List.mem_append, List.mem_map,
        Function.comp_apply] at hother ⊢
      rcases hother with himport | ⟨o, ho, rfl⟩
      · exact .inl (.inl himport)
      · by_cases hsame : o.name = name
        · exact .inl (.inr ⟨_, List.mem_singleton_self _, hname.trans hsame.symm⟩)
        · exact .inr ⟨o, List.mem_filter.mpr ⟨ho, by simpa using hsame⟩, rfl⟩
    · exact List.filter_subset_self _

theorem hosts_resolved (name : String) (c : Compilation) : c.Hosts (c.resolved name) := by
  unfold resolved
  split
  · exact .refl c
  · exact hosts_acceptOffer name c

/-- Finding the import of a name changes nothing but the host functions. -/
theorem resolved_eq (name : String) (c : Compilation) :
    c.resolved name = { c with imports := (c.resolved name).imports, offered := (c.resolved name).offered } := by
  unfold resolved acceptOffer
  split
  · rfl
  · split <;> rfl

theorem mem_of_findImport? {c : Compilation} {name : String} {index : Nat} {found : KnownImport}
    (h : c.findImport? name = some (index, found)) : found ∈ c.imports ∧ found.entry.name = name := by
  unfold findImport? at h
  cases hindex : c.imports.findIdx? (·.entry.name == name) with
  | none =>
    rw [hindex] at h
    cases h
  | some i =>
    rw [hindex] at h
    obtain ⟨known, hknown, heq⟩ := Option.map_eq_some_iff.mp h
    cases heq
    obtain ⟨hlt, hname, -⟩ := List.findIdx?_eq_some_iff_getElem.mp hindex
    rw [List.getElem?_eq_getElem hlt] at hknown
    cases hknown
    exact ⟨List.getElem_mem hlt, eq_of_beq hname⟩

theorem findImport?_eq_none {c : Compilation} {name : String} :
    c.findImport? name = none ↔ ∀ known ∈ c.imports, known.entry.name ≠ name := by
  unfold findImport?
  cases hindex : c.imports.findIdx? (·.entry.name == name) with
  | none => simpa using hindex
  | some i =>
    obtain ⟨hlt, hname, -⟩ := List.findIdx?_eq_some_iff_getElem.mp hindex
    simp only [List.getElem?_eq_getElem hlt, Option.map_some, reduceCtorEq, false_iff, not_forall, not_not]
    exact ⟨_, List.getElem_mem hlt, eq_of_beq hname⟩

theorem mem_hostFunctions_of_findImport? {c : Compilation} {name : String} {index : Nat} {found : KnownImport}
    (h : c.findImport? name = some (index, found)) : (name, found.entry.arity.toNat) ∈ c.hostFunctions := by
  obtain ⟨hmem, rfl⟩ := mem_of_findImport? h
  exact List.mem_append_left _ (List.mem_map_of_mem hmem)

theorem mem_knownFunctions_of_findFunction? {c : Compilation} {name : String} {function : Function}
    (h : c.findFunction? name = some function) : (name, function.arity) ∈ c.knownFunctions := by
  have hname : function.name = name := by simpa using List.find?_some h
  rw [← hname]
  exact List.mem_append_right _ (List.mem_map_of_mem (List.mem_of_find?_eq_some h))

/-- A name without an import behind its call is none of the host functions. -/
theorem not_mem_hostFunctions {c : Compilation} {name : String}
    (h : (c.resolved name).findImport? name = none) : name ∉ c.hostFunctions.map Prod.fst := by
  have himports := findImport?_eq_none.mp h
  intro hname
  have hmem := (hosts_resolved name c).names hname
  simp only [hostFunctions, List.map_append, List.map_map, List.mem_append, List.mem_map,
    Function.comp_apply] at hmem
  rcases hmem with ⟨known, hknown, hsame⟩ | ⟨offer, hoffer, hsame⟩
  · exact himports known hknown hsame
  · cases hfound : c.findImport? name with
    | some found => simp [resolved, hfound] at h
    | none =>
      simp only [resolved, hfound, Option.isSome_none, Bool.false_eq_true, if_false, acceptOffer] at hoffer
      cases hfind : c.offered.find? (·.name == name) with
      | none =>
        rw [hfind] at hoffer
        have hnone := List.find?_eq_none.mp hfind offer hoffer
        simp [hsame] at hnone
      | some accepted =>
        rw [hfind] at hoffer
        have hother := (List.mem_filter.mp hoffer).2
        simp [hsame] at hother

/-- A call is checked against the arity of a name that is known, or it is left pending. -/
theorem callItem_cases (span : Span) (name : String) (arguments : Nat) (c : Compilation) :
    (∃ arity item, (name, arity) ∈ c.knownFunctions ∧
      callItem span name arguments c
        = (checkArity span name arity arguments >>= fun _ => pure item) (c.resolved name)) ∨
    (name ∉ c.hostFunctions.map Prod.fst ∧
      callItem span name arguments c
        = .ok (.call name) { c.resolved name with pending := c.pending ++ [⟨name, arguments, span⟩] }) := by
  have hpending : (c.resolved name).pending = c.pending := by rw [resolved_eq]
  have hfunctions : (c.resolved name).functions = c.functions := by rw [resolved_eq]
  rw [callItem, Outcome.bind_of_ok (resolveImport_eq name c)]
  cases himport : (c.resolved name).findImport? name with
  | some found =>
    obtain ⟨index, found⟩ := found
    refine .inl ⟨found.entry.arity.toNat, _, ?_, rfl⟩
    exact List.mem_append_left _ ((hosts_resolved _ c).subset (mem_hostFunctions_of_findImport? himport))
  | none =>
    dsimp only
    rw [Outcome.bind_of_ok (Outcome.get_eq_ok.mpr ⟨rfl, rfl⟩)]
    cases hfunction : (c.resolved name).findFunction? name with
    | some function =>
      refine .inl ⟨function.arity, _, ?_, rfl⟩
      exact (hosts_resolved name c).knownFunctions_subset hfunctions
        (mem_knownFunctions_of_findFunction? hfunction)
    | none =>
      refine .inr ⟨not_mem_hostFunctions himport, ?_⟩
      rw [← hpending]
      rfl

theorem locals_of_callItem {span : Span} {name : String} {arguments : Nat} {item : Item}
    {c c' : Compilation} (h : callItem span name arguments c = .ok item c') :
    c'.locals = c.locals ∧ c.Hosts c' := by
  have hhosts := hosts_resolved name c
  have hlocals : (c.resolved name).locals = c.locals := by rw [resolved_eq]
  obtain ⟨arity, called, -, hcall⟩ | ⟨-, hcall⟩ := callItem_cases span name arguments c
  · rw [hcall] at h
    obtain ⟨_, d, hcheck, h⟩ := Outcome.bind_eq_ok.mp h
    obtain ⟨rfl, -⟩ := checkArity_ok hcheck
    obtain ⟨-, rfl⟩ := Outcome.pure_eq_ok.mp h
    exact ⟨hlocals, hhosts⟩
  · rw [hcall] at h
    cases h
    exact ⟨hlocals, hhosts.trans (.of_eq rfl rfl)⟩

/-- Behind an if chain that ends there is nothing to mention. -/
theorem mentions_of_not_continues {l : Bool} {next : Option Node} (h : continues next = false) :
    Node.mentionsOption l next = [] := by
  unfold continues at h
  split at h
  · rfl
  · rfl
  · cases h

/-- The locals after a part are those that its mentions bind. -/
theorem Drafted.locals_eq {l : Bool} {p : Nat} {part : Part} {c c' : Compilation} {code : Code}
    (h : Drafted l p part c code c') : c'.locals = boundAfter c.locals (part.mentions l) := by
  induction h with
  | literal hn hinsert => cases hn <;> rfl
  | read hslot => rfl
  | declare hslot => exact locals_of_declareLocal hslot
  | array helements hinsert ih => exact ih
  | block hitems ih => exact ih
  | lastBranch htest hbody hnext ihtest ihbody =>
    rw [Part.mentions, Node.mentions, mentions_of_not_continues hnext, List.append_nil, boundAfter_append,
      ihbody, ihtest]
    rfl
  | branch htest hbody hnext hrest ihtest ihbody ihrest =>
    rw [Part.mentions, Node.mentions, boundAfter_append, boundAfter_append, ihrest, ihbody, ihtest]
    rfl
  | forEach helements hslot hbody ihelements ihbody =>
    rw [Part.mentions, Node.mentions, boundAfter_append, ihbody, locals_of_declareLocal hslot, ihelements]
    rfl
  | binary hright hleft ihright ihleft =>
    rw [Part.mentions, Node.mentions, boundAfter_append, ihleft, ihright]
    rfl
  | unary hinner ih => exact ih
  | assign hvalue hslot ih =>
    rw [Part.mentions, Node.mentions, boundAfter_append, (locals_of_targetSlot hslot).1, ih]
    rfl
  | resultValue hvalue ih => exact ih
  | resultNothing => rfl
  | leave => rfl
  | intrinsic hname harguments ih =>
    rw [Part.mentions, Node.mentions, boundAfter_append, ih]
    rfl
  | call hname harguments hitem ih =>
    rw [Part.mentions, Node.mentions, boundAfter_append, (locals_of_callItem hitem).1, ih]
    rfl
  | nodesNil => rfl
  | nodesCons hfirst hrest ihfirst ihrest | statementsCons hfirst hrest ihfirst ihrest =>
    rw [Part.mentions, Node.mentionsAll, boundAfter_append, ihrest, ihfirst]
    rfl
  | statementsNil => rfl

/-- Drafting code keeps the host functions. -/
theorem Drafted.hosts {l : Bool} {p : Nat} {part : Part} {c c' : Compilation} {code : Code}
    (h : Drafted l p part c code c') : c.Hosts c' :=
  h.relates .refl .trans (fun _ _ => .of_eq rfl rfl) (fun _ _ => .of_eq rfl rfl)
    fun hitem => (locals_of_callItem hitem).2

/-- Nothing becomes known while code is drafted. -/
theorem Drafted.knownFunctions_subset {l : Bool} {p : Nat} {part : Part} {c c' : Compilation} {code : Code}
    (h : Drafted l p part c code c') : c'.knownFunctions ⊆ c.knownFunctions :=
  h.hosts.knownFunctions_subset h.grows.functions

/-! ### Drafted code is well scoped -/

/-- The calls that are known or pending are among the callable names. -/
structure Covers (known : List (String × Nat)) (c c' : Compilation) : Prop where
  intrinsics : ∀ name arity op, intrinsic? name = some (arity, op) → (name, arity) ∈ known
  functions : c.knownFunctions ⊆ known
  pending : ∀ call ∈ c'.pending, (call.name, call.arguments) ∈ known

/-- What covers a stretch of a compilation covers its first part. -/
theorem Covers.front {known : List (String × Nat)} {c d c' : Compilation} (h : Covers known c c')
    (hgrows : d.Grows c') : Covers known c d :=
  ⟨h.intrinsics, h.functions, fun call hcall => h.pending call (hgrows.pending.subset hcall)⟩

/-- What covers a stretch of a compilation covers what is left of it. -/
theorem Covers.back {known : List (String × Nat)} {c d c' : Compilation} (h : Covers known c c')
    (hsubset : d.knownFunctions ⊆ c.knownFunctions) : Covers known d c' :=
  ⟨h.intrinsics, List.Subset.trans hsubset h.functions, h.pending⟩

theorem scoped_of_callItem {known : List (String × Nat)} {span : Span} {name : String} {arguments : Nat}
    {item : Item} {c c' : Compilation} (h : callItem span name arguments c = .ok item c')
    (hcovers : Covers known c c') : (name, arguments) ∈ known := by
  obtain ⟨arity, called, hname, hcall⟩ | ⟨-, hcall⟩ := callItem_cases span name arguments c
  · rw [hcall] at h
    obtain ⟨_, d, hcheck, -⟩ := Outcome.bind_eq_ok.mp h
    obtain ⟨-, rfl⟩ := checkArity_ok hcheck
    exact hcovers.functions hname
  · rw [hcall] at h
    cases h
    exact hcovers.pending _ (List.mem_append_right _ (List.mem_singleton_self _))

/-- The mentions of a part are followed by those of what comes next. -/
theorem Drafted.scoped_append {known : List (String × Nat)} {l : Bool} {p : Nat} {part : Part} {code : Code}
    {c d : Compilation} {rest : List Mention} (h : Drafted l p part c code d)
    (hfirst : Scoped known c.locals (part.mentions l)) (hrest : Scoped known d.locals rest) :
    Scoped known c.locals (part.mentions l ++ rest) := by
  rw [h.locals_eq] at hrest
  exact ScriptMachine.scoped_append.mpr ⟨hfirst, hrest⟩

theorem Drafted.scoped {known : List (String × Nat)} {l : Bool} {p : Nat} {part : Part}
    {c c' : Compilation} {code : Code} (h : Drafted l p part c code c') (hcovers : Covers known c c') :
    Scoped known c.locals (part.mentions l) := by
  induction h with
  | literal hn hinsert => cases hn <;> exact scoped_nil
  | read hslot => exact scoped_uses.mpr (mem_locals_of_findLocal hslot)
  | declare hslot => exact scoped_introduces _
  | array helements hinsert ih => exact ih ⟨hcovers.intrinsics, hcovers.functions, hcovers.pending⟩
  | block hitems ih => exact ih hcovers
  | lastBranch htest hbody hnext ihtest ihbody =>
    rw [Part.mentions, Node.mentions, mentions_of_not_continues hnext, List.append_nil]
    apply htest.scoped_append (ihtest (hcovers.front hbody.grows))
    exact ihbody (hcovers.back htest.knownFunctions_subset)
  | branch htest hbody hnext hrest ihtest ihbody ihrest =>
    have hafter := hcovers.back htest.knownFunctions_subset
    rw [Part.mentions, Node.mentions, List.append_assoc]
    apply htest.scoped_append (ihtest (hcovers.front (hbody.grows.trans hrest.grows)))
    apply hbody.scoped_append (ihbody (hafter.front hrest.grows))
    exact ihrest (hafter.back hbody.knownFunctions_subset)
  | @forEach l p span name collection body c elements d slot e code c' helements hslot hbody ihelements
      ihbody =>
    have hgrows := (growth_of_declareLocal hslot).trans hbody.grows
    have hknown : e.knownFunctions ⊆ d.knownFunctions := by
      rw [(declareLocal_ok hslot).2.2]
      exact List.Subset.refl _
    apply helements.scoped_append (ihelements (hcovers.front hgrows))
    refine scoped_cons.mpr ⟨scoped_introduces name, ?_⟩
    have hbound : boundAfter d.locals [.introduces name] = e.locals := (locals_of_declareLocal hslot).symm
    rw [hbound]
    exact ihbody ((hcovers.back helements.knownFunctions_subset).back hknown)
  | binary hright hleft ihright ihleft =>
    apply hright.scoped_append (ihright (hcovers.front hleft.grows))
    exact ihleft (hcovers.back hright.knownFunctions_subset)
  | unary hinner ih => exact ih hcovers
  | assign hvalue hslot ih =>
    apply hvalue.scoped_append (ih (hcovers.front (targetSlot_ok hslot).1))
    exact (locals_of_targetSlot hslot).2 known
  | resultValue hvalue ih => exact ih hcovers
  | resultNothing => exact scoped_nil
  | leave => exact scoped_nil
  | intrinsic hname harguments ih =>
    apply harguments.scoped_append (ih hcovers)
    exact scoped_calls.mpr (hcovers.intrinsics _ _ _ hname)
  | call hname harguments hitem ih =>
    apply harguments.scoped_append (ih (hcovers.front (callItem_ok hitem).1))
    exact scoped_calls.mpr (scoped_of_callItem hitem (hcovers.back harguments.knownFunctions_subset))
  | nodesNil => exact scoped_nil
  | nodesCons hfirst hrest ihfirst ihrest | statementsCons hfirst hrest ihfirst ihrest =>
    apply hfirst.scoped_append (ihfirst (hcovers.front hrest.grows))
    exact ihrest (hcovers.back hfirst.knownFunctions_subset)
  | statementsNil => exact scoped_nil

end Compilation

end ScriptMachine
