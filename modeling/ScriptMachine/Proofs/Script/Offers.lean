import Mathlib
import ScriptMachine.Proofs.Script.WellScoped

/-!
# Offers that make no difference

A compilation asks for an offered host function by its name only: when the name is called, and when a
declaration would take it. Two compilations that differ in what is offered, but not under the names
that a script calls and declares, therefore go through the script side by side. Their offers stay
different in order and number; the imports, the code and the faults are the same at every step.
-/

namespace ScriptMachine

/-- The names under which a script calls and declares functions. -/
def Node.functionNames (root : Node) : List String :=
  (root.calls ++ root.declared).map Prod.fst

namespace Compilation

open Outcome

variable {α β : Type} {names : List String} {c d : Compilation}

def offer? (c : Compilation) (name : String) : Option Offer :=
  c.offered.find? (·.name == name)

/-- Two compilations that differ in their offers at most, and not under the given names. -/
inductive Alike (names : List String) (c : Compilation) : Compilation → Prop where
  | intro (offered : List Offer)
      (h : ∀ name ∈ names, offered.find? (·.name == name) = c.offer? name) :
      Alike names c { c with offered := offered }

/-- The same result or the same fault, in compilations that are alike. -/
inductive Agree (names : List String) :
    EStateM.Result CompileError Compilation α → EStateM.Result CompileError Compilation α → Prop where
  | ok {c d : Compilation} (a : α) (h : Alike names c d) : Agree names (.ok a c) (.ok a d)
  | error {c d : Compilation} (e : CompileError) (h : Alike names c d) :
      Agree names (.error e c) (.error e d)

/-- From compilations that are alike the action goes to ones that are alike. -/
def Indifferent (names : List String) (action : Action α) : Prop :=
  ∀ c d, Alike names c d → Agree names (action c) (action d)

theorem indifferent_pure (a : α) : Indifferent names (pure a) :=
  fun _ _ h => .ok a h

theorem indifferent_fail (span : Span) (fault : CompileFault) :
    Indifferent names (fail span fault : Action α) :=
  fun _ _ h => .error _ h

theorem Indifferent.bind {x : Action α} {f : α → Action β} (hx : Indifferent names x)
    (hf : ∀ a, Indifferent names (f a)) : Indifferent names (x >>= f) := by
  intro c d h
  have hfirst := hx c d h
  show Agree names (EStateM.bind x f c) (EStateM.bind x f d)
  unfold EStateM.bind
  generalize x c = first at hfirst ⊢
  generalize x d = second at hfirst ⊢
  cases hfirst with
  | ok a h => exact hf a _ _ h
  | error e h => exact .error e h

theorem Indifferent.returns {x : Action α} {f : α → β} (hx : Indifferent names x) :
    Indifferent names (x >>= fun a => pure (f a)) :=
  hx.bind fun a => indifferent_pure (f a)

/-- What is read off the state must not depend on the offers. -/
theorem indifferent_get {f : Compilation → Action α} (hsame : ∀ c d, Alike names c d → f c = f d)
    (hf : ∀ c, Indifferent names (f c)) : Indifferent names (get >>= f) := by
  intro c d h
  show Agree names (f c c) (f d d)
  rw [← hsame c d h]
  exact hf c c d h

/-- A change that leaves the offers alone keeps compilations alike. -/
theorem Alike.update {f : Compilation → Compilation}
    (hf : ∀ c offered, f { c with offered := offered } = { f c with offered := offered })
    (h : Alike names c d) : Alike names (f c) (f d) := by
  cases h with
  | intro offered h =>
    have hsame : f c = { f c with offered := c.offered } := hf c c.offered
    have hkept : (f c).offered = c.offered := (congrArg Compilation.offered hsame).trans rfl
    rw [hf c offered]
    refine .intro offered fun name hname => ?_
    rw [h name hname, offer?, offer?, hkept]

theorem indifferent_modify {f : Compilation → Compilation}
    (hf : ∀ c offered, f { c with offered := offered } = { f c with offered := offered }) :
    Indifferent names (modify f : Action PUnit) :=
  fun _ _ h => .ok _ (h.update hf)

theorem Alike.report (h : Alike names c d) (e : CompileError) : Alike names (c.report e) (d.report e) :=
  h.update fun _ _ => rfl

theorem Indifferent.recover {action : Action Code} (h : Indifferent names action) :
    Indifferent names (recover action) := by
  intro c d hcd
  have hrun := h c d hcd
  unfold Compilation.recover
  generalize action c = first at hrun ⊢
  generalize action d = second at hrun ⊢
  cases hrun with
  | ok code h => exact .ok code h
  | error e h => exact .ok [] (h.report e)

/-! ### Single actions -/

theorem indifferent_declareLocal (name : String) : Indifferent names (declareLocal name) := by
  intro c d h
  cases h with
  | intro offered h =>
    unfold declareLocal
    dsimp only
    cases c.locals.findIdx? (· == name) with
    | some slot => exact .ok slot (.intro offered h)
    | none => exact .ok c.locals.length (.intro offered h)

theorem indifferent_findLocal (span : Span) (name : String) : Indifferent names (findLocal span name) := by
  intro c d h
  cases h with
  | intro offered h =>
    unfold findLocal
    dsimp only
    cases c.locals.findIdx? (· == name) with
    | some slot => exact .ok slot (.intro offered h)
    | none => exact .error _ (.intro offered h)

theorem indifferent_pushConstant (span : Span) (insert : Insertion) :
    Indifferent names (pushConstant span insert) := by
  have hadd : Indifferent names (addConstant span insert) := by
    intro c d h
    cases h with
    | intro offered h =>
      unfold addConstant
      dsimp only
      cases insert c.constants with
      | some found => exact .ok found.1 (.intro offered h)
      | none => exact .error _ (.intro offered h)
  exact hadd.returns

theorem indifferent_targetSlot (target : Node) : Indifferent names (targetSlot target) := by
  unfold targetSlot
  split
  · exact indifferent_declareLocal _
  · exact indifferent_findLocal _ _
  · exact indifferent_fail _ _

theorem indifferent_checkArity (span : Span) (name : String) (expected found : Nat) :
    Indifferent names (checkArity span name expected found) := by
  unfold checkArity
  split
  · exact indifferent_pure _
  · exact indifferent_fail _ _

/-- Taking one name out of the offers changes nothing under the other names. -/
theorem find?_filter_ne (offers : List Offer) (name other : String) :
    (offers.filter (·.name != name)).find? (·.name == other)
      = if other = name then none else offers.find? (·.name == other) := by
  rw [List.find?_filter]
  split
  · rename_i heq
    rw [List.find?_eq_none]
    intro offer _
    simp [heq]
  · rename_i hne
    congr 1
    funext offer
    by_cases hother : offer.name = other
    · simp [hother, hne]
    · simp [hother]

theorem Alike.acceptOffer {name : String} (hname : name ∈ names) (h : Alike names c d) :
    Alike names (c.acceptOffer name) (d.acceptOffer name) := by
  cases h with
  | intro offered h =>
    have hoffer := h name hname
    unfold Compilation.acceptOffer
    dsimp only
    rw [hoffer, offer?]
    cases hfind : c.offered.find? (·.name == name) with
    | none => exact .intro offered h
    | some offer =>
      refine .intro (offered.filter (·.name != name)) fun other hother => ?_
      rw [offer?, find?_filter_ne, find?_filter_ne, h other hother, offer?]

theorem Alike.findImport?_eq (h : Alike names c d) (name : String) : d.findImport? name = c.findImport? name := by
  cases h
  rfl

theorem indifferent_resolveImport {name : String} (hname : name ∈ names) :
    Indifferent names (resolveImport name) := by
  intro c d h
  have haccept := h.acceptOffer hname
  unfold resolveImport
  dsimp only
  rw [h.findImport?_eq name, haccept.findImport?_eq name]
  cases c.findImport? name with
  | some found => exact .ok _ h
  | none => exact .ok _ haccept

theorem indifferent_callItem {name : String} (hname : name ∈ names) (span : Span) (arguments : Nat) :
    Indifferent names (callItem span name arguments) := by
  unfold callItem
  apply (indifferent_resolveImport hname).bind
  intro found
  cases found with
  | some found => exact (indifferent_checkArity span name _ arguments).returns
  | none =>
    apply indifferent_get
    · intro c d h
      cases h
      rfl
    · intro c
      cases c.findFunction? name with
      | some function => exact (indifferent_checkArity span name _ arguments).returns
      | none => exact (indifferent_modify fun _ _ => rfl).returns

/-! ### Nodes -/

/-- All that the mentions call is among the names. -/
def CallsWithin (names : List String) (mentions : List Mention) : Prop :=
  ∀ name arguments, .calls name arguments ∈ mentions → name ∈ names

theorem callsWithin_append {before after : List Mention} :
    CallsWithin names (before ++ after) ↔ CallsWithin names before ∧ CallsWithin names after := by
  constructor
  · intro h
    exact ⟨fun name arguments hmem => h name arguments (List.mem_append_left _ hmem),
      fun name arguments hmem => h name arguments (List.mem_append_right _ hmem)⟩
  · intro h name arguments hmem
    rcases List.mem_append.mp hmem with hmem | hmem
    · exact h.1 name arguments hmem
    · exact h.2 name arguments hmem

mutual

/-- A node makes no difference between compilations that are alike under all names that it calls. -/
theorem indifferent_node (n : Node) (l : Bool) (p : Nat) (h : CallsWithin names (n.mentions l)) :
    Indifferent names (node l p n) := by
  cases n with
  | number span value | bool span value | text span value =>
    rw [node]
    exact indifferent_pushConstant _ _
  | read span name =>
    rw [node]
    exact (indifferent_findLocal span name).returns
  | declare span name =>
    rw [node]
    exact (indifferent_declareLocal name).returns
  | array span elements =>
    rw [node]
    rw [Node.mentions] at h
    apply (indifferent_nodes elements l p h).bind
    intro code
    exact (indifferent_pushConstant _ _).returns
  | block span items =>
    rw [node]
    rw [Node.mentions] at h
    exact indifferent_statements items l p h
  | branch span condition body next =>
    rw [node]
    rw [Node.mentions, callsWithin_append, callsWithin_append] at h
    apply (indifferent_node condition l p h.1.1).bind
    intro test
    apply (indifferent_node body l _ h.1.2).bind
    intro code
    dsimp only
    split
    · exact (indifferent_following next l _ h.2).returns
    · exact indifferent_pure _
  | forEach span name collection body =>
    rw [node]
    rw [Node.mentions, ← List.singleton_append, callsWithin_append, callsWithin_append] at h
    apply (indifferent_node collection l p h.1).bind
    intro elements
    apply (indifferent_declareLocal name).bind
    intro slot
    exact (indifferent_node body true _ h.2.2).returns
  | binary span op left right =>
    rw [node]
    rw [Node.mentions, callsWithin_append] at h
    apply (indifferent_node right l p h.1).bind
    intro second
    exact (indifferent_node left l _ h.2).returns
  | unary span op inner =>
    rw [node]
    rw [Node.mentions] at h
    exact (indifferent_node inner l p h).returns
  | assign span target value =>
    rw [node]
    rw [Node.mentions, callsWithin_append] at h
    apply (indifferent_node value l p h.1).bind
    intro code
    exact (indifferent_targetSlot target).returns
  | result span value =>
    cases value with
    | none =>
      rw [node]
      exact indifferent_pure _
    | some value =>
      rw [node]
      rw [Node.mentions, Node.mentionsOption] at h
      exact (indifferent_node value l p h).returns
  | leave span =>
    rw [node]
    split
    · exact indifferent_pure _
    · exact indifferent_fail _ _
  | signature span name parameters =>
    rw [node]
    exact indifferent_fail _ _
  | function span name parameters body =>
    rw [node]
    exact indifferent_fail _ _
  | call span name arguments =>
    rw [node]
    rw [Node.mentions, callsWithin_append] at h
    cases intrinsic? name with
    | some found =>
      apply (indifferent_checkArity span name _ _).bind
      intro _
      exact (indifferent_nodes arguments l p h.1).returns
    | none =>
      apply (indifferent_nodes arguments l p h.1).bind
      intro code
      have hname : name ∈ names := h.2 name arguments.length (List.mem_singleton_self _)
      exact (indifferent_callItem hname span _).returns

theorem indifferent_nodes (list : List Node) (l : Bool) (p : Nat)
    (h : CallsWithin names (Node.mentionsAll l list)) : Indifferent names (nodes l p list) := by
  cases list with
  | nil =>
    rw [nodes]
    exact indifferent_pure _
  | cons first rest =>
    rw [nodes]
    rw [Node.mentionsAll, callsWithin_append] at h
    apply (indifferent_node first l p h.1).bind
    intro code
    exact (indifferent_nodes rest l _ h.2).returns

theorem indifferent_statements (list : List Node) (l : Bool) (p : Nat)
    (h : CallsWithin names (Node.mentionsAll l list)) : Indifferent names (statements l p list) := by
  cases list with
  | nil =>
    rw [statements]
    exact indifferent_pure _
  | cons first rest =>
    rw [statements]
    rw [Node.mentionsAll, callsWithin_append] at h
    apply Indifferent.bind
    · apply Indifferent.recover
      apply (indifferent_node first l p h.1).bind
      intro code
      apply indifferent_get
      · intro c d hcd
        cases hcd
        rfl
      · intro c
        exact indifferent_pure _
    · intro code
      exact (indifferent_statements rest l _ h.2).returns

theorem indifferent_following (next : Option Node) (l : Bool) (p : Nat)
    (h : CallsWithin names (Node.mentionsOption l next)) : Indifferent names (following l p next) := by
  cases next with
  | none =>
    rw [following]
    exact indifferent_pure _
  | some inner =>
    rw [following]
    rw [Node.mentionsOption] at h
    exact indifferent_node inner l p h

end

/-! ### Declarations -/

theorem Alike.isDeclared_eq {name : String} (hname : name ∈ names) (h : Alike names c d) :
    d.isDeclared name = c.isDeclared name := by
  have hany : ∀ offers : List Offer,
      offers.any (·.name == name) = (offers.find? (·.name == name)).isSome := by
    intro offers
    rw [Bool.eq_iff_iff, List.any_eq_true, List.find?_isSome]
  cases h with
  | intro offered h =>
    unfold isDeclared
    dsimp only
    rw [hany, hany, h name hname, offer?]

theorem indifferent_guard {p : Prop} [Decidable p] {span : Span} {fault : CompileFault} {f : α → Action β}
    {x : Action β} (h : Indifferent names x) :
    Indifferent names (if p then fail span fault >>= f else x) := by
  split
  · exact fun _ _ hcd => .error _ hcd
  · exact h

theorem indifferent_functionBody {body : Node} (h : CallsWithin names (body.mentions false)) (p : Nat)
    (span : Span) (name : String) (parameters : List String) :
    Indifferent names (functionBody p span name parameters body) := by
  unfold functionBody
  cases firstDuplicate? [] parameters with
  | some duplicate => exact fun _ _ hcd => .error _ hcd
  | none =>
    apply (indifferent_modify fun _ _ => rfl).bind
    intro _
    apply (indifferent_node body false _ h).bind
    intro code
    apply indifferent_get
    · intro c d hcd
      cases hcd
      rfl
    · intro c
      exact indifferent_guard (indifferent_pure _)

theorem indifferent_declareFunction {name : String} (hname : name ∈ names) {body : Node}
    (h : CallsWithin names (body.mentions false)) (span : Span) (parameters : List String) :
    Indifferent names (declareFunction span name parameters body) := by
  unfold declareFunction
  apply indifferent_get
  · intro c d hcd
    rw [hcd.isDeclared_eq hname]
    cases hcd
    rfl
  · intro c
    apply indifferent_guard
    apply indifferent_guard
    apply (indifferent_modify fun _ _ => rfl).bind
    intro _
    apply (indifferent_functionBody h _ span name parameters).bind
    intro code
    exact indifferent_modify fun _ _ => rfl

theorem indifferent_addImport {name : String} (hname : name ∈ names) (arity : Nat) (span : Option Span) :
    Indifferent names (addImport name arity span) := by
  intro c d h
  unfold addImport
  rw [h.isDeclared_eq hname]
  split
  · exact .error _ h
  · split
    · exact .error _ h
    · split
      · exact .error _ h
      · cases h with
        | intro offered h => exact .ok () (.intro offered h)

theorem Alike.recoverDeclaration {action : Action Unit} (h : Alike names c d)
    (haction : Indifferent names action) :
    Alike names (recoverDeclaration action c) (recoverDeclaration action d) := by
  have hrun := haction c d h
  unfold Compilation.recoverDeclaration
  generalize action c = first at hrun ⊢
  generalize action d = second at hrun ⊢
  cases hrun with
  | ok a h => exact h
  | error e h => exact h.report e

/-- What stands outside all functions keeps compilations alike under the names that it declares and
calls. -/
theorem Alike.declare {item : Node} (hitem : ∀ span items, item ≠ .block span items)
    (hdeclared : ∀ name arity, item.declared? = some (name, arity) → name ∈ names)
    (hcalls : ∀ name arguments, (name, arguments) ∈ item.bodyCalls → name ∈ names) (h : Alike names c d) :
    Alike names (declaration c item) (declaration d item) := by
  cases item with
  | block span items => exact absurd rfl (hitem span items)
  | function span name parameters body =>
    apply h.recoverDeclaration
    apply indifferent_declareFunction (hdeclared name parameters.length rfl)
    intro called arguments hmem
    exact hcalls called arguments (List.mem_filterMap.mpr ⟨_, hmem, rfl⟩)
  | signature span name parameters =>
    exact h.recoverDeclaration (indifferent_addImport (hdeclared name parameters.length rfl) _ _)
  | _ => exact h.report _

theorem Alike.foldl_declaration {items : List Node}
    (hitems : ∀ item ∈ items, ∀ span inner, item ≠ .block span inner)
    (hdeclared : ∀ item ∈ items, ∀ name arity, item.declared? = some (name, arity) → name ∈ names)
    (hcalls : ∀ item ∈ items, ∀ name arguments, (name, arguments) ∈ item.bodyCalls → name ∈ names)
    (h : Alike names c d) : Alike names (items.foldl declaration c) (items.foldl declaration d) := by
  induction items generalizing c d with
  | nil => exact h
  | cons item rest ih =>
    rw [List.forall_mem_cons] at hitems hdeclared hcalls
    rw [List.foldl_cons, List.foldl_cons]
    exact ih hitems.2 hdeclared.2 hcalls.2 (h.declare hitems.1 hdeclared.1 hcalls.1)

/-- A script compiles to the same program or the same faults if the same is offered under the names that
it calls and declares. -/
theorem Alike.compile_eq {root : Node} (h : Alike root.functionNames c d) :
    d.compile root = c.compile root := by
  have hend : Alike root.functionNames (declaration c root) (declaration d root) := by
    rw [declaration_eq_foldl, declaration_eq_foldl]
    refine h.foldl_declaration (topLevel_ne_block root) ?_ ?_
    · intro item hitem name arity hname
      have hmem : (name, arity) ∈ root.declared := List.mem_filterMap.mpr ⟨item, hitem, hname⟩
      exact List.mem_map.mpr ⟨(name, arity), List.mem_append_right _ hmem, rfl⟩
    · intro item hitem name arguments hcall
      have hmem : (name, arguments) ∈ root.calls := List.mem_flatMap.mpr ⟨item, hitem, hcall⟩
      exact List.mem_map.mpr ⟨(name, arguments), List.mem_append_left _ hmem, rfl⟩
  -- The offers may differ to the end. Neither the faults nor the program are made of them.
  unfold compile
  generalize declaration c root = c' at hend ⊢
  generalize declaration d root = d' at hend ⊢
  cases hend
  rfl

/-! ### Order and surplus -/

theorem find?_eq_some_iff {offers : List Offer} (hnodup : (offers.map Offer.name).Nodup) {name : String}
    {offer : Offer} : offers.find? (·.name == name) = some offer ↔ offer ∈ offers ∧ offer.name = name := by
  constructor
  · intro hfind
    exact ⟨List.mem_of_find?_eq_some hfind, by simpa using List.find?_some hfind⟩
  · rintro ⟨hmem, rfl⟩
    cases hfind : offers.find? (·.name == offer.name) with
    | none => simpa using List.find?_eq_none.mp hfind offer hmem
    | some found =>
      have hname : found.name = offer.name := by simpa using List.find?_some hfind
      rw [List.inj_on_of_nodup_map hnodup (List.mem_of_find?_eq_some hfind) hmem hname]

/-- Among offers of distinct names the one of a name is found wherever it stands. -/
theorem find?_of_perm {offers others : List Offer} (hnodup : (offers.map Offer.name).Nodup)
    (hperm : others.Perm offers) (name : String) :
    others.find? (·.name == name) = offers.find? (·.name == name) := by
  have hothers : (others.map Offer.name).Nodup := (hperm.map Offer.name).nodup_iff.mpr hnodup
  ext offer
  rw [find?_eq_some_iff hothers, find?_eq_some_iff hnodup, hperm.mem_iff]

theorem Prepared.nodup_offered (h : Prepared c) : (c.offered.map Offer.name).Nodup := by
  have hsublist : (c.offered.map Offer.name).Sublist c.taken := by
    simp only [taken, h.knownFunctions_eq, hostFunctions, List.map_append, List.map_map, ← List.append_assoc]
    exact List.sublist_append_right _ _
  exact h.nodup_taken.sublist hsublist

/-- Compiling a script gives the same program, or the same faults in the same order, however the host
functions that it may call were offered, and however many it does not call were offered besides. -/
theorem compilation_ignores_order_and_surplus (hc : Prepared c) (hd : Prepared d)
    (himports : d.imports = c.imports) (hoffers : d.offered.Perm c.offered) (root : Node) :
    d.compile root = c.compile root ∧
    ∀ name arity kind e, offerNative name arity kind d = .ok () e → name ∉ root.functionNames →
      e.compile root = c.compile root := by
  have halike : ∀ names, Alike names c d := by
    intro names
    rw [hd.blank, himports, hc.blank]
    exact .intro d.offered fun name _ => find?_of_perm hc.nodup_offered hoffers name
  refine ⟨(halike _).compile_eq, ?_⟩
  intro name arity kind e hoffer hname
  have hsurplus : Alike root.functionNames d e := by
    rw [offerNative_ok hoffer]
    refine .intro _ fun other hother => ?_
    have hne : name ≠ other := fun heq => hname (heq ▸ hother)
    rw [List.find?_append, List.find?_singleton]
    simp [hne, offer?]
  rw [hsurplus.compile_eq, (halike _).compile_eq]

/-- A host that declares one function and offers others. -/
def offeringHost (offers : List Offer) : Compilation :=
  { imports := [⟨⟨"store", 1⟩, none⟩], offered := offers }

/-- A script that calls two of the functions, one of them before it declares another of its own. -/
def callerScript : Node :=
  .block {}
    [.function {} "main" [] (.block {} [.call {} "log" [.call {} "now" []], .call {} "later" []]),
      .function {} "later" [] (.call {} "now" [])]

theorem compilation_ignores_order_and_surplus_sample :
    let clock : Offer := ⟨"now", 0, .function⟩
    let log : Offer := ⟨"log", 1, .action⟩
    (offeringHost [log, clock]).compile callerScript = (offeringHost [clock, log]).compile callerScript ∧
    (offeringHost [log, clock, ⟨"sleep", 1, .action⟩]).compile callerScript
      = (offeringHost [clock, log]).compile callerScript ∧
    ((offeringHost [clock, log]).compile callerScript).toOption.map (·.imports)
      = some [⟨"store", 1⟩, ⟨"now", 0⟩, ⟨"log", 1⟩] := by
  have hstart : Prepared (offeringHost []) :=
    .declare .start (show declareNative "store" 1 {} = .ok () _ from rfl)
  have hclock : Prepared (offeringHost [⟨"now", 0, .function⟩]) :=
    .offer hstart (show offerNative "now" 0 .function _ = .ok () _ from rfl)
  have hlog : Prepared (offeringHost [⟨"log", 1, .action⟩]) :=
    .offer hstart (show offerNative "log" 1 .action _ = .ok () _ from rfl)
  have hboth := compilation_ignores_order_and_surplus
    (.offer hclock (show offerNative "log" 1 .action _ = .ok () _ from rfl))
    (.offer hlog (show offerNative "now" 0 .function _ = .ok () _ from rfl)) rfl (.swap _ _ _) callerScript
  exact ⟨hboth.1, hboth.2 "sleep" 1 .action _ rfl (by decide), by cbv⟩

end Compilation

end ScriptMachine
