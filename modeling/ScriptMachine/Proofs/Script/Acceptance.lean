import Mathlib
import ScriptMachine.Proofs.Script.Portable
import ScriptMachine.Proofs.Script.Scope
import ScriptMachine.Proofs.Script.Site

/-!
# Code generation that goes well

Code is generated for a body whose mentions make sense. The generator is followed through these
mentions: each of its actions takes the one at the front of those that are still to come, and what is
left stays well scoped.

A fault ends only the statement that it is in, and the faults after it may be mere consequences: where
there was no room for a constant, a variable may be missing later. What is carried along is therefore
that an action goes well or that a limit is among the faults, and that no fault is ever forgotten.
-/

namespace ScriptMachine

namespace CompileFault

/-- The script is too large: the constants have no room, or the code is longer than offsets reach. -/
def isLimit : CompileFault → Bool
  | .outOfMemory | .link .tooLarge => true
  | _ => false

end CompileFault

namespace Compilation

open Outcome

variable {α β : Type}

/-! ### Going well up to the limits -/

/-- All faults that an outcome knows of. -/
def faults : EStateM.Result CompileError Compilation α → List CompileError
  | .ok _ c => c.errors
  | .error e c => c.errors ++ [e]

def Hits (errors : List CompileError) : Prop :=
  ∃ e ∈ errors, e.fault.isLimit = true

/-- The action never forgets a fault, and from a state that meets a condition it ends well or has hit a
limit. -/
def Accepts (pre : Compilation → Prop) (action : Action α) (post : α → Compilation → Prop) : Prop :=
  ∀ c, c.errors ⊆ faults (action c) ∧
    (pre c → (∃ a d, action c = .ok a d ∧ post a d) ∨ Hits (faults (action c)))

variable {pre : Compilation → Prop} {post : α → Compilation → Prop}

theorem Hits.mono {errors more : List CompileError} (h : Hits errors) (hsubset : errors ⊆ more) :
    Hits more := by
  obtain ⟨e, he, hlimit⟩ := h
  exact ⟨e, hsubset he, hlimit⟩

theorem Hits.ne_nil {errors : List CompileError} (h : Hits errors) : errors ≠ [] := by
  obtain ⟨e, he, -⟩ := h
  exact List.ne_nil_of_mem he

theorem Accepts.bind {x : Action α} {f : α → Action β} {mid : α → Compilation → Prop}
    {post : β → Compilation → Prop} (hx : Accepts pre x mid) (hf : ∀ a, Accepts (mid a) (f a) post) :
    Accepts pre (x >>= f) post := by
  intro c
  obtain ⟨hkept, hwell⟩ := hx c
  cases hrun : x c with
  | error e d =>
    rw [hrun] at hkept hwell
    rw [bind_of_error hrun]
    refine ⟨hkept, fun hpre => ?_⟩
    obtain ⟨a, d', heq, -⟩ | hhits := hwell hpre
    · cases heq
    · exact .inr hhits
  | ok a d =>
    rw [hrun] at hkept hwell
    rw [bind_of_ok hrun]
    obtain ⟨hkept', hwell'⟩ := hf a d
    refine ⟨List.Subset.trans hkept hkept', fun hpre => ?_⟩
    obtain ⟨a', d', heq, hmid⟩ | hhits := hwell hpre
    · cases heq
      exact hwell' hmid
    · exact .inr (hhits.mono hkept')

/-- An action that leaves the faults alone and ends well where its condition is met. -/
theorem accepts_of_ok {action : Action α} (hkept : ∀ c, c.errors ⊆ faults (action c))
    (h : ∀ c, pre c → ∃ a d, action c = .ok a d ∧ post a d) : Accepts pre action post :=
  fun c => ⟨hkept c, fun hpre => .inl (h c hpre)⟩

theorem accepts_pure {a : α} (h : ∀ c, pre c → post a c) : Accepts pre (pure a) post :=
  accepts_of_ok (fun _ => List.Subset.refl _) fun c hpre => ⟨a, c, rfl, h c hpre⟩

theorem accepts_return (a : α) : Accepts pre (pure a) fun _ => pre :=
  accepts_pure fun _ hc => hc

/-- What holds behind an action holds when its result is passed on. -/
theorem Accepts.returns {x : Action α} {f : α → β} {post : Compilation → Prop}
    (h : Accepts pre x fun _ => post) : Accepts pre (x >>= fun a => pure (f a)) fun _ => post :=
  h.bind fun a => accepts_return (f a)

/-- An action that fails does no harm where its condition is never met. -/
theorem accepts_fail {span : Span} {fault : CompileFault} (h : ∀ c, ¬ pre c) :
    Accepts pre (fail span fault : Action α) post :=
  fun c => ⟨List.subset_append_left _ _, fun hpre => absurd hpre (h c)⟩

/-- A guard that does not hold is passed. -/
theorem accepts_guard {p : Prop} [Decidable p] {span : Span} {fault : CompileFault} {f : β → Action α}
    {x : Action α} (hp : ∀ c, pre c → ¬ p) (hx : Accepts pre x post) :
    Accepts pre (if p then fail span fault >>= f else x) post := by
  intro c
  by_cases h : p
  · rw [if_pos h]
    exact ⟨List.subset_append_left _ _, fun hpre => absurd h (hp c hpre)⟩
  · rw [if_neg h]
    exact hx c

theorem accepts_get {post : Compilation → Compilation → Prop} (h : ∀ c, pre c → post c c) :
    Accepts pre get post :=
  accepts_of_ok (fun _ => List.Subset.refl _) fun c hpre => ⟨c, c, rfl, h c hpre⟩

theorem accepts_modify {f : Compilation → Compilation} {post : PUnit → Compilation → Prop}
    (herrors : ∀ c, (f c).errors = c.errors) (h : ∀ c, pre c → post ⟨⟩ (f c)) :
    Accepts pre (modify f : Action PUnit) post := by
  apply accepts_of_ok
  · intro c
    show c.errors ⊆ (f c).errors
    rw [herrors]
    exact List.Subset.refl _
  · exact fun c hpre => ⟨⟨⟩, f c, rfl, h c hpre⟩

theorem Accepts.weaken {action : Action α} {post' : α → Compilation → Prop} (h : Accepts pre action post)
    (hpost : ∀ a d, post a d → post' a d) : Accepts pre action post' := by
  intro c
  obtain ⟨hkept, hwell⟩ := h c
  refine ⟨hkept, fun hpre => ?_⟩
  obtain ⟨a, d, heq, hd⟩ | hhits := hwell hpre
  · exact .inl ⟨a, d, heq, hpost a d hd⟩
  · exact .inr hhits

theorem Accepts.strengthen {action : Action α} {pre' : Compilation → Prop} (h : Accepts pre action post)
    (hpre : ∀ c, pre' c → pre c) : Accepts pre' action post :=
  fun c => ⟨(h c).1, fun hc => (h c).2 (hpre c hc)⟩

/-- The outcome comes from a state that met the condition. -/
theorem Accepts.traced {action : Action α} (h : Accepts pre action post) :
    Accepts pre action fun a d => post a d ∧ ∃ c, pre c ∧ action c = .ok a d := by
  intro c
  obtain ⟨hkept, hwell⟩ := h c
  refine ⟨hkept, fun hpre => ?_⟩
  obtain ⟨a, d, heq, hd⟩ | hhits := hwell hpre
  · exact .inl ⟨a, d, heq, hd, c, hpre, heq⟩
  · exact .inr hhits

/-- Reporting a fault and going on forgets nothing. -/
theorem faults_recover (action : Action Code) (c : Compilation) :
    faults (recover action c) = faults (action c) := by
  unfold recover
  cases action c <;> rfl

theorem Accepts.recover {action : Action Code} {post : Code → Compilation → Prop}
    (h : Accepts pre action post) : Accepts pre (recover action) post := by
  intro c
  obtain ⟨hkept, hwell⟩ := h c
  rw [faults_recover]
  refine ⟨hkept, fun hpre => ?_⟩
  obtain ⟨a, d, heq, hd⟩ | hhits := hwell hpre
  · exact .inl ⟨a, d, recover_of_ok heq, hd⟩
  · exact .inr hhits

/-! ### Single actions -/

/-- The names that can be called are distinct, and the intrinsics are among them. -/
structure Table (known : List (String × Nat)) : Prop where
  distinct : (known.map Prod.fst).Nodup
  intrinsics : ∀ name arity op, intrinsic? name = some (arity, op) → (name, arity) ∈ known

theorem Table.arity_eq {known : List (String × Nat)} (h : Table known) {name : String} {arity other : Nat}
    (harity : (name, arity) ∈ known) (hother : (name, other) ∈ known) : arity = other := by
  have heq := List.inj_on_of_nodup_map h.distinct harity hother rfl
  exact congrArg Prod.snd heq

/-- No fault is known, what is known is among what can be called, and the calls that wait for their name
wait for something that the script declares. -/
structure Clean (known : List (String × Nat)) (hosts : List String) (c : Compilation) : Prop where
  errors : c.errors = []
  functions : c.knownFunctions ⊆ known
  names : hosts ⊆ c.hostFunctions.map Prod.fst
  pending : ∀ call ∈ c.pending,
    (call.name, call.arguments) ∈ known ∧ intrinsic? call.name = none ∧ call.name ∉ hosts

/-- The mentions to come make sense. -/
structure Awaits (known : List (String × Nat)) (hosts : List String) (mentions : List Mention)
    (c : Compilation) : Prop where
  clean : Clean known hosts c
  mentions : Scoped known c.locals mentions

variable {known : List (String × Nat)} {hosts : List String} {rest : List Mention} {c : Compilation}

theorem Awaits.head {mention : Mention} (h : Awaits known hosts (mention :: rest) c) :
    Scoped known c.locals [mention] :=
  (scoped_cons.mp h.mentions).1

/-- A mention that introduces nothing is behind us. -/
theorem Awaits.tail {mention : Mention} (h : Awaits known hosts (mention :: rest) c)
    (hmention : mention.introduced? = none) : Awaits known hosts rest c := by
  refine ⟨h.clean, ?_⟩
  have hrest := (scoped_cons.mp h.mentions).2
  have hbound : Mention.boundAfter c.locals [mention] = c.locals := by
    simp [Mention.boundAfter, Mention.introduced, hmention]
  rw [hbound] at hrest
  exact hrest

theorem accepts_findLocal (span : Span) (name : String) :
    Accepts (Awaits known hosts (.uses name :: rest)) (findLocal span name)
      fun _ => Awaits known hosts rest := by
  intro c
  unfold findLocal
  cases hfound : c.locals.findIdx? (· == name) with
  | some slot => exact ⟨List.Subset.refl _, fun hc => .inl ⟨slot, c, rfl, hc.tail rfl⟩⟩
  | none =>
    refine ⟨List.subset_append_left _ _, fun hc => ?_⟩
    have hmem := scoped_uses.mp hc.head
    have hnone := List.findIdx?_eq_none_iff.mp hfound name hmem
    simp at hnone

theorem accepts_declareLocal (name : String) :
    Accepts (Awaits known hosts (.introduces name :: rest)) (declareLocal name)
      fun _ => Awaits known hosts rest := by
  intro c
  obtain ⟨slot, d, hdeclare⟩ : ∃ slot d, declareLocal name c = .ok slot d := by
    unfold declareLocal
    split <;> exact ⟨_, _, rfl⟩
  have hlocals := locals_of_declareLocal hdeclare
  obtain ⟨-, -, hd⟩ := declareLocal_ok hdeclare
  rw [hdeclare]
  refine ⟨?_, fun hc => .inl ⟨slot, d, rfl, ?_, ?_⟩⟩
  · rw [faults, hd]
    exact List.Subset.refl _
  · rw [hd]
    exact { hc.clean with }
  · rw [hlocals]
    exact (scoped_cons.mp hc.mentions).2

theorem accepts_pushConstant (span : Span) (insert : Insertion) :
    Accepts (Awaits known hosts rest) (pushConstant span insert) fun _ => Awaits known hosts rest := by
  have hadd : Accepts (Awaits known hosts rest) (addConstant span insert)
      fun _ => Awaits known hosts rest := by
    intro c
    unfold addConstant
    cases hinsert : insert c.constants with
    | some found =>
      obtain ⟨index, pool⟩ := found
      exact ⟨List.Subset.refl _, fun hc => .inl ⟨index, _, rfl, { hc.clean with }, hc.mentions⟩⟩
    | none =>
      refine ⟨List.subset_append_left _ _, fun _ => .inr ⟨⟨.outOfMemory, some span⟩, ?_, rfl⟩⟩
      exact List.mem_append_right _ (List.mem_singleton_self _)
  exact hadd.returns

theorem accepts_targetSlot (target : Node) :
    Accepts (Awaits known hosts (target.asTarget :: rest)) (targetSlot target)
      fun _ => Awaits known hosts rest := by
  unfold targetSlot
  split
  · exact accepts_declareLocal _
  · exact accepts_findLocal _ _
  · rename_i hdeclare hread
    apply accepts_fail
    intro c hc
    apply hc.mentions.targets
    unfold Node.asTarget
    split
    · exact absurd rfl (hdeclare _ _)
    · exact absurd rfl (hread _ _)
    · exact List.mem_cons_self

theorem accepts_checkArity (span : Span) (name : String) {expected found : Nat}
    (h : ∀ c, pre c → expected = found) :
    Accepts pre (checkArity span name expected found) fun _ => pre := by
  unfold checkArity
  split
  · exact accepts_return _
  · rename_i hne
    exact accepts_fail fun c hc => hne (h c hc)

theorem Clean.resolved (h : Clean known hosts c) (name : String) : Clean known hosts (c.resolved name) := by
  have hsame := resolved_eq name c
  have hhosts := hosts_resolved name c
  have hfunctions : (c.resolved name).functions = c.functions := by rw [hsame]
  have hpending : (c.resolved name).pending = c.pending := by rw [hsame]
  have herrors : (c.resolved name).errors = c.errors := by rw [hsame]
  refine ⟨herrors.trans h.errors, ?_, List.Subset.trans h.names hhosts.names, hpending ▸ h.pending⟩
  exact List.Subset.trans (hhosts.knownFunctions_subset hfunctions) h.functions

theorem accepts_callItem (htable : Table known) {name : String} (hname : intrinsic? name = none) (span : Span)
    (arguments : Nat) :
    Accepts (Awaits known hosts (.calls name arguments :: rest)) (callItem span name arguments)
      fun _ => Awaits known hosts rest := by
  intro c
  have hsame := resolved_eq name c
  have herrors : (c.resolved name).errors = c.errors := by rw [hsame]
  have hlocals : (c.resolved name).locals = c.locals := by rw [hsame]
  obtain ⟨arity, item, hknown, hcall⟩ | ⟨hhost, hcall⟩ := callItem_cases span name arguments c
  · rw [hcall]
    by_cases harity : arity = arguments
    · rw [checkArity, if_pos harity]
      refine ⟨herrors ▸ List.Subset.refl _, fun hc => .inl ⟨item, c.resolved name, rfl, ?_⟩⟩
      exact ⟨hc.clean.resolved name, hlocals ▸ (hc.tail rfl).mentions⟩
    · rw [checkArity, if_neg harity]
      refine ⟨herrors ▸ List.subset_append_left _ _, fun hc => ?_⟩
      exact absurd (htable.arity_eq (hc.clean.functions hknown) (scoped_calls.mp hc.head)) harity
  · rw [hcall]
    refine ⟨herrors ▸ List.Subset.refl _, fun hc => .inl ⟨_, _, rfl, ?_, hlocals ▸ (hc.tail rfl).mentions⟩⟩
    refine { hc.clean.resolved name with pending := ?_ }
    rw [List.forall_mem_append, List.forall_mem_singleton]
    exact ⟨hc.clean.pending, scoped_calls.mp hc.head, hname, fun hmem => hhost (hc.clean.names hmem)⟩

/-! ### Nodes -/

mutual

/-- The code of a node takes its mentions. -/
theorem accepts_node (htable : Table known) (n : Node) (l : Bool) (p : Nat) (rest : List Mention) :
    Accepts (Awaits known hosts (n.mentions l ++ rest)) (node l p n) fun _ => Awaits known hosts rest := by
  cases n with
  | number span value | bool span value | text span value =>
    rw [node, Node.mentions]
    exact accepts_pushConstant _ _
  | read span name =>
    rw [node, Node.mentions]
    exact (accepts_findLocal span name).returns
  | declare span name =>
    rw [node, Node.mentions]
    exact (accepts_declareLocal name).returns
  | array span elements =>
    rw [node, Node.mentions]
    apply (accepts_nodes htable elements l p rest).bind
    intro code
    exact (accepts_pushConstant _ _).returns
  | block span items =>
    rw [node, Node.mentions]
    exact accepts_statements htable items l p rest
  | branch span condition body next =>
    rw [node, Node.mentions, List.append_assoc, List.append_assoc]
    apply (accepts_node htable condition l p _).bind
    intro test
    apply (accepts_node htable body l _ _).bind
    intro code
    dsimp only
    split
    · exact (accepts_following htable next l _ rest).returns
    · rename_i hnext
      rw [mentions_of_not_continues (by simpa using hnext)]
      exact accepts_return _
  | forEach span name collection body =>
    rw [node, Node.mentions, List.append_assoc, List.cons_append]
    apply (accepts_node htable collection l p _).bind
    intro elements
    apply (accepts_declareLocal name).bind
    intro slot
    exact (accepts_node htable body true _ rest).returns
  | binary span op left right =>
    rw [node, Node.mentions, List.append_assoc]
    apply (accepts_node htable right l p _).bind
    intro second
    exact (accepts_node htable left l _ rest).returns
  | unary span op inner =>
    rw [node, Node.mentions]
    exact (accepts_node htable inner l p rest).returns
  | assign span target value =>
    rw [node, Node.mentions, List.append_assoc]
    apply (accepts_node htable value l p _).bind
    intro code
    exact (accepts_targetSlot target).returns
  | result span value =>
    cases value with
    | none =>
      rw [node, Node.mentions, Node.mentionsOption]
      exact accepts_return _
    | some value =>
      rw [node, Node.mentions, Node.mentionsOption]
      exact (accepts_node htable value l p rest).returns
  | leave span =>
    rw [node, Node.mentions]
    cases l with
    | true => exact accepts_return _
    | false => exact accepts_fail fun c hc => hc.mentions.breaks List.mem_cons_self
  | signature span name parameters =>
    rw [node, Node.mentions]
    exact accepts_fail fun c hc => hc.mentions.declarations List.mem_cons_self
  | function span name parameters body =>
    rw [node, Node.mentions]
    exact accepts_fail fun c hc => hc.mentions.declarations List.mem_cons_self
  | call span name arguments =>
    rw [node, Node.mentions, List.append_assoc]
    cases hname : intrinsic? name with
    | some found =>
      obtain ⟨arity, op⟩ := found
      dsimp only
      apply (accepts_checkArity span name _).bind
      · intro _
        apply (accepts_nodes htable arguments l p _).bind
        intro code
        exact accepts_pure fun c hc => hc.tail rfl
      · intro c hc
        have hcall := hc.mentions.calls name arguments.length (by simp)
        exact htable.arity_eq (htable.intrinsics name arity op hname) hcall
    | none =>
      dsimp only
      apply (accepts_nodes htable arguments l p _).bind
      intro code
      exact (accepts_callItem htable hname span _).returns

theorem accepts_nodes (htable : Table known) (list : List Node) (l : Bool) (p : Nat) (rest : List Mention) :
    Accepts (Awaits known hosts (Node.mentionsAll l list ++ rest)) (nodes l p list)
      fun _ => Awaits known hosts rest := by
  cases list with
  | nil =>
    rw [nodes, Node.mentionsAll]
    exact accepts_return _
  | cons first others =>
    rw [nodes, Node.mentionsAll, List.append_assoc]
    apply (accepts_node htable first l p _).bind
    intro code
    exact (accepts_nodes htable others l _ rest).returns

theorem accepts_statements (htable : Table known) (list : List Node) (l : Bool) (p : Nat)
    (rest : List Mention) :
    Accepts (Awaits known hosts (Node.mentionsAll l list ++ rest)) (statements l p list)
      fun _ => Awaits known hosts rest := by
  cases list with
  | nil =>
    rw [statements, Node.mentionsAll]
    exact accepts_return _
  | cons first others =>
    rw [statements, Node.mentionsAll, List.append_assoc]
    refine Accepts.bind (Accepts.recover ?_) fun code =>
      (accepts_statements htable others l _ rest).returns
    apply (accepts_node htable first l p _).bind
    intro code
    exact (accepts_get fun _ hc => hc).returns

theorem accepts_following (htable : Table known) (next : Option Node) (l : Bool) (p : Nat)
    (rest : List Mention) :
    Accepts (Awaits known hosts (Node.mentionsOption l next ++ rest)) (following l p next)
      fun _ => Awaits known hosts rest := by
  cases next with
  | none =>
    rw [following, Node.mentionsOption]
    exact accepts_return _
  | some inner =>
    rw [following, Node.mentionsOption]
    exact accepts_node htable inner l p rest

end

end Compilation

end ScriptMachine
