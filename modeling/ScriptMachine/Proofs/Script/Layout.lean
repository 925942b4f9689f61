import Mathlib
import ScriptMachine.Proofs.Linking
import ScriptMachine.Proofs.Script.Fragment

/-!
# From functions to code

A compilation without faults lays its functions out one behind the other, in the order of their
declaration and behind one instruction that enters `main`. The layout is followed from the first
declaration to the last; what holds of the code of each function is then carried over to the
instructions that a walk over the linked code finds.
-/

namespace ScriptMachine

namespace Node

mutual

/-- The nodes outside all functions, with blocks taken apart. -/
def topLevel : Node → List Node
  | .block _ items => topLevelAll items
  | other => [other]

def topLevelAll : List Node → List Node
  | [] => []
  | first :: rest => topLevel first ++ topLevelAll rest

end

def function? : Node → Option (String × Nat)
  | .function _ name parameters _ => some (name, parameters.length)
  | _ => none

/-- The functions that a script declares, in the order of their declaration. -/
def functions (root : Node) : List (String × Nat) :=
  root.topLevel.filterMap function?

end Node

namespace Compilation

open Outcome

/-- A compilation at its start: some host functions are declared or offered, and nothing else is known. -/
inductive Prepared : Compilation → Prop where
  | start : Prepared {}
  | declare {c c' : Compilation} {name : String} {arity : UInt8} (hc : Prepared c)
      (h : declareNative name arity c = .ok () c') : Prepared c'
  | offer {c c' : Compilation} {name : String} {arity : UInt8} {kind : NativeKind} (hc : Prepared c)
      (h : offerNative name arity kind c = .ok () c') : Prepared c'

theorem addImport_ok {name : String} {arity : Nat} {span : Option Span} {c c' : Compilation} {u : Unit}
    (h : addImport name arity span c = .ok u c') :
    c' = { c with imports := c.imports ++ [⟨⟨name, .ofNat arity⟩, none⟩] } := by
  unfold addImport at h
  split at h
  · cases h
  · split at h
    · cases h
    · split at h
      · cases h
      · cases h
        rfl

theorem offerNative_ok {name : String} {arity : UInt8} {kind : NativeKind} {c c' : Compilation}
    {u : Unit} (h : offerNative name arity kind c = .ok u c') :
    c' = { c with offered := c.offered ++ [⟨name, arity, kind⟩] } := by
  unfold offerNative at h
  split at h
  · cases h
  · split at h
    · cases h
    · cases h
      rfl

theorem Prepared.blank {c : Compilation} (h : Prepared c) :
    c = { imports := c.imports, offered := c.offered } := by
  induction h with
  | start => rfl
  | declare hc h ih =>
    rw [addImport_ok h, ih]
  | offer hc h ih =>
    rw [offerNative_ok h, ih]

/-! ### Declarations -/

mutual

theorem declaration_eq_foldl (n : Node) (c : Compilation) :
    declaration c n = n.topLevel.foldl declaration c := by
  cases n with
  | block span items =>
    rw [declaration, Node.topLevel]
    exact declarations_eq_foldl items c
  | _ => rfl

theorem declarations_eq_foldl (items : List Node) (c : Compilation) :
    declarations c items = (Node.topLevelAll items).foldl declaration c := by
  cases items with
  | nil => rfl
  | cons first rest =>
    rw [declarations, Node.topLevelAll, List.foldl_append, ← declaration_eq_foldl first c]
    exact declarations_eq_foldl rest _

end

/-- The state in which the body of a function is compiled. -/
def entering (c : Compilation) (name : String) (parameters : List String) : Compilation :=
  { c with
    functions := c.functions ++ [⟨name, parameters.length, c.nextPosition⟩]
    locals := parameters }

/-- The code of a function around the code of its body. -/
def framed (arity extra : Nat) (body : Code) : Code :=
  .op ⟨.makeFrame, .ofNat arity, .ofNat extra⟩ :: (body ++ [.plain .returnNothing])

theorem functionBody_ok {position : Nat} {span : Span} {name : String} {parameters : List String}
    {body : Node} {code : Code} {c c' : Compilation}
    (h : functionBody position span name parameters body c = .ok code c') (herrors : c'.errors = []) :
    c.errors = [] ∧ ∃ inner,
      Drafted false (position + 1) (.node body) { c with locals := parameters } inner c' ∧
      parameters.length ≤ 255 ∧ c'.locals.length - parameters.length ≤ 255 ∧
      code = framed parameters.length (c'.locals.length - parameters.length) inner := by
  unfold functionBody at h
  cases hduplicate : firstDuplicate? [] parameters with
  | some duplicate =>
    simp only [hduplicate] at h
    obtain ⟨_, d, hfail, -⟩ := bind_eq_ok.mp h
    exact absurd hfail throw_ne_ok
  | none =>
    simp only [hduplicate] at h
    obtain ⟨_, d, hmodify, hrun⟩ := bind_eq_ok.mp h
    obtain rfl := modify_eq_ok.mp hmodify
    obtain ⟨inner, e, hbody, hrun⟩ := bind_eq_ok.mp hrun
    obtain ⟨_, f, hget, hrun⟩ := bind_eq_ok.mp hrun
    obtain ⟨rfl, rfl⟩ := get_eq_ok.mp hget
    obtain ⟨hsizes, hrun⟩ := guard_eq_ok.mp hrun
    obtain ⟨rfl, rfl⟩ := pure_eq_ok.mp hrun
    obtain ⟨hc, hdrafted⟩ := drafted_of_node body hbody herrors
    exact ⟨hc, inner, hdrafted, by omega, by omega, rfl⟩

theorem declareFunction_ok {span : Span} {name : String} {parameters : List String} {body : Node}
    {c c' : Compilation} {u : Unit} (h : declareFunction span name parameters body c = .ok u c')
    (herrors : c'.errors = []) :
    c.errors = [] ∧ c.isDeclared name = false ∧ ∃ inner d,
      Drafted false (c.nextPosition + 1) (.node body) (c.entering name parameters) inner d ∧
      parameters.length ≤ 255 ∧ d.locals.length - parameters.length ≤ 255 ∧
      c' = { d with
        code := d.code ++ framed parameters.length (d.locals.length - parameters.length) inner } := by
  unfold declareFunction at h
  obtain ⟨_, d, hget, hrun⟩ := bind_eq_ok.mp h
  obtain ⟨rfl, rfl⟩ := get_eq_ok.mp hget
  obtain ⟨hname, hrun⟩ := guard_eq_ok.mp hrun
  obtain ⟨-, hrun⟩ := guard_eq_ok.mp hrun
  obtain ⟨_, d, hmodify, hrun⟩ := bind_eq_ok.mp hrun
  obtain rfl := modify_eq_ok.mp hmodify
  obtain ⟨code, d, hcode, hrun⟩ := bind_eq_ok.mp hrun
  obtain rfl := modify_eq_ok.mp hrun
  obtain ⟨hc, inner, hdrafted, hparameters, hlocals, rfl⟩ := functionBody_ok hcode herrors
  exact ⟨hc, by simpa using hname, inner, d, hdrafted, hparameters, hlocals, rfl⟩

theorem recoverDeclaration_ok {action : Action Unit} {c : Compilation}
    (herrors : (recoverDeclaration action c).errors = []) :
    action c = .ok () (recoverDeclaration action c) := by
  unfold recoverDeclaration at herrors ⊢
  cases haction : action c with
  | ok u d => rfl
  | error e d =>
    simp only [haction] at herrors
    simp [report] at herrors

/-- Outside functions, only signatures and functions are compiled without a fault. -/
theorem declaration_cases {n : Node} {c : Compilation} (hn : ∀ span items, n ≠ .block span items)
    (herrors : (declaration c n).errors = []) :
    (∃ span name parameters, n = .signature span name parameters ∧
      addImport name parameters.length (some span) c = .ok () (declaration c n)) ∨
    ∃ span name parameters body, n = .function span name parameters body ∧
      declareFunction span name parameters body c = .ok () (declaration c n) := by
  cases n with
  | block span items => exact absurd rfl (hn span items)
  | signature span name parameters =>
    exact .inl ⟨span, name, parameters, rfl, recoverDeclaration_ok herrors⟩
  | function span name parameters body =>
    exact .inr ⟨span, name, parameters, body, rfl, recoverDeclaration_ok herrors⟩
  | _ => simp [declaration, report] at herrors

/-! ### Functions one behind the other -/

/-- A function of a script with the code of its body and the number of its further locals. -/
structure Segment where
  function : Function
  extra : Nat
  body : Code

namespace Segment

def code (s : Segment) : Code :=
  framed s.function.arity s.extra s.body

def signature (s : Segment) : String × Nat :=
  (s.function.name, s.function.arity)

/-- The sizes fit their operands, and the code of the body is good at its position. -/
structure Sound (c : Compilation) (s : Segment) : Prop where
  arity_le : s.function.arity ≤ 255
  extra_le : s.extra ≤ 255
  fragment : Fragment c (s.function.arity + s.extra) false (s.function.start + 1) s.body

theorem length_code (s : Segment) : s.code.length = s.body.length + 2 := by
  simp [code, framed]

end Segment

/-- Each function begins where the one before it ends, the first one at a position. -/
def Consecutive : Nat → List Segment → Prop
  | _, [] => True
  | position, s :: rest => s.function.start = position ∧ Consecutive (position + s.code.length) rest

/-- The functions of a compilation are laid out as segments, behind the first instruction. -/
structure Laid (c : Compilation) (segments : List Segment) : Prop where
  functions : c.functions = segments.map Segment.function
  distinct : (segments.map (·.function.name)).Nodup
  code : c.code = segments.flatMap Segment.code
  consecutive : Consecutive 1 segments
  sound : ∀ s ∈ segments, s.Sound c
  constants : c.constants.Sound

theorem Consecutive.append {position : Nat} {segments : List Segment} {s : Segment}
    (h : Consecutive position segments)
    (hs : s.function.start = position + (segments.flatMap Segment.code).length) :
    Consecutive position (segments ++ [s]) := by
  induction segments generalizing position with
  | nil => exact ⟨by simpa using hs, trivial⟩
  | cons first rest ih =>
    refine ⟨h.1, ih h.2 ?_⟩
    rw [hs, List.flatMap_cons, List.length_append]
    omega

theorem Prepared.laid {c : Compilation} (h : Prepared c) : Laid c [] := by
  rw [h.blank]
  exact ⟨rfl, .nil, rfl, trivial, by simp, ConstantPool.sound_empty⟩

theorem Laid.signature {c c' : Compilation} {segments : List Segment} {name : String} {arity : Nat}
    {span : Option Span} {u : Unit} (hlaid : Laid c segments)
    (h : addImport name arity span c = .ok u c') : c.Extends c' ∧ Laid c' segments := by
  obtain rfl := addImport_ok h
  have hextends : c.Extends { c with imports := c.imports ++ [⟨⟨name, .ofNat arity⟩, none⟩] } :=
    ⟨.refl _, List.prefix_append _ _, List.prefix_rfl, List.prefix_rfl, List.prefix_rfl⟩
  refine ⟨hextends, hlaid.functions, hlaid.distinct, hlaid.code, hlaid.consecutive, fun s hs => ?_,
    hlaid.constants⟩
  obtain ⟨harity, hextra, hfragment⟩ := hlaid.sound s hs
  exact ⟨harity, hextra, hfragment.mono hextends (Nat.le_refl _)⟩

theorem extends_append (c : Compilation) (more : Code) : c.Extends { c with code := c.code ++ more } :=
  ⟨.refl _, List.prefix_rfl, List.prefix_rfl, List.prefix_append _ _, List.prefix_rfl⟩

theorem Laid.function {c c' : Compilation} {segments : List Segment} {span : Span} {name : String}
    {parameters : List String} {body : Node} {u : Unit} (hlaid : Laid c segments)
    (h : declareFunction span name parameters body c = .ok u c') (herrors : c'.errors = []) :
    c.Extends c' ∧ ∃ s : Segment, s.signature = (name, parameters.length) ∧
      Laid c' (segments ++ [s]) := by
  obtain ⟨-, hname, inner, d, hdrafted, hparameters, hextra, rfl⟩ := declareFunction_ok h herrors
  have hgrows := hdrafted.grows
  have hlocals : parameters.length ≤ d.locals.length := hgrows.locals.length_le
  have hcode : d.code = c.code := hgrows.code
  have hfunctions : d.functions = c.functions ++ [⟨name, parameters.length, c.nextPosition⟩] :=
    hgrows.functions
  have hextends : c.Extends d :=
    ⟨hgrows.constants, hgrows.imports, hfunctions ▸ List.prefix_append _ _, hcode ▸ List.prefix_rfl,
      hgrows.pending⟩
  refine ⟨hextends.trans (extends_append d _),
    ⟨⟨name, parameters.length, c.nextPosition⟩, d.locals.length - parameters.length, inner⟩, rfl, ?_⟩
  refine ⟨?_, ?_, ?_, hlaid.consecutive.append ?_, fun s hs => ?_, hgrows.sound hlaid.constants⟩
  · simp [hfunctions, hlaid.functions]
  · have hnew : ∀ s ∈ segments, s.function.name ≠ name := by
      simp only [isDeclared, Bool.or_eq_false_iff, hlaid.functions, List.any_eq_false] at hname
      intro s hs
      simpa using hname.2 s.function (List.mem_map_of_mem hs)
    simpa [List.nodup_append, hlaid.distinct] using hnew
  · simp [hcode, hlaid.code, Segment.code]
  · rw [← hlaid.code]
    exact Nat.add_comm _ _
  · rcases List.mem_append.mp hs with hold | hnew
    · obtain ⟨harity, hextra, hfragment⟩ := hlaid.sound s hold
      exact ⟨harity, hextra, hfragment.mono (hextends.trans (extends_append d _)) (Nat.le_refl _)⟩
    · rw [List.mem_singleton.mp hnew]
      refine ⟨hparameters, hextra, hdrafted.fragment.mono (extends_append d _) ?_⟩
      show d.locals.length ≤ parameters.length + (d.locals.length - parameters.length)
      omega

theorem errors_of_declaration {c : Compilation} {n : Node} (hn : ∀ span items, n ≠ .block span items)
    (herrors : (declaration c n).errors = []) : c.errors = [] := by
  obtain ⟨span, name, parameters, rfl, h⟩ | ⟨span, name, parameters, body, rfl, h⟩ :=
    declaration_cases hn herrors
  · rw [addImport_ok h] at herrors
    exact herrors
  · exact (declareFunction_ok h herrors).1

/-- A declaration without fault adds its function, if it is one, behind the others. -/
theorem Laid.declaration {c : Compilation} {segments : List Segment} {n : Node}
    (hlaid : Laid c segments) (hn : ∀ span items, n ≠ .block span items)
    (herrors : (declaration c n).errors = []) :
    c.Extends (declaration c n) ∧ ∃ added : List Segment,
      Laid (declaration c n) (segments ++ added) ∧ added.map Segment.signature = n.function?.toList := by
  obtain ⟨span, name, parameters, rfl, h⟩ | ⟨span, name, parameters, body, rfl, h⟩ :=
    declaration_cases hn herrors
  · obtain ⟨hextends, hlaid'⟩ := hlaid.signature h
    exact ⟨hextends, [], by simpa using hlaid', rfl⟩
  · obtain ⟨hextends, s, hs, hlaid'⟩ := hlaid.function h herrors
    exact ⟨hextends, [s], hlaid', by simp [hs, Node.function?]⟩

/-- The functions of a script without faults are laid out in the order of their declaration. -/
theorem Laid.foldl_declaration {c : Compilation} {segments : List Segment} {items : List Node}
    (hlaid : Laid c segments) (hitems : ∀ n ∈ items, ∀ span inner, n ≠ .block span inner)
    (herrors : (items.foldl Compilation.declaration c).errors = []) :
    c.Extends (items.foldl Compilation.declaration c) ∧ ∃ added : List Segment,
      Laid (items.foldl Compilation.declaration c) (segments ++ added) ∧
        added.map Segment.signature = items.filterMap Node.function? := by
  -- From the last declaration to the first: a state without faults has only such states before it.
  induction items using List.reverseRecOn with
  | nil => exact ⟨.refl c, [], by simpa using hlaid, rfl⟩
  | append_singleton front last ih =>
    rw [List.foldl_append] at herrors ⊢
    have hlast := hitems last (by simp)
    have hfront := errors_of_declaration hlast herrors
    obtain ⟨hextends, added, hadded, hnames⟩ := ih (fun n hn => hitems n (by simp [hn])) hfront
    obtain ⟨hextends', more, hmore, hnames'⟩ := hadded.declaration hlast herrors
    refine ⟨hextends.trans hextends', added ++ more, by simpa using hmore, ?_⟩
    rw [List.map_append, hnames, hnames', List.filterMap_append]
    cases hlast : last.function? <;> simp [hlast]

mutual

theorem topLevel_ne_block (n : Node) : ∀ item ∈ n.topLevel, ∀ span inner, item ≠ .block span inner := by
  cases n with
  | block span items =>
    rw [Node.topLevel]
    exact topLevelAll_ne_block items
  | _ =>
    intro item hitem span inner
    rw [List.mem_singleton.mp hitem]
    simp

theorem topLevelAll_ne_block (items : List Node) :
    ∀ item ∈ Node.topLevelAll items, ∀ span inner, item ≠ .block span inner := by
  cases items with
  | nil => simp [Node.topLevelAll]
  | cons first rest =>
    intro item hitem
    rcases List.mem_append.mp hitem with hmem | hmem
    · exact topLevel_ne_block first item hmem
    · exact topLevelAll_ne_block rest item hmem

end

/-- What is known of a script that compiles: its final state, the segments of its functions, and the
linked code that its program is made of. -/
structure Layout (root : Node) (program : Program) (final : Compilation) (segments : List Segment)
    (linked : Linked) : Prop where
  laid : Laid final segments
  declared : segments.map Segment.signature = root.functions
  settled : ∀ call ∈ final.pending, final.pendingError? call = none
  link : Assembly.link ⟨(final.entryDraft :: final.code.map final.settle).toArray⟩ = .ok linked
  code : program.code = linked.code.toArray
  constants : program.constants = final.constants.values
  imports : program.imports = final.imports.map KnownImport.entry
  exports : program.exports = segments.map fun s =>
    ⟨s.function.name, .ofNat s.function.arity, .ofNat ((linked.offset? s.function.start).getD 0)⟩
  entry : program.entry = (program.exports.find? (·.name == entryFunction)).map Export.address

theorem compile_ok {c : Compilation} {root : Node} {program : Program}
    (h : c.compile root = .ok program) :
    (declaration c root).errors = [] ∧
      (∀ call ∈ (declaration c root).pending, (declaration c root).pendingError? call = none) ∧
      (declaration c root).program = .ok program := by
  simp only [Compilation.compile] at h
  split at h
  · cases h
  · rename_i herrors
    simp only [checkPending, ne_eq, not_not, List.append_eq_nil_iff, List.filterMap_eq_nil_iff] at herrors
    split at h
    · rename_i result hprogram
      cases h
      exact ⟨herrors.1, herrors.2, hprogram⟩
    · cases h

theorem exists_layout {c : Compilation} {root : Node} {program : Program} (hc : Prepared c)
    (h : c.compile root = .ok program) : ∃ segments linked,
      Layout root program (declaration c root) segments linked := by
  obtain ⟨herrors, hsettled, hprogram⟩ := compile_ok h
  rw [declaration_eq_foldl] at herrors hsettled hprogram ⊢
  obtain ⟨-, segments, hlaid, hdeclared⟩ := hc.laid.foldl_declaration (topLevel_ne_block root) herrors
  unfold Compilation.program at hprogram
  split at hprogram
  · cases hprogram
  · rename_i linked hlink
    cases hprogram
    refine ⟨segments, linked, hlaid, hdeclared, hsettled, hlink, rfl, rfl, rfl, ?_, rfl⟩
    simp [hlaid.functions, Function.comp_def]

/-- The code of a program does not depend on when calls and exits are settled: emitting instructions with
open targets and binding or replacing them one by one links to the same code. -/
theorem Layout.link_of_drafting {root : Node} {program : Program} {final : Compilation}
    {segments : List Segment} {linked : Linked} {a : Assembly}
    (h : Layout root program final segments linked)
    (hdrafting : Assembly.Drafting (final.entryDraft :: final.code.map final.settle) [] a)
    (hnext : a.next = final.code.length + 1) : a.link = .ok linked := by
  rw [hdrafting.eq_mk (by simpa using hnext)]
  exact h.link

end Compilation

end ScriptMachine
