import Mathlib
import ScriptMachine.Proofs.Script.Loop

/-!
# Compiled loops

The code of a loop statement has the code of its collection, the instructions that take the next
element, the code of its body and the jump back. Breaks are bound when the body is complete, so each
of them leaves the innermost loop around it: code that is generated without going into the body of
another loop is embedded as it is, and its open exits become exits of this loop.
-/

namespace ScriptMachine

namespace Compilation

open Machine

variable {c : Compilation} {root : Node} {names : List String} {program : Program} {t t' inner : Task}

theorem Embeds.trans {p q r : Nat} {code middle outer : Code} (h : Embeds id p code q middle)
    (h' : Embeds id q middle r outer) : Embeds id p code r outer := by
  obtain ⟨before, after, rfl, rfl⟩ := h
  obtain ⟨before', after', rfl, rfl⟩ := h'
  refine ⟨before' ++ before, after ++ after', ?_, ?_⟩
  · rw [List.length_append, Nat.add_assoc]
  · simp

/-- Code that is generated without going into the body of another loop is embedded as it is. -/
theorem embeds_of_stays (h : Relation.ReflTransGen Task.Stays t t') {code : Code} {d : Compilation}
    (hdrafted : Drafted t.inLoop t.position t.part t.state code d) :
    ∃ code' d', Drafted t'.inLoop t'.position t'.part t'.state code' d' ∧
      Embeds id t'.position code' t.position code := by
  induction h with
  | refl => exact ⟨code, d, hdrafted, .refl _ _⟩
  | tail _ hstays ih =>
    obtain ⟨middle, e, hmiddle, hembeds⟩ := ih
    obtain ⟨code', d', settled, hdrafted', -, hembeds', hsettled⟩ := hstays.1.embeds hmiddle
    rcases hsettled with rfl | ⟨henters, -⟩
    · exact ⟨code', d', hdrafted', hembeds'.trans hembeds⟩
    · exact absurd henters hstays.2

theorem Task.Enters.calls (h : t.Enters inner) : t.Calls inner := by
  obtain ⟨helements, hslot⟩ := h
  exact .loopBody helements hslot

theorem Site.trans (h : Site c root names t) (hcalls : Relation.ReflTransGen Task.Calls t t') :
    Site c root names t' := by
  induction hcalls with
  | refl => exact h
  | tail _ hcall ih => exact ih.tail hcall

/-- How a loop is drafted. -/
theorem Drafted.forEach_cases {l : Bool} {p : Nat} {span : Span} {name : String} {collection body : Node}
    {whole : Code} {c' : Compilation}
    (h : Drafted l p (.node (.forEach span name collection body)) c whole c') :
    ∃ elements d slot e code exit, Drafted l p (.node collection) c elements d ∧
      declareLocal name d = .ok slot e ∧ Drafted true (p + elements.length + 1 + 2) (.node body) e code c' ∧
      exit = p + elements.length + 1 + 2 + code.length + 1 ∧
      whole = elements ++ .plain .makeIter :: .withOperand .iterNext exit :: .withOperand .storeLocal slot ::
        (code.map (·.leaveTo exit) ++ [.withOperand .jump (p + elements.length + 1)]) := by
  cases h with
  | literal hn => cases hn
  | forEach helements hslot hbody =>
    exact ⟨_, _, _, _, _, _, helements, hslot, hbody, rfl, by simp⟩

/-- The code of the loop that a task is for, with the task of its body. -/
structure LoopAt (program : Program) (t inner : Task) (loop : Loop) : Prop where
  enters : t.Enters inner
  position : inner.position = loop.body
  inside : loop.exit < program.instructions.length
  code : loop.In program
  block : ∃ code d, Drafted inner.inLoop inner.position inner.part inner.state code d ∧
    loop.back = loop.body + code.length ∧ program.Renders loop.body (code.map (·.leaveTo loop.exit))

/-- The code of a loop at a site. -/
theorem Site.loopAt (hsite : Site c root names t) (hc : Prepared c) (hcompile : c.compile root = .ok program)
    {span : Span} {name : String} {collection body : Node}
    (hpart : t.part = .node (.forEach span name collection body)) :
    ∃ whole d inner loop, Drafted t.inLoop t.position t.part t.state whole d ∧
      LoopAt program t inner loop ∧ inner.part = .node body ∧ loop.exit = t.position + whole.length ∧
      Spans c root names (.node collection) t.position loop.make ∧ names[loop.slot]? = some name := by
  obtain ⟨l, p, part, state⟩ := t
  cases hpart
  obtain ⟨whole, f, hdrafted, hsited⟩ : ∃ whole f,
      Drafted l p (.node (.forEach span name collection body)) state whole f ∧
        Sited program names p whole f := hsite.sited hc hcompile
  obtain ⟨elements, d, slot, e, code, exit, helements, hslot, hbody, rfl, rfl⟩ := hdrafted.forEach_cases
  have henters : Task.Enters ⟨l, p, .node (.forEach span name collection body), state⟩ _ :=
    .body helements.generate hslot
  have hname : names[slot]? = some name := by
    obtain ⟨hname, -, -⟩ := declareLocal_ok hslot
    obtain ⟨more, rfl⟩ := hbody.grows.locals.trans hsited.locals
    rw [List.getElem?_append_left (List.getElem?_eq_some_iff.mp hname).1]
    exact hname
  obtain ⟨hlt, -⟩ := List.getElem?_eq_some_iff.mp hname
  have hnames := hsited.names_le
  have hstop : p + elements.length + 1 + 2 + code.length + 1 < program.instructions.length := by
    have hend := hsited.lt
    simp only [List.length_append, List.length_cons, List.length_map, List.length_nil] at hend
    omega
  have hrenders := hsited.renders.back
  have hrest := hrenders.tail.tail.tail
  refine ⟨_, f, _, ⟨p + elements.length, p + elements.length + 1 + 2 + code.length, slot⟩, hdrafted,
    ⟨henters, rfl, hstop, ⟨hrenders.has, ?_, ?_, ?_⟩, code, f, hbody, rfl, hrest.front⟩, rfl, ?_,
    (hsite.tail .collection).spans helements, hname⟩
  · exact hrenders.tail.leads rfl hstop hsited.length_lt
  · exact hrenders.tail.tail.takes (by decide) rfl (by omega)
  · have hback := hrest.back.leads rfl (by omega) hsited.length_lt
    rw [List.length_map] at hback
    exact hback
  · simp only [Loop.exit, List.length_append, List.length_cons, List.length_map, List.length_nil]
    omega

/-- There is one call for the body of a loop. -/
theorem Task.Enters.unique {other : Task} (h : t.Enters inner) (h' : t.Enters other) : inner = other := by
  obtain ⟨helements, hslot⟩ := h
  obtain ⟨helements', hslot'⟩ := h'
  cases helements.symm.trans helements'
  cases hslot.symm.trans hslot'
  rfl

theorem Site.loopAt_enters (hsite : Site c root names t) (hc : Prepared c)
    (hcompile : c.compile root = .ok program) (henters : t.Enters inner) {code : Code} {d : Compilation}
    (hgenerate : t.generate = .ok code d) :
    ∃ loop, LoopAt program t inner loop ∧ loop.exit = t.position + code.length := by
  obtain ⟨span, name, collection, body, hpart⟩ :
      ∃ span name collection body, t.part = .node (.forEach span name collection body) := by
    cases henters
    exact ⟨_, _, _, _, rfl⟩
  obtain ⟨whole, e, other, loop, hdrafted, hloop, -, hexit, -⟩ := hsite.loopAt hc hcompile hpart
  cases hgenerate.symm.trans hdrafted.generate
  cases hloop.enters.unique henters
  exact ⟨loop, hloop, hexit⟩

theorem LoopAt.breaks {loop : Loop} (h : LoopAt program t inner loop)
    (hsize : program.instructions.length < 0x100000000) (hstays : Relation.ReflTransGen Task.Stays inner t')
    {span : Span} (hpart : t'.part = .node (.leave span)) : loop.Breaks program t'.position := by
  obtain ⟨l', p', part', state'⟩ := t'
  cases hpart
  obtain ⟨code, d, hbody, hback, hrenders⟩ := h.block
  obtain ⟨code', d', hdrafted, before, after, hposition, rfl⟩ := embeds_of_stays hstays hbody
  have hshift : p' = loop.body + before.length := h.position ▸ hposition
  cases hdrafted with
  | literal hn => cases hn
  | leave =>
    have hbreak : program.Renders p' (.plain .pop1 :: .withOperand .jump loop.exit ::
        after.map (·.leaveTo loop.exit)) := by
      simp only [List.map_id, List.map_append, List.append_assoc] at hrenders
      have hback := hrenders.back
      rwa [List.length_map, ← hshift] at hback
    refine ⟨?_, ?_, hbreak.has, hbreak.tail.leads rfl h.inside hsize⟩
    · rw [hshift]
      exact Nat.le_add_right _ _
    · rw [hshift, hback]
      simp only [List.length_append, List.length_map, List.length_cons, List.length_nil]
      omega

/-- Everything inside the body of a loop has its code there. -/
theorem LoopAt.encloses {loop : Loop} (h : LoopAt program t inner loop)
    (hcalls : Relation.ReflTransGen Task.Calls inner t') {code : Code} {d : Compilation}
    (hgenerate : t'.generate = .ok code d) :
    loop.body ≤ t'.position ∧ t'.position + code.length ≤ loop.back := by
  obtain ⟨block, e, hbody, hback, -⟩ := h.block
  obtain ⟨code', d', hdrafted, -, hstands⟩ := drafted_of_calls hcalls hbody
  cases hgenerate.symm.trans hdrafted.generate
  have hend := hstands.end_le
  obtain ⟨before, -, -, hposition, -, -⟩ := hstands
  rw [h.position] at hend hposition
  omega

theorem Sited.size_constants {position : Nat} {code : Code} {d : Compilation}
    (h : Sited program names position code d) : program.constants.size ≤ maxOffset + 1 := by
  obtain ⟨pool, hsound, -, hconstants⟩ := h.constants
  rw [hconstants]
  exact hsound.size_le

/-- The breaks of a loop, by the task of its body: those that are generated without going into the body
of another loop. -/
def Task.BreaksAt (inner : Task) (position : Nat) : Prop :=
  ∃ t span, Relation.ReflTransGen Task.Stays inner t ∧ t.part = .node (.leave span) ∧ t.position = position

/-- A loop inside the body of another one ends at `behind`, a position of that body or its end, and its
breaks lead there. -/
structure StaysInside (loop : Loop) (program : Program) (inner : Task) (behind : Nat) : Prop where
  body_le : loop.body ≤ behind
  le_back : behind ≤ loop.back
  breaks : ∀ position, inner.BreaksAt position →
    program.Has .pop1 position ∧ program.Leads .jump (position + 1) behind

/-- What the program has for the loop statement that the task `t` is for, inside a function with the
locals `names`. -/
structure LoopCode (c : Compilation) (root : Node) (names : List String) (program : Program) (name : String)
    (collection body : Node) (t inner : Task) (loop : Loop) : Prop extends LoopAt program t inner loop where
  part : inner.part = .node body
  exit_eq : ∃ code d, t.generate = .ok code d ∧ loop.exit = t.position + code.length
  spans : Spans c root names (.node collection) t.position loop.make
  slot : names[loop.slot]? = some name
  breaks : ∀ position, inner.BreaksAt position → loop.Breaks program position
  nested : ∀ t' inner' code d, Relation.ReflTransGen Task.Calls inner t' → t'.Enters inner' →
    t'.generate = .ok code d → StaysInside loop program inner' (t'.position + code.length)

theorem Site.loopCode (hsite : Site c root names t) (hc : Prepared c)
    (hcompile : c.compile root = .ok program) {span : Span} {name : String} {collection body : Node}
    (hpart : t.part = .node (.forEach span name collection body)) :
    ∃ inner loop, LoopCode c root names program name collection body t inner loop := by
  obtain ⟨whole, d, inner, loop, hdrafted, hloop, hbody, hexit, hcollection, hslot⟩ :=
    hsite.loopAt hc hcompile hpart
  obtain ⟨_, _, _, hsited⟩ := hsite.sited hc hcompile
  refine ⟨inner, loop, hloop, hbody, ⟨whole, d, hdrafted.generate, hexit⟩, hcollection, hslot, ?_, ?_⟩
  · rintro position ⟨t', span', hstays, hleave, rfl⟩
    exact hloop.breaks hsited.length_lt hstays hleave
  · intro t' inner' code' d' hcalls henters hgenerate
    obtain ⟨hbody_le, hle⟩ := hloop.encloses hcalls hgenerate
    obtain ⟨loop', hloop', hexit'⟩ :=
      (hsite.trans (hcalls.head hloop.enters.calls)).loopAt_enters hc hcompile henters hgenerate
    refine ⟨Nat.le_trans hbody_le (Nat.le_add_right _ _), hle, ?_⟩
    rintro position ⟨t'', span', hstays, hleave, rfl⟩
    have hbreak := hloop'.breaks hsited.length_lt hstays hleave
    exact ⟨hbreak.drop, hexit' ▸ hbreak.leave⟩

/-- Every loop inside a function of a script that compiles has its own code in the program. Its breaks
lead right behind it, and those of a loop inside its body lead to a position of the body or to its end.

A run that comes to the loop with an array on top of the stack, above the locals of the current frame
and with a free slot above it, takes one turn for each of the elements in order, up to the first turn
that ends at a break. Each turn enters the body once, with the element in the local of the loop. Then
the run comes to the first instruction behind the loop, with nothing left on the stack of what lay
above the slots below the array, and with the frame that it had. Slots that no run of the body changes
are as they were, apart from the local of the loop.

This holds if every run of the body ends behind the body or at a break of the loop, with the iterator,
the elements of the array and the frame as they were at the start of the body. -/
theorem loop_visits_elements_in_order {c : Compilation} {root : Node} {program : Program}
    (hc : Prepared c) (hcompile : c.compile root = .ok program) (span : Span) (name : String)
    (collection body : Node) :
    (∀ span' name' parameters body', .function span' name' parameters body' ∈ root.topLevel →
      (Part.node body').Contains (.node (.forEach span name collection body)) →
      ∃ names t, Site c root names t ∧ t.part = .node (.forEach span name collection body)) ∧
    ∀ names t, Site c root names t → t.part = .node (.forEach span name collection body) →
      ∃ inner loop, LoopCode c root names program name collection body t inner loop ∧
        ∀ (settings : Settings) (env : Environment) (validate : Bool) (m : Machine) (it : Iteration),
          m.Intact settings → it.Begins program names.length m →
          BodyEnds program env validate loop it (program.place loop.make) m →
          ∃ places m' n, RunsThrough program env validate loop it places m m' n := by
  refine ⟨fun _ _ _ _ hfunction hinside => exists_site hc hcompile hfunction hinside,
    fun names t hsite hpart => ?_⟩
  obtain ⟨inner, loop, hloop⟩ := hsite.loopCode hc hcompile hpart
  obtain ⟨_, _, _, hsited⟩ := hsite.sited hc hcompile
  obtain ⟨hlt, -⟩ := List.getElem?_eq_some_iff.mp hloop.slot
  refine ⟨inner, loop, hloop, fun settings env validate m it hm hbegins hends => ?_⟩
  exact hloop.code.runsThrough hsited.size_constants hlt env validate hm hbegins hends

/-- A loop that is left at the first element that is true. -/
def seekLoop : Node :=
  .forEach {} "x" (.read {} "xs") (.block {} [.branch {} (.read {} "x") (.block {} [.leave {}]) none])

def seekScript : Node :=
  .block {} [.function {} "seek" ["xs"] (.block {} [seekLoop])]

def seekProgram : Program where
  code := #[0, 0x1b, 1, 0, 0, 0, 1, 0, 0, 0, 0x1f, 0, 0, 0, 0, 0x23, 0x24, 47, 0, 0, 0, 0x1e, 1, 0, 0, 0,
    0x1f, 1, 0, 0, 0, 0x17, 42, 0, 0, 0, 0x14, 0x16, 47, 0, 0, 0, 0x16, 16, 0, 0, 0, 0x1c]
  exports := [⟨"seek", 1, 1⟩]

/-- A machine inside a call of the function with two elements, the first of them false: the local of the
loop and the slots above it, and how many values there are. -/
def seekMachine (x iterator spare : Value) (depth : Nat) : Machine where
  stack := ⟨#[.frame ⟨-1, 1, 1⟩, .array (.mutable 5) 2, x, iterator, spare], depth, some 0⟩
  heap := ⟨#[.bool false, .bool true, .nothing, .nothing, .nothing], .empty 5, 5, 0⟩

def seekStart : Machine :=
  seekMachine .nothing (.array (.mutable 5) 2) .nothing 4

def seekTurn (second : Bool) (depth : Nat) : Machine :=
  seekMachine (.bool second) (.iterator (.mutable (if second then 7 else 6)) (if second then 0 else 1))
    (.bool second) depth

def seekIteration : Iteration :=
  ⟨.mutable 5, [.bool false, .bool true], 3, 0, ⟨-1, 1, 1⟩⟩

def seekTask : Task :=
  ⟨false, 2, .node seekLoop, entering {} "seek" ["xs"]⟩

theorem compile_seekScript : ({} : Compilation).compile seekScript = .ok seekProgram := by
  cbv

theorem site_seekScript : Site {} seekScript ["xs", "x"] seekTask :=
  site_of_drafted rfl (by cbv) ((Relation.ReflTransGen.single .items).tail .firstStatement)

theorem intact_seekStart : seekStart.Intact { memorySize := 10 } := by
  have hcreate : Heap.create ⟨5, 5⟩ = .ok ⟨Slots.empty 5, .empty 5, 5, 0⟩ := rfl
  have hheap := Heap.Intact.create hcreate
  refine ⟨⟨rfl, by decide, ?_⟩, ⟨rfl, rfl, hheap.marks, hheap.reach⟩⟩
  intro index hindex
  cases hindex
  decide

theorem begins_seekStart : seekIteration.Begins seekProgram 2 seekStart :=
  ⟨rfl, ⟨2, rfl, rfl⟩, rfl, rfl, rfl, by decide, by decide⟩

/-- The run comes to the body twice, and then to the end of the loop. -/
theorem trace_seekStart : follow seekProgram {} true 13 15 seekStart = none ∧
    (trace seekProgram {} true 13 15 seekStart).filter (·.1 == 26)
      = [(26, seekTurn false 4), (26, seekTurn true 4)] ∧
    (trace seekProgram {} true 13 15 seekStart).filter (·.1 == 47) = [(47, seekTurn true 3)] := by
  refine ⟨by cbv, by cbv, by cbv⟩

def seekCode : Loop :=
  ⟨3, 10, 1⟩

theorem breaks_seekCode : seekCode.Breaks seekProgram 8 := by
  refine ⟨by decide, by decide, ?_, ?_⟩
  · unfold Program.Has
    decide
  · unfold Program.Leads
    decide

theorem not_ends_seekCode : ∀ position < 8, ¬ seekCode.Ends seekProgram position := by
  have hdrop : ∀ position < 8, ¬ seekProgram.Has .pop1 position := by
    unfold Program.Has
    decide
  rintro position hlt (rfl | hbreak)
  · exact absurd hlt (by decide)
  · exact hdrop position hlt hbreak.drop

/-- A turn loads the element and tests it. The first turn ends behind the body, the second at the break. -/
theorem round_seekTurn (second : Bool) :
    Round seekProgram {} true seekCode seekIteration [26, 31] (seekTurn second 4) (if second then 8 else 10)
      (seekTurn second 4) := by
  have htrace : trace seekProgram {} true 1 (seekProgram.place seekCode.body) (seekTurn second 4)
      = [(26, seekTurn second 4), (31, seekTurn second 5)] := by
    cases second <;> cbv
  refine ⟨?_, ?_, fun front p n hfront hlt => ?_⟩
  · cases second <;> exact passes_of_follow 2 (by cbv)
  · cases second
    · exact .inl rfl
    · exact .inr breaks_seekCode
  · have hmem := hfront.mem_trace 1 (Nat.le_of_lt_succ hlt)
    rw [htrace, List.mem_cons, List.mem_singleton] at hmem
    rcases hmem with hmem | hmem
    · cases hmem
      exact .inl ⟨rfl, .inr ⟨6, by decide, by decide, not_ends_seekCode 6 (by decide), by decide⟩⟩
    · cases hmem
      exact .inl ⟨rfl, .inr ⟨7, by decide, by decide, not_ends_seekCode 7 (by decide), by decide⟩⟩

theorem bodyEnds_seekStart : BodyEnds seekProgram {} true seekCode seekIteration 15 seekStart := by
  obtain ⟨hend, hbody, -⟩ := trace_seekStart
  intro k b hreaches hholds _
  have hmem : (26, b) ∈ (trace seekProgram {} true 13 15 seekStart).filter (·.1 == 26) :=
    List.mem_filter.mpr ⟨hreaches.mem_trace 13 hend, rfl⟩
  rw [hbody, List.mem_cons, List.mem_singleton] at hmem
  rcases hmem with hmem | hmem
  · cases hmem
    exact ⟨_, _, _, round_seekTurn false, hholds⟩
  · cases hmem
    exact ⟨_, _, _, round_seekTurn true, hholds⟩

theorem loop_eq_seekCode {inner : Task} {loop : Loop}
    (h : LoopCode {} seekScript ["xs", "x"] seekProgram "x" (.read {} "xs")
      (.block {} [.branch {} (.read {} "x") (.block {} [.leave {}]) none]) seekTask inner loop) :
    loop = seekCode := by
  obtain ⟨code, d, hcode, hexit⟩ := h.exit_eq
  have hlength : seekTask.drafted?.map (·.1.length) = some 9 := by cbv
  rw [Task.drafted?, hcode] at hlength
  rw [show code.length = 9 from Option.some.inj hlength] at hexit
  obtain ⟨_, _, _, hback, -⟩ := h.block
  have hmake : ∀ k < 8, seekProgram.Has .makeIter k → k = 3 := by
    unfold Program.Has
    decide
  have hslot : ∀ k < 2, ["xs", "x"][k]? = some "x" → k = 1 := by decide
  obtain ⟨make, back, slot⟩ := loop
  simp only [Loop.exit, Loop.body, seekTask] at hexit hback
  obtain ⟨hlt, -⟩ := List.getElem?_eq_some_iff.mp h.slot
  obtain rfl := hmake make (by omega) h.code.make
  obtain rfl := hslot slot hlt h.slot
  obtain rfl : back = 10 := by omega
  rfl

/-- The first element lets the loop go round, and the second one is in the local when it is left. -/
theorem loop_visits_elements_in_order_sample : ∃ places m' n,
    ({} : Compilation).compile seekScript = .ok seekProgram ∧ seekStart.Intact { memorySize := 10 } ∧
    seekIteration.Begins seekProgram 2 seekStart ∧
    BodyEnds seekProgram {} true seekCode seekIteration 15 seekStart ∧
    RunsThrough seekProgram {} true seekCode seekIteration places seekStart m' n ∧
    seekIteration.elements = [.bool false, .bool true] ∧
    Slots.read n.stack.slots (seekIteration.target seekCode) = .bool true := by
  obtain ⟨inner, loop, hloop, hruns⟩ :=
    (loop_visits_elements_in_order .start compile_seekScript {} "x" (.read {} "xs") _).2 _ seekTask
      site_seekScript rfl
  obtain rfl := loop_eq_seekCode hloop
  obtain ⟨places, m', n, hrun⟩ :=
    hruns _ {} true seekStart seekIteration intact_seekStart begins_seekStart bodyEnds_seekStart
  refine ⟨places, m', n, compile_seekScript, intact_seekStart, begins_seekStart, bodyEnds_seekStart,
    hrun, rfl, ?_⟩
  obtain ⟨hend, -, hexit⟩ := trace_seekStart
  have hmem : (47, n) ∈ (trace seekProgram {} true 13 15 seekStart).filter (·.1 == 47) :=
    List.mem_filter.mpr ⟨hrun.passes.reaches.mem_trace 13 hend, rfl⟩
  rw [hexit, List.mem_singleton] at hmem
  cases hmem
  rfl

/-! ### What a loop takes from the stack below it -/

/-- A loop over a call that leaves nothing. -/
def overlapScript : Node :=
  .block {} [.function {} "f" [] (.block {} []),
    .function {} "main" ["x"] (.block {} [.forEach {} "x" (.call {} "f" []) (.block {} []),
      .result {} (some (.bool {} true))])]

def overlapProgram : Program where
  code := #[0x1a, 15, 0, 0, 0, 0x1b, 0, 0, 0, 0, 0, 0, 0, 0, 0x1c, 0x1b, 1, 0, 0, 0, 0, 0, 0, 0,
    0x19, 5, 0, 0, 0, 0x23, 0x24, 45, 0, 0, 0, 0x1e, 0, 0, 0, 0, 0x16, 30, 0, 0, 0, 0x13, 0, 0, 0, 0,
    0x1d, 0x1c]
  constants := #[.bool true]
  exports := [⟨"f", 0, 5⟩, ⟨"main", 1, 15⟩]
  entry := some 15

/-- The array on top is the local of the loop. -/
def overlapMachine : Machine where
  stack := ⟨#[.frame ⟨-1, 1, 0⟩, .array (.constant 0) 1, .nothing], 2, some 0⟩
  heap := default

def strayScript : Node :=
  .block {} [.function {} "f" [] (.block {} []),
    .function {} "main" ["xs"] (.block {} [.forEach {} "x" (.read {} "xs") (.block {} [.call {} "f" []]),
      .result {} (some (.bool {} true))])]

def strayProgram : Program where
  code := #[0x1a, 15, 0, 0, 0, 0x1b, 0, 0, 0, 0, 0, 0, 0, 0, 0x1c, 0x1b, 1, 0, 0, 0, 1, 0, 0, 0,
    0x1f, 0, 0, 0, 0, 0x23, 0x24, 50, 0, 0, 0, 0x1e, 1, 0, 0, 0, 0x19, 5, 0, 0, 0, 0x16, 30, 0, 0, 0,
    0x13, 0, 0, 0, 0, 0x1d, 0x1c]
  constants := #[.bool true]
  exports := [⟨"f", 0, 5⟩, ⟨"main", 1, 15⟩]
  entry := some 15

/-- A machine in the loop over an array of a frame and a bool: the local and the slots above it, how
many values there are, and which frame is current. -/
def strayMachine (x iterator spare : Value) (depth frame : Nat) : Machine where
  stack := ⟨#[.frame ⟨-1, 1, 1⟩, .array (.mutable 5) 2, x, iterator, spare], depth, some frame⟩
  heap := ⟨#[.frame ⟨0, 0, 0⟩, .bool true, .nothing, .nothing, .nothing], .empty 5, 5, 0⟩

def onceLoop : Node :=
  .forEach {} "x" (.read {} "xs") (.block {} [.leave {}])

def onceScript : Node :=
  .block {} [.function {} "once" ["xs"] (.block {} [onceLoop])]

def onceProgram : Program where
  code := #[0, 0x1b, 1, 0, 0, 0, 1, 0, 0, 0, 0x1f, 0, 0, 0, 0, 0x23, 0x24, 37, 0, 0, 0, 0x1e, 1, 0, 0, 0,
    0x14, 0x16, 37, 0, 0, 0, 0x16, 16, 0, 0, 0, 0x1c]
  exports := [⟨"once", 1, 1⟩]

/-- A machine inside a call of the function, with an array of two bools on top of the locals. -/
def onceMachine : Machine where
  stack := ⟨#[.frame ⟨-1, 1, 1⟩, .array (.mutable 5) 2, .nothing, .array (.mutable 5) 2, .nothing], 4, some 0⟩
  heap := ⟨#[.bool true, .bool false, .nothing, .nothing, .nothing], .empty 5, 5, 0⟩

/-- Two loops over arrays that resolve, with bodies that keep the depth, the iterator and the elements,
fail in their second turn. In the first one the element overwrites the iterator, because the array lies
among the locals. In the second one a call in the body returns to a frame that is an element. A third
loop, whose body changes nothing, comes to its end and leaves an element in its local, below the array. -/
theorem loop_overwrites_iterator_frame_or_local :
    (({} : Compilation).compile overlapScript = .ok overlapProgram ∧
      (overlapMachine.memory overlapProgram).resolve? (.constant 0) 1 = some [.bool true] ∧
      ∃ n, Passes overlapProgram {} false [29, 30, 35, 40] 29 overlapMachine 30 n ∧
        cycle overlapProgram {} false 30 n = .error (.typeMismatch .iterNext "iterator" "bool") n) ∧
    (({} : Compilation).compile strayScript = .ok strayProgram ∧
      ∃ m b f n, m = strayMachine .nothing (.array (.mutable 5) 2) .nothing 4 0 ∧
        (m.memory strayProgram).resolve? (.mutable 5) 2 = some [.frame ⟨0, 0, 0⟩, .bool true] ∧
        Passes strayProgram {} false [29, 30, 35] 29 m 40 b ∧
        Passes strayProgram {} false [40, 5, 14] 40 b 45 f ∧ f.stack.depth = b.stack.depth ∧
        Slots.read f.stack.slots 3 = Slots.read b.stack.slots 3 ∧ f.heap = b.heap ∧
        Passes strayProgram {} false [45, 30] 45 f 35 n ∧
        ∃ n', cycle strayProgram {} false 35 n = .error (.frame (.localOutOfRange 1 4)) n') ∧
    ({} : Compilation).compile onceScript = .ok onceProgram ∧
      (onceMachine.memory onceProgram).resolve? (.mutable 5) 2 = some [.bool true, .bool false] ∧
      Slots.read onceMachine.stack.slots 2 = .nothing ∧
      ∃ n, Passes onceProgram {} false [15, 16, 21, 26, 27] 15 onceMachine 37 n ∧ n.stack.depth = 3 ∧
        Slots.read n.stack.slots 2 = .bool true := by
  refine ⟨⟨by cbv, by cbv, ?_⟩, ⟨by cbv, ?_⟩, by cbv, by cbv, rfl, ?_⟩
  · refine ⟨⟨⟨#[.frame ⟨-1, 1, 0⟩, .bool true, .bool true], 2, some 0⟩, default, #[]⟩, ?_, by cbv⟩
    exact passes_of_follow 4 (by cbv)
  · refine ⟨_, strayMachine (.frame ⟨0, 0, 0⟩) (.iterator (.mutable 6) 1) (.frame ⟨0, 0, 0⟩) 4 0,
      strayMachine (.frame ⟨0, 0, 0⟩) (.iterator (.mutable 6) 1) (.frame ⟨45, 0, 0⟩) 4 2,
      strayMachine (.frame ⟨0, 0, 0⟩) (.iterator (.mutable 7) 0) (.bool true) 5 2, rfl, by cbv,
      passes_of_follow 3 (by cbv), passes_of_follow 3 (by cbv), rfl, rfl, rfl,
      passes_of_follow 2 (by cbv),
      strayMachine (.frame ⟨0, 0, 0⟩) (.iterator (.mutable 7) 0) (.bool true) 4 2, by cbv⟩
  · refine ⟨⟨⟨#[.frame ⟨-1, 1, 1⟩, .array (.mutable 5) 2, .bool true, .iterator (.mutable 6) 1, .bool true],
      3, some 0⟩, onceMachine.heap, #[]⟩, ?_, rfl, rfl⟩
    exact passes_of_follow 5 (by cbv)

end Compilation

end ScriptMachine
