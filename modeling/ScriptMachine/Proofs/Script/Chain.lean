import Mathlib
import ScriptMachine.Proofs.Script.Placement

/-!
# Chains of branches

The code of a chain has the condition and the body of every link in the order of the chain, and the
else behind them. A false condition leads to the next link. A body is followed by a jump behind the
whole chain if there is more code of the chain to jump over. So a run through the conditions enters
the body of the first one that is true, and a run that comes to the end of a body leaves the chain.
-/

namespace ScriptMachine

open Compilation

/-- One condition of a chain with what is done if it is true. -/
structure Link where
  span : Span
  condition : Expression
  body : Node

namespace Link

def node (link : Link) (next : Option Node) : Node :=
  .branch link.span link.condition.node link.body next

def holds (memory : Memory) (locals : String → Value) (link : Link) : Bool :=
  match link.condition.evaluate memory locals with
  | .ok (.bool condition) => condition
  | _ => false

end Link

/-- Links one after the other, and what is done if no condition is true. -/
def chain : List Link → Option Node → Option Node
  | [], otherwise => otherwise
  | link :: links, otherwise => some (link.node (chain links otherwise))

/-- The positions of a link in the code: where its condition begins, where its body begins and where
its body has ended. -/
structure Stage where
  test : Nat
  body : Nat
  stop : Nat

/-- Where a chain goes on once the condition with an index has turned out true; behind the last
condition that is where the else begins. -/
def entry (stages : List Stage) (otherwise index : Nat) : Nat :=
  ((stages[index]?).map Stage.body).getD otherwise

namespace Compilation

/-- How the code of a chain stands in the program from one position up to another: the stages of its
links, and where its else begins. -/
inductive Unrolled (c : Compilation) (root : Node) (names : List String) (program : Program)
    (otherwise : Option Node) : List Link → Nat → List Stage → Nat → Nat → Prop where
  | nothing {start : Nat} (hnone : continues otherwise = false) :
      Unrolled c root names program otherwise [] start [] start start
  | otherwise {n : Node} {start finish : Nat} (hsome : otherwise = some n) (hcode : continues otherwise = true)
      (hspans : Spans c root names (.node n) start finish) :
      Unrolled c root names program otherwise [] start [] start finish
  | link {link : Link} {links : List Link} {start jump stop next last finish : Nat} {stages : List Stage}
      (htest : Spans c root names (.node link.condition.node) start jump)
      (hskip : program.Leads .jumpIfFalse jump next)
      (hbody : Spans c root names (.node link.body) (jump + 1) stop)
      (hexit : if continues (chain links otherwise) then next = stop + 1 ∧ program.Leads .jump stop finish
        else next = stop)
      (hrest : Unrolled c root names program otherwise links next stages last finish) :
      Unrolled c root names program otherwise (link :: links) start (⟨start, jump + 1, stop⟩ :: stages) last
        finish

/-- The two ways of drafting a branch. -/
theorem Drafted.branch_cases {l : Bool} {p : Nat} {span : Span} {condition body : Node}
    {next : Option Node} {c c' : Compilation} {whole : Code}
    (h : Drafted l p (.node (.branch span condition body next)) c whole c') :
    ∃ test d code e, Drafted l p (.node condition) c test d ∧
      Drafted l (p + test.length + 1) (.node body) d code e ∧
      (continues next = false ∧
          whole = test ++ .withOperand .jumpIfFalse (p + test.length + 1 + code.length) :: code ∨
        ∃ n rest, next = some n ∧ continues next = true ∧
          Drafted l (p + test.length + 1 + code.length + 1) (.node n) e rest c' ∧
          whole = test ++ .withOperand .jumpIfFalse (p + test.length + 1 + code.length + 1) ::
            (code ++ .withOperand .jump (p + test.length + 1 + code.length + 1 + rest.length) :: rest)) := by
  cases h with
  | literal hn => cases hn
  | lastBranch htest hbody hnext => exact ⟨_, _, _, _, htest, hbody, .inl ⟨hnext, rfl⟩⟩
  | branch htest hbody hnext hrest =>
    exact ⟨_, _, _, _, htest, hbody, .inr ⟨_, _, rfl, hnext, hrest, by simp⟩⟩

variable {c : Compilation} {root : Node} {names : List String} {program : Program} {otherwise : Option Node}

/-- The code of one link at a site, with the site of what follows in the chain. -/
theorem Site.unrolled_link (hc : Prepared c) (hcompile : c.compile root = .ok program) {link : Link}
    {next : Option Node} {t : Task} (hsite : Site c root names t) (hpart : t.part = .node (link.node next)) :
    ∃ code d jump stop finish, Drafted t.inLoop t.position t.part t.state code d ∧
      finish = t.position + code.length ∧ finish < program.instructions.length ∧
      Spans c root names (.node link.condition.node) t.position jump ∧
      Spans c root names (.node link.body) (jump + 1) stop ∧
      (continues next = false ∧ stop = finish ∧ program.Leads .jumpIfFalse jump stop ∨
        ∃ n t' rest e, next = some n ∧ continues next = true ∧ Site c root names t' ∧ t'.part = .node n ∧
          t'.position = stop + 1 ∧ Drafted t'.inLoop t'.position t'.part t'.state rest e ∧
          finish = stop + 1 + rest.length ∧ program.Leads .jumpIfFalse jump (stop + 1) ∧
          program.Leads .jump stop finish) := by
  obtain ⟨l, p, part, state⟩ := t
  cases hpart
  obtain ⟨whole, f, hdrafted, hsited⟩ := hsite.sited hc hcompile
  obtain ⟨test, d, code, e, htest, hbody, hcases⟩ := hdrafted.branch_cases
  have hcondition := (hsite.tail .condition).spans htest
  have hblock := (hsite.tail (.body htest.generate)).spans hbody
  have hrenders : program.Renders p whole := hsited.renders
  have hlt : p + whole.length < program.instructions.length := hsited.lt
  refine ⟨whole, f, p + test.length, p + test.length + 1 + code.length, p + whole.length, hdrafted, rfl,
    hlt, hcondition, hblock, ?_⟩
  rcases hcases with ⟨hnext, rfl⟩ | ⟨n, rest, rfl, hnext, hrest, rfl⟩
  · have hfinish : p + (test ++ .withOperand .jumpIfFalse (p + test.length + 1 + code.length) :: code).length
        = p + test.length + 1 + code.length := by
      simp only [List.length_append, List.length_cons]
      omega
    rw [hfinish] at hlt ⊢
    exact .inl ⟨hnext, rfl, hrenders.back.leads rfl hlt hsited.length_lt⟩
  · have hfinish : p + (test ++ .withOperand .jumpIfFalse (p + test.length + 1 + code.length + 1) ::
          (code ++ .withOperand .jump (p + test.length + 1 + code.length + 1 + rest.length) :: rest)).length
        = p + test.length + 1 + code.length + 1 + rest.length := by
      simp only [List.length_append, List.length_cons]
      omega
    rw [hfinish] at hlt ⊢
    exact .inr ⟨n, _, rest, f, rfl, hnext, hsite.tail (.next htest.generate hbody.generate hnext), rfl, rfl,
      hrest, rfl, hrenders.back.leads rfl (Nat.lt_of_le_of_lt (Nat.le_add_right _ _) hlt) hsited.length_lt,
      hrenders.back.tail.back.leads rfl hlt hsited.length_lt⟩

/-- The code of a chain at a site is laid out link by link. -/
theorem Site.unrolled (hc : Prepared c) (hcompile : c.compile root = .ok program) {first : Link}
    {links : List Link} {t : Task} (hsite : Site c root names t)
    (hpart : t.part = .node (first.node (chain links otherwise))) :
    ∃ code d stages last, Drafted t.inLoop t.position t.part t.state code d ∧
      t.position + code.length < program.instructions.length ∧
      Unrolled c root names program otherwise (first :: links) t.position stages last
        (t.position + code.length) := by
  induction links generalizing first t with
  | nil =>
    obtain ⟨code, d, jump, stop, finish, hdrafted, rfl, hlt, htest, hbody, hcases⟩ :=
      hsite.unrolled_link hc hcompile hpart
    rcases hcases with ⟨hnext, rfl, hskip⟩ |
      ⟨n, t', rest, e, hnext, hcontinues, hsite', hpart', hposition, hrest, hfinish, hskip, hexit⟩
    · exact ⟨code, d, _, _, hdrafted, hlt, .link htest hskip hbody (by rw [hnext]; rfl) (.nothing hnext)⟩
    · have hspans := hsite'.spans hrest
      rw [hpart', hposition, ← hfinish] at hspans
      exact ⟨code, d, _, _, hdrafted, hlt, .link htest hskip hbody (by rw [hcontinues]; exact ⟨rfl, hexit⟩)
        (.otherwise hnext hcontinues hspans)⟩
  | cons link links ih =>
    obtain ⟨code, d, jump, stop, finish, hdrafted, rfl, hlt, htest, hbody, hcases⟩ :=
      hsite.unrolled_link hc hcompile hpart
    rcases hcases with ⟨hnext, -, -⟩ |
      ⟨n, t', rest, e, hnext, hcontinues, hsite', hpart', hposition, hrest, hfinish, hskip, hexit⟩
    · cases hnext
    · cases hnext
      obtain ⟨rest', e', stages, last, hrest', -, hunrolled⟩ := ih hsite' hpart'
      cases hrest.generate.symm.trans hrest'.generate
      rw [hposition, ← hfinish] at hunrolled
      exact ⟨code, d, _, last, hdrafted, hlt,
        .link htest hskip hbody (by rw [hcontinues]; exact ⟨rfl, hexit⟩) hunrolled⟩

end Compilation

namespace Machine

/-- The second machine has all that the first one has, and nothing more on its stack. -/
structure Restores (base m : Machine) : Prop extends Above base m where
  depth : m.stack.depth = base.stack.depth

variable {base m n : Machine}

theorem Restores.refl (m : Machine) : Restores m m :=
  ⟨.refl m, rfl⟩

theorem Restores.trans (h : Restores base m) (h' : Restores m n) : Restores base n :=
  ⟨h.toAbove.trans h'.toAbove, h'.depth.trans h.depth⟩

theorem Pushes.restores {value : Value} (h : Pushes base value m) : Restores base (m.cut base.stack.depth) :=
  ⟨⟨h.heap, h.events, h.frame, h.capacity, Nat.le_refl _, h.below⟩, rfl⟩

theorem Restores.memory (h : Restores base m) (program : Program) :
    m.memory program = base.memory program := by
  rw [Machine.memory, h.heap, Machine.memory]

end Machine

namespace Compilation

open Machine

variable {c : Compilation} {root : Node} {names : List String} {program : Program} {otherwise : Option Node}
  {links : List Link} {start last finish : Nat} {stages : List Stage} {env : Environment} {validate : Bool}
  {locals : String → Value} {m : Machine}

/-- The places of the conditions of the first links, each with the jump behind it. -/
def testPlaces (program : Program) (stages : List Stage) : List Nat :=
  stages.flatMap fun stage => placesFrom program stage.test stage.body

/-- A condition with the jump behind it: true leads into the body, false to the next link. -/
theorem Spans.tests {e : Expression} {jump next : Nat} {condition : Bool}
    (h : Spans c root names (.node e.node) start jump) (hskip : program.Leads .jumpIfFalse jump next)
    (hc : Prepared c) (hcompile : c.compile root = .ok program) (hholds : m.stack.Holds names locals)
    (hroom : m.stack.depth + e.waiting < m.stack.capacity)
    (hvalue : e.evaluate (m.memory program) locals = .ok (.bool condition)) :
    ∃ n, Restores m n ∧ Passes program env validate (placesFrom program start (jump + 1))
      (program.place start) m (program.place (if condition then jump + 1 else next)) n := by
  obtain ⟨n, hpushes, hpasses⟩ := h.evaluates hc hcompile hholds hroom hvalue
  obtain ⟨i, hi, hop, hoffset, hnext, htarget, hlt⟩ := hskip
  have hrestores := hpushes.restores
  have hafter := after_of_holds (hrestores.holds hholds) (by
    rw [hrestores.depth, hrestores.capacity]
    omega)
  have hjump : Passes program env validate [i.offset] i.offset n _ _ :=
    passes_jumpIfFalse hi hop (htarget ▸ hlt) hpushes.depth hpushes.top fun _ => hafter
  rw [hoffset, hnext, htarget, ← apply_ite program.place] at hjump
  rw [placesFrom_snoc h.start_le]
  exact ⟨_, hrestores, hpasses.trans hjump⟩

/-- A run from the first condition evaluates the conditions up to the first true one and enters its
body, or goes to the else if there is none. -/
theorem Unrolled.chooses (h : Unrolled c root names program otherwise links start stages last finish)
    (hc : Prepared c) (hcompile : c.compile root = .ok program) (hholds : m.stack.Holds names locals)
    (hroom : ∀ link ∈ links, m.stack.depth + link.condition.waiting < m.stack.capacity)
    (hbools : ∀ link ∈ links, ∃ condition,
      link.condition.evaluate (m.memory program) locals = .ok (.bool condition)) :
    ∃ n, Restores m n ∧ Passes program env validate
      (testPlaces program (stages.take (links.findIdx (·.holds (m.memory program) locals) + 1)))
      (program.place start) m
      (program.place (entry stages last (links.findIdx (·.holds (m.memory program) locals)))) n := by
  induction h generalizing m with
  | nothing | otherwise => exact ⟨m, .refl m, .here⟩
  | @link link links start jump stop next last finish stages htest hskip hbody hexit hrest ih =>
    obtain ⟨condition, hvalue⟩ := hbools link (List.mem_cons_self ..)
    have hcondition : link.holds (m.memory program) locals = condition := by rw [Link.holds, hvalue]
    obtain ⟨n, hrestores, hpasses⟩ :=
      htest.tests hskip hc hcompile hholds (hroom link (List.mem_cons_self ..)) hvalue
    rw [List.findIdx_cons, hcondition]
    cases condition with
    | true =>
      refine ⟨n, hrestores, ?_⟩
      simpa [testPlaces, entry] using hpasses
    | false =>
      obtain ⟨o, hrestores', hpasses'⟩ := ih (hrestores.holds hholds)
        (fun other hother => by
          rw [hrestores.depth, hrestores.capacity]
          exact hroom other (List.mem_cons_of_mem _ hother))
        (fun other hother => by
          rw [hrestores.memory]
          exact hbools other (List.mem_cons_of_mem _ hother))
      rw [hrestores.memory] at hpasses'
      exact ⟨o, hrestores.trans hrestores', hpasses.trans hpasses'⟩

theorem Unrolled.start_le (h : Unrolled c root names program otherwise links start stages last finish) :
    start ≤ finish := by
  induction h with
  | nothing => exact Nat.le_refl _
  | otherwise _ _ hspans => exact hspans.start_le
  | link htest hskip hbody hexit hrest ih =>
    have htest' := htest.start_le
    have hbody' := hbody.start_le
    split at hexit <;> omega

/-- A run that has come to the end of a body leaves the chain, by the jump behind the body if there is
one. -/
theorem Unrolled.leaves (h : Unrolled c root names program otherwise links start stages last finish)
    (hafter : validate = true → Check.after m.stack = .ok ()) {stage : Stage} (hstage : stage ∈ stages) :
    Passes program env validate (if stage.stop = finish then [] else [program.place stage.stop])
      (program.place stage.stop) m (program.place finish) m := by
  induction h with
  | nothing | otherwise => cases hstage
  | @link link links start jump stop next last finish stages htest hskip hbody hexit hrest ih =>
    rcases List.mem_cons.mp hstage with rfl | hstage
    · cases hcontinues : continues (chain links otherwise) with
      | true =>
        rw [hcontinues] at hexit
        obtain ⟨rfl, i, hi, hop, hoffset, -, htarget, hlt⟩ := hexit
        have hne : stop ≠ finish := Nat.ne_of_lt hrest.start_le
        rw [if_neg hne, ← hoffset, ← htarget]
        exact passes_jump hi hop (htarget ▸ hlt) hafter
      | false =>
        -- Nothing of the chain follows, so the body ends where the chain does.
        rw [hcontinues] at hexit
        have hlast : stop = finish := by
          cases hrest with
          | nothing => exact hexit.symm
          | otherwise _ hcode => exact absurd (hcode.symm.trans hcontinues) (by decide)
          | link => cases hcontinues
        rw [if_pos hlast, ← hlast]
        exact .here
    · exact ih hstage

/-- Every chain inside a function of a script that compiles has its own code in the program, laid out
link by link. A run that comes to its first instruction, with the locals of the function in the
current frame and with room on the stack, carries out the conditions up to the first true one and no
other instruction. It comes to the body of that link, or to the else if there is none, on the machine
as it was. From the end of every body a run leaves the chain by one jump at most. -/
theorem chain_enters_first_true_branch {c : Compilation} {root : Node} {program : Program}
    (hc : Prepared c) (hcompile : c.compile root = .ok program) (first : Link) (links : List Link)
    (otherwise : Option Node) :
    (∀ span name parameters body, .function span name parameters body ∈ root.topLevel →
      (Part.node body).Contains (.node (first.node (chain links otherwise))) →
      ∃ names t, Site c root names t ∧ t.part = .node (first.node (chain links otherwise))) ∧
    ∀ names t, Site c root names t → t.part = .node (first.node (chain links otherwise)) →
      ∃ code d stages last, t.generate = .ok code d ∧
        t.position + code.length < program.instructions.length ∧
        Unrolled c root names program otherwise (first :: links) t.position stages last
          (t.position + code.length) ∧
        ∀ (env : Environment) (validate : Bool) (m : Machine),
          (∀ locals, m.stack.Holds names locals →
            (∀ link ∈ first :: links, m.stack.depth + link.condition.waiting < m.stack.capacity) →
            (∀ link ∈ first :: links, ∃ condition,
              link.condition.evaluate (m.memory program) locals = .ok (.bool condition)) →
            ∃ k n, k = (first :: links).findIdx (·.holds (m.memory program) locals) ∧ Restores m n ∧
              Passes program env validate (testPlaces program (stages.take (k + 1)))
                (program.place t.position) m (program.place (entry stages last k)) n) ∧
          ((validate = true → Check.after m.stack = .ok ()) → ∀ stage ∈ stages,
            Passes program env validate
              (if stage.stop = t.position + code.length then [] else [program.place stage.stop])
              (program.place stage.stop) m (program.place (t.position + code.length)) m) := by
  refine ⟨fun span name parameters body hfunction hinside =>
    exists_site hc hcompile hfunction hinside, fun names t hsite hpart => ?_⟩
  obtain ⟨code, d, stages, last, hdrafted, hlt, hunrolled⟩ := hsite.unrolled hc hcompile hpart
  refine ⟨code, d, stages, last, hdrafted.generate, hlt, hunrolled, fun env validate m => ⟨?_, ?_⟩⟩
  · intro locals hholds hroom hbools
    obtain ⟨n, hrestores, hpasses⟩ := hunrolled.chooses hc hcompile hholds hroom hbools
    exact ⟨_, n, rfl, hrestores, hpasses⟩
  · intro hafter stage hstage
    exact hunrolled.leaves hafter hstage

/-- Nothing is done for a true first flag, and something is returned otherwise. -/
def forkLinks : Link × Link :=
  (⟨{}, .read {} "first", .block {} []⟩,
    ⟨{}, .unary {} .not (.read {} "second"), .result {} (some (.bool {} true))⟩)

def forkChain : Node :=
  forkLinks.1.node (chain [forkLinks.2] (some (.result {} none)))

def forkScript : Node :=
  .block {} [.function {} "fork" ["first", "second"] (.block {} [forkChain])]

/-- A machine inside a call of the function, with both flags off. -/
def forkMachine : Machine where
  stack := ⟨#[.frame ⟨-1, 2, 0⟩, .bool false, .bool false, .nothing], 3, some 0⟩
  heap := default

def forkTask : Task :=
  ⟨false, 2, .node forkChain, entering {} "fork" ["first", "second"]⟩

theorem compiles_forkScript : ∃ program, ({} : Compilation).compile forkScript = .ok program :=
  exists_program (by cbv)

theorem site_forkScript : Site {} forkScript ["first", "second"] forkTask :=
  site_of_drafted rfl (by cbv) ((Relation.ReflTransGen.single .items).tail .firstStatement)

theorem holds_forkMachine : forkMachine.stack.Holds ["first", "second"] fun _ => .bool false := by
  refine ⟨0, ⟨-1, 2, 0⟩, rfl, rfl, rfl, Nat.lt_succ_self 2, fun k name hname => ?_⟩
  match k, hname with
  | 0, rfl => rfl
  | 1, rfl => rfl

/-- With both flags off the run evaluates both conditions and enters the second body, and the end of
each body leads behind the chain. -/
theorem chain_enters_first_true_branch_sample : ∃ program code d stages last,
    ({} : Compilation).compile forkScript = .ok program ∧ forkTask.generate = .ok code d ∧
    Unrolled {} forkScript ["first", "second"] program (some (.result {} none))
      [forkLinks.1, forkLinks.2] 2 stages last (2 + code.length) ∧
    ∀ env validate,
      (∃ n, Restores forkMachine n ∧ Passes program env validate (testPlaces program (stages.take 2))
        (program.place 2) forkMachine (program.place (entry stages last 1)) n) ∧
      ∀ stage ∈ stages, Passes program env validate
        (if stage.stop = 2 + code.length then [] else [program.place stage.stop])
        (program.place stage.stop) forkMachine (program.place (2 + code.length)) forkMachine := by
  obtain ⟨program, hcompile⟩ := compiles_forkScript
  obtain ⟨code, d, stages, last, hcode, -, hunrolled, hruns⟩ :=
    (chain_enters_first_true_branch .start hcompile forkLinks.1 [forkLinks.2]
      (some (.result {} none))).2 _ forkTask site_forkScript rfl
  refine ⟨program, code, d, stages, last, hcompile, hcode, hunrolled, fun env validate => ⟨?_, ?_⟩⟩
  · obtain ⟨k, n, hk, hrestores, hpasses⟩ := (hruns env validate forkMachine).1 _ holds_forkMachine
      (by simp [forkLinks, forkMachine, Expression.waiting, Stack.capacity])
      (by
        intro link hlink
        simp only [List.mem_cons, List.not_mem_nil, or_false] at hlink
        rcases hlink with rfl | rfl
        · exact ⟨false, rfl⟩
        · exact ⟨true, rfl⟩)
    have hsecond : k = 1 := hk
    rw [hsecond] at hpasses
    exact ⟨n, hrestores, hpasses⟩
  · exact (hruns env validate forkMachine).2 fun _ =>
      after_of_holds holds_forkMachine (by simp [forkMachine, Stack.capacity])

end Compilation

end ScriptMachine
