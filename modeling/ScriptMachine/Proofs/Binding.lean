import Mathlib
import ScriptMachine.Proofs.Activation
import ScriptMachine.Proofs.Machine.Intact

/-!
# Natives for imports

Binding a program to a registry gives every import the native of its name, and fails if one of them
takes another number of arguments. An environment that is handed to a run is asked once more whether it
is ready for the program, and this second look goes by the names alone: an environment that was bound
to one program is ready for every program that imports the same names in the same order, whatever the
arities. A call of a native goes by the arity of the native, so it takes from the stack what the program
that was bound says, and not what the program that runs says.
-/

namespace ScriptMachine

namespace Environment

open Outcome

variable {registry : Registry} {program bound : Program} {env : Environment}

/-- The native is what the registry has for an import. -/
structure Serves (registry : Registry) (entry : Import) (native : Native) : Prop where
  found : registry.find? entry.name = some native
  arity : native.arity = entry.arity

theorem Serves.name {entry : Import} {native : Native} (h : Serves registry entry native) :
    native.name = entry.name := by
  simpa using List.find?_some h.found

theorem bindImport_eq_ok {entry : Import} {native : Native} :
    bindImport registry entry = .ok native ↔ Serves registry entry native := by
  unfold bindImport
  cases hfind : registry.find? entry.name with
  | none =>
    simp only [reduceCtorEq, false_iff]
    intro h
    rw [h.found] at hfind
    cases hfind
  | some found =>
    by_cases harity : found.arity = entry.arity
    · simp only [harity, if_true, Except.ok.injEq]
      constructor
      · rintro rfl
        exact ⟨hfind, harity⟩
      · intro h
        rw [h.found] at hfind
        exact (Option.some.inj hfind).symm
    · simp only [harity, if_false, reduceCtorEq, false_iff]
      intro h
      rw [h.found] at hfind
      cases hfind
      exact harity h.arity

theorem problem?_eq_none {entry : Import} :
    problem? registry entry = none ↔ ∃ native, Serves registry entry native := by
  unfold problem?
  cases hbind : bindImport registry entry with
  | ok native => simpa using ⟨native, bindImport_eq_ok.mp hbind⟩
  | error problem =>
    simp only [reduceCtorEq, false_iff, not_exists]
    intro native hserves
    rw [bindImport_eq_ok.mpr hserves] at hbind
    cases hbind

theorem filterMap_bindImport {entries : List Import} {natives : List Native} :
    List.Forall₂ (Serves registry) entries natives ↔
      entries.filterMap (problem? registry) = [] ∧
        entries.filterMap (fun entry => (bindImport registry entry).toOption) = natives := by
  induction entries generalizing natives with
  | nil => simp [eq_comm]
  | cons entry rest ih =>
    rw [List.forall₂_cons_left_iff]
    cases hbind : bindImport registry entry with
    | ok native =>
      have hserves := bindImport_eq_ok.mp hbind
      have hproblem : problem? registry entry = none := problem?_eq_none.mpr ⟨native, hserves⟩
      rw [List.filterMap_cons_none hproblem, List.filterMap_cons_some (b := native) (by rw [hbind]; rfl)]
      constructor
      · rintro ⟨other, others, hother, hrest, rfl⟩
        rw [bindImport_eq_ok.mpr hother] at hbind
        cases hbind
        obtain ⟨hproblems, rfl⟩ := ih.mp hrest
        exact ⟨hproblems, rfl⟩
      · rintro ⟨hproblems, rfl⟩
        exact ⟨native, _, hserves, ih.mpr ⟨hproblems, rfl⟩, rfl⟩
    | error problem =>
      have hproblem : problem? registry entry = some problem := by rw [problem?, hbind]
      rw [List.filterMap_cons_some hproblem]
      simp only [reduceCtorEq, false_and, iff_false, not_exists, not_and]
      intro native _ hserves
      rw [bindImport_eq_ok.mpr hserves] at hbind
      cases hbind

/-- Binding gives every import its native, in the order of the imports. -/
theorem bind_eq_ok : bind registry program = .ok env ↔
    List.Forall₂ (Serves registry) program.imports env.natives.toList := by
  rw [filterMap_bindImport, bind]
  cases hproblems : program.imports.filterMap (problem? registry) with
  | nil =>
    simp only [Except.ok.injEq, true_and]
    constructor
    · rintro rfl
      rfl
    · intro h
      rw [h]
  | cons problem rest => simp

theorem bind_eq_error {e : BindError} : bind registry program = .error e ↔
    e.problems ≠ [] ∧ e.problems = program.imports.filterMap (problem? registry) := by
  obtain ⟨problems⟩ := e
  rw [bind]
  cases hproblems : program.imports.filterMap (problem? registry) with
  | nil => simp
  | cons problem rest =>
    simp only [Except.error.injEq, BindError.mk.injEq, ne_eq]
    constructor
    · rintro rfl
      simp
    · exact fun h => h.2.symm

/-- The import that a native can stand for. -/
def asImport (native : Native) : Import :=
  ⟨native.name, native.arity⟩

theorem map_asImport {entries : List Import} {natives : List Native}
    (h : List.Forall₂ (Serves registry) entries natives) : natives.map asImport = entries := by
  induction h with
  | nil => rfl
  | cons hfirst _ ih => rw [List.map_cons, ih, asImport, hfirst.name, hfirst.arity]

/-- Every import of the program has a native of its name that takes as many arguments. -/
def Fits (env : Environment) (program : Program) : Prop :=
  ∀ index entry, program.imports[index]? = some entry →
    ∃ native, env.get? index = some native ∧ native.name = entry.name ∧ native.arity = entry.arity

theorem getElem?_map_toList {α : Type} (f : Native → α) (index : Nat) :
    (env.natives.toList.map f)[index]? = (env.get? index).map f := by
  rw [List.getElem?_map, Array.getElem?_toList, get?]

/-- An environment that is ready fits exactly the import table that its natives make. -/
theorem fits_iff_of_isReady (hready : env.isReady program = true) :
    env.Fits program ↔ program.imports = env.natives.toList.map asImport := by
  have hlength : env.natives.toList.length = program.imports.length := by
    simpa using congrArg List.length (beq_iff_eq.mp hready)
  constructor
  · intro hfits
    apply List.ext_getElem?
    intro index
    rw [getElem?_map_toList]
    cases hentry : program.imports[index]? with
    | some entry =>
      obtain ⟨native, hnative, hname, harity⟩ := hfits index entry hentry
      rw [hnative, Option.map_some, asImport, hname, harity]
    | none =>
      have hnone : env.get? index = none := by
        rw [List.getElem?_eq_none_iff, ← hlength] at hentry
        simpa [get?] using hentry
      rw [hnone, Option.map_none]
  · intro heq index entry hentry
    rw [heq, getElem?_map_toList] at hentry
    obtain ⟨native, hnative, rfl⟩ := Option.map_eq_some_iff.mp hentry
    exact ⟨native, hnative, rfl, rfl⟩

end Environment

namespace Stack

theorem top_filled (below values spare : List Value) (frame : Option Nat) :
    (filled (below ++ values) spare frame).top values.length = .ok values := by
  simp [top, filled, Slots.slice]

end Stack

namespace Machine

open Outcome

variable {program : Program} {env : Environment} {m : Machine} {i : Instruction}

/-- The instruction hands the topmost `count` values to a native in their order. If that answers, they
are replaced by its result, or by nothing for an action; if it fails, they stay. -/
structure HandsOver (program : Program) (env : Environment) (i : Instruction) (m : Machine) (count : Nat) :
    Prop where
  answered : ∀ flow m', step program env i m = .ok flow m' → ∃ native below arguments value,
    env.get? i.first.toNat = some native ∧ m.stack.live = below ++ arguments ∧ arguments.length = count ∧
    (native.respond ⟨arguments, m.memory program⟩).result = .ok value ∧
    m'.stack.live = below ++ if native.kind = .function then [value] else []
  refused : ∀ name message m', step program env i m = .error (.native name message) m' →
    ∃ native below arguments, env.get? i.first.toNat = some native ∧ m.stack.live = below ++ arguments ∧
      arguments.length = count ∧
      (native.respond ⟨arguments, m.memory program⟩).result = .error message ∧ m'.stack = m.stack

def settleAnswer (native : Native) : Except String Value → Action Flow
  | .error message => throw (.native native.name message)
  | .ok value => do
    drop native.arity.toNat
    if native.kind = .function then push value
    return .next

theorem callNative_eq {native : Native} {index : UInt32} {arguments : List Value}
    (hnative : env.get? index.toNat = some native)
    (htop : m.stack.top native.arity.toNat = .ok arguments) :
    callNative program env index m
      = settleAnswer native (native.respond ⟨arguments, m.memory program⟩).result
          ⟨m.stack, m.heap, m.events ++ (native.respond ⟨arguments, m.memory program⟩).notes.map Event.noted⟩ := by
  have hread : readStack (·.top native.arity.toNat) m = .ok arguments m := by rw [readStack, htop]
  unfold callNative
  rw [hnative]
  dsimp only
  rw [bind_of_ok hread, bind_of_ok (get_eq_ok.mpr ⟨rfl, rfl⟩), bind_of_ok (show emit _ m = .ok () _ from rfl)]
  cases (native.respond ⟨arguments, m.memory program⟩).result <;> rfl

/-- The topmost values are dropped, and what the native answered is pushed unless it is an action. -/
theorem live_of_settleAnswer {native : Native} {value : Value} {flow : Flow} {m' : Machine}
    {below arguments spare : List Value} {frame : Option Nat}
    (h : settleAnswer native (.ok value) m = .ok flow m')
    (hstack : m.stack = .filled (below ++ arguments) spare frame)
    (hlength : arguments.length = native.arity.toNat) :
    m'.stack.live = below ++ if native.kind = .function then [value] else [] := by
  obtain ⟨stack, heap, events⟩ := m
  change stack = _ at hstack
  subst hstack
  have hdrop : drop native.arity.toNat ⟨.filled (below ++ arguments) spare frame, heap, events⟩
      = .ok () ⟨.filled below (arguments ++ spare) frame, heap, events⟩ := by
    rw [drop, onStack, ← hlength, Stack.drop_filled]
  rw [settleAnswer, bind_of_ok hdrop] at h
  by_cases hkind : native.kind = .function
  · rw [if_pos hkind] at h ⊢
    obtain ⟨_, n, hpush, h⟩ := bind_eq_ok.mp h
    obtain ⟨-, rfl⟩ := pure_eq_ok.mp h
    rw [push, onStack] at hpush
    cases hroom : arguments ++ spare with
    | nil =>
      rw [hroom, Stack.push_filled_nil] at hpush
      cases hpush
    | cons old rest =>
      rw [hroom, Stack.push_filled_cons] at hpush
      cases hpush
      exact Stack.live_filled _ _ _
  · rw [if_neg hkind] at h ⊢
    obtain ⟨-, rfl⟩ := pure_eq_ok.mp h
    rw [List.append_nil]
    exact Stack.live_filled _ _ _

theorem ofStack_ne_native (e : StackError) (name message : String) :
    Fault.ofStack e ≠ .native name message := by
  cases e <;> simp [Fault.ofStack]

theorem onStack_ne_native {α : Type} {action : Stack.Action α} {name message : String} {m' : Machine} :
    onStack action m ≠ .error (.native name message) m' := by
  obtain ⟨stack, heap, events⟩ := m
  rw [onStack]
  cases action stack with
  | ok a s => simp
  | error e s => simp [ofStack_ne_native]

theorem settleAnswer_ne_native {native : Native} {value : Value} {name message : String} {m' : Machine} :
    settleAnswer native (.ok value) m ≠ .error (.native name message) m' := by
  rw [settleAnswer]
  intro h
  rcases bind_eq_error.mp h with h | ⟨_, n, -, h⟩
  · exact onStack_ne_native h
  · split at h
    · rcases bind_eq_error.mp h with h | ⟨_, n, -, h⟩
      · exact onStack_ne_native h
      · cases h
    · cases h

theorem callNative_of_lt {native : Native} {index : UInt32} (hnative : env.get? index.toNat = some native)
    (hshort : m.stack.depth < native.arity.toNat) :
    callNative program env index m = .error (.ofStack .underflow) m := by
  have hread : readStack (·.top native.arity.toNat) m = .error (.ofStack .underflow) m := by
    rw [readStack, Stack.top, if_neg (Nat.not_le.mpr hshort)]
  unfold callNative
  rw [hnative]
  exact bind_of_error hread

/-- A call of a native hands over as many values as the native takes. -/
theorem handsOver_of_get? {native : Native} (hop : i.op = .callNative)
    (hnative : env.get? i.first.toNat = some native) (hdepth : m.stack.depth ≤ m.stack.capacity) :
    HandsOver program env i m native.arity.toNat := by
  have hstep : step program env i m = callNative program env i.first m := by rw [step, hop]
  obtain ⟨spare, hstack⟩ := Stack.exists_filled hdepth
  rcases Nat.lt_or_ge m.stack.depth native.arity.toNat with hshort | henough
  · rw [callNative_of_lt hnative hshort] at hstep
    constructor
    · intro flow m' h
      rw [hstep] at h
      cases h
    · intro name message m' h
      rw [hstep] at h
      cases h
  · have hlive : native.arity.toNat ≤ m.stack.live.length := by
      rw [hstack] at henough ⊢
      simpa using henough
    obtain ⟨below, arguments, hlive, hlength⟩ := Stack.exists_top m.stack.live hlive
    rw [hlive] at hstack
    have htop : m.stack.top native.arity.toNat = .ok arguments := by
      rw [hstack, ← hlength, Stack.top_filled]
    rw [callNative_eq hnative htop] at hstep
    cases hresult : (native.respond ⟨arguments, m.memory program⟩).result with
    | error reason =>
      rw [hresult] at hstep
      constructor
      · intro flow m' h
        exact absurd (hstep ▸ h) throw_ne_ok
      · intro name message m' h
        obtain ⟨heq, rfl⟩ := throw_eq_error.mp (hstep ▸ h)
        cases heq
        exact ⟨native, below, arguments, hnative, hlive, hlength, hresult, rfl⟩
    | ok value =>
      rw [hresult] at hstep
      constructor
      · intro flow m' h
        rw [hstep] at h
        exact ⟨native, below, arguments, value, hnative, hlive, hlength, hresult,
          live_of_settleAnswer h hstack hlength⟩
      · intro name message m' h
        exact absurd (hstep ▸ h) settleAnswer_ne_native

/-! ### Ready environments -/

/-- An environment that was bound to one program is ready for another one exactly if both import the
same names in the same order. It fits the other program only if the arities agree as well, and every
call of a native that a run of the other program comes to takes as many values as the program that was
bound says. -/
theorem ready_environment_serves_as_bound {registry : Registry} {bound program : Program}
    {env : Environment} (hbind : Environment.bind registry bound = .ok env) :
    (env.isReady program = true ↔ program.imports.map Import.name = bound.imports.map Import.name) ∧
    (env.isReady program = true → (env.Fits program ↔ program.imports = bound.imports)) ∧
    ∀ (settings : Settings) (new : Machine) (past : List HostOperation) (entry : Entry) (validate : Bool)
      (place p : Nat) (m n : Machine) (i : Instruction) (imported : Import),
      create settings = .ok new → entry.enter program (afterAll past new) = .ok place m →
      Reaches program env validate place m p n → fetch program p = .ok i → i.op = .callNative →
      bound.imports[i.first.toNat]? = some imported →
      HandsOver program env i n imported.arity.toNat := by
  have hnatives := Environment.map_asImport (Environment.bind_eq_ok.mp hbind)
  refine ⟨?_, fun hready => ?_, ?_⟩
  · rw [Environment.isReady, beq_iff_eq, ← hnatives, List.map_map, eq_comm]
    rfl
  · rw [Environment.fits_iff_of_isReady hready, hnatives]
  · intro settings new past entry validate place p m n i imported hcreate henter hreaches _ hop himport
    have hintact : n.Intact settings :=
      hreaches.intact ((maintains_enter entry).of_ok ((intact_create hcreate).afterAll past) henter)
    rw [← hnatives, Environment.getElem?_map_toList] at himport
    obtain ⟨native, hnative, rfl⟩ := Option.map_eq_some_iff.mp himport
    refine handsOver_of_get? hop hnative ?_
    rw [hintact.stack.capacity_eq]
    exact hintact.stack.depth_le

/-- A host with one action that takes one argument. -/
def plainLog : Registry :=
  ⟨[⟨"log", 1, .action, fun _ => ⟨.ok .nothing, []⟩⟩]⟩

def twoValueCall : Program where
  code := #[0x13, 0, 0, 0, 0, 0x13, 1, 0, 0, 0, 0x25, 0, 0, 0, 0]
  constants := #[.bool true, .bool false]
  imports := [⟨"log", 2⟩]

theorem ready_environment_serves_as_bound_sample : ∃ env,
    Environment.bind plainLog { imports := [⟨"log", 1⟩] } = .ok env ∧
    env.isReady twoValueCall = true ∧ ¬ env.Fits twoValueCall ∧
    ∀ new p n i, create { memorySize := 8 } = .ok new → Reaches twoValueCall env false 0 new p n →
      fetch twoValueCall p = .ok i → i.op = .callNative → i.first = 0 →
      HandsOver twoValueCall env i n 1 := by
  obtain ⟨env, hbind⟩ : ∃ env, Environment.bind plainLog { imports := [⟨"log", 1⟩] } = .ok env :=
    ⟨_, rfl⟩
  obtain ⟨hready, hfits, hcalls⟩ := @ready_environment_serves_as_bound _ _ twoValueCall _ hbind
  refine ⟨env, hbind, hready.mpr rfl, ?_, ?_⟩
  · rw [hfits (hready.mpr rfl)]
    decide
  · intro new p n i hcreate hreaches hfetch hop hfirst
    have henter : Entry.main.enter twoValueCall (afterAll [] new) = .ok 0 new := by
      cases hcreate
      rfl
    exact hcalls _ new [] .main false 0 p new n i ⟨"log", 1⟩ hcreate henter hreaches hfetch hop
      (by rw [hfirst]; rfl)

/-- The environment is ready for a program that hands over two values, and the call takes one of them. -/
theorem ready_environment_leaves_an_argument : ∃ env new m n i,
    Environment.bind plainLog { imports := [⟨"log", 1⟩] } = .ok env ∧ env.isReady twoValueCall = true ∧
    ¬ env.Fits twoValueCall ∧ create { memorySize := 8 } = .ok new ∧
    Reaches twoValueCall env false 0 new 10 m ∧ fetch twoValueCall 10 = .ok i ∧ i.op = .callNative ∧
    m.stack.live = [.bool true, .bool false] ∧ step twoValueCall env i m = .ok .next n ∧
    n.stack.live = [.bool true] := by
  refine ⟨⟨plainLog.natives.toArray⟩, _, _, _, _, rfl, by decide, ?_, rfl,
    (Reaches.here.next rfl).next rfl, rfl, rfl, rfl, rfl, rfl⟩
  intro hfits
  obtain ⟨native, hnative, -, harity⟩ := hfits 0 ⟨"log", 2⟩ rfl
  cases hnative
  cases harity

end Machine

end ScriptMachine
