import Mathlib
import ScriptMachine.Machine.Run
import ScriptMachine.Proofs.Outcome

/-!
# Runs as sequences of cycles

A run begins where the host enters the program and goes on from cycle to cycle. What ends it is the
fault or the value of one cycle, or the budget.

The natives of a host may have a state of their own and answer the same call differently another time.
For a run this means that every cycle has natives of its own; natives that always answer alike are the
case in which all cycles have the same.
-/

namespace ScriptMachine.Machine

open Outcome

/-- A run that stands at a place comes to another one. -/
inductive Reaches (program : Program) (env : Environment) (validate : Bool) (place : Nat) (m : Machine) :
    Nat → Machine → Prop where
  | here : Reaches program env validate place m place m
  | next {p p' : Nat} {n n' : Machine} (h : Reaches program env validate place m p n)
      (hcycle : cycle program env validate p n = .ok (.goOn p') n') :
      Reaches program env validate place m p' n'

variable {program : Program} {env : Environment} {validate : Bool}

theorem Reaches.trans {p q r : Nat} {m n o : Machine} (hpq : Reaches program env validate p m q n)
    (hqr : Reaches program env validate q n r o) : Reaches program env validate p m r o := by
  induction hqr with
  | here => exact hpq
  | next _ hcycle ih => exact ih.next hcycle

theorem runFor_succ (limit budget place : Nat) (m : Machine) :
    runFor program env validate limit (budget + 1) place m
      = match cycle program env validate place m with
        | .error e n => .error e n
        | .ok (.finished value) n => .ok value n
        | .ok (.goOn next) n => runFor program env validate limit budget next n :=
  rfl

/-! ### Natives that change -/

variable {envs : Nat → Environment}

/-- Runs from a place as `runFor` does, beginning at a time. The natives are those of each cycle's time. -/
def runForWith (program : Program) (envs : Nat → Environment) (validate : Bool) (limit : Nat) :
    (budget : Nat) → (time : Nat) → (place : Nat) → Action Value
  | 0, _, _ => throw (.cycleLimit limit)
  | budget + 1, time, place => fun m =>
    match cycle program (envs time) validate place m with
    | .error e n => .error e n
    | .ok (.finished value) n => .ok value n
    | .ok (.goOn next) n => runForWith program envs validate limit budget (time + 1) next n

theorem runForWith_succ (limit budget time place : Nat) (m : Machine) :
    runForWith program envs validate limit (budget + 1) time place m
      = match cycle program (envs time) validate place m with
        | .error e n => .error e n
        | .ok (.finished value) n => .ok value n
        | .ok (.goOn next) n => runForWith program envs validate limit budget (time + 1) next n :=
  rfl

theorem runForWith_const (program : Program) (env : Environment) (validate : Bool)
    (limit budget time place : Nat) :
    runForWith program (fun _ => env) validate limit budget time place
      = runFor program env validate limit budget place := by
  induction budget generalizing time place with
  | zero => rfl
  | succ budget ih =>
    funext m
    rw [runForWith_succ, runFor_succ]
    cases cycle program env validate place m with
    | error e n => rfl
    | ok outcome n =>
      cases outcome with
      | finished value => rfl
      | goOn next => exact congrFun (ih (time + 1) next) n

/-- Runs a program from a place as `run` does, with the natives of each cycle. -/
def runWith (settings : Settings) (program : Program) (envs : Nat → Environment) (place : Nat) :
    Action Value :=
  if (envs 0).isReady program then
    runForWith program envs settings.validate settings.cycleLimit settings.cycleLimit 0 place
  else throw .envNotReady

theorem runWith_const (settings : Settings) (program : Program) (env : Environment) (place : Nat) :
    runWith settings program (fun _ => env) place = run settings program env place := by
  rw [runWith, run, runForWith_const]

/-- A run that stands at a place comes to another one, after a number of cycles. -/
inductive ReachesAt (program : Program) (envs : Nat → Environment) (validate : Bool) (place : Nat)
    (m : Machine) : (time : Nat) → Nat → Machine → Prop where
  | here : ReachesAt program envs validate place m 0 place m
  | next {time p p' : Nat} {n n' : Machine} (h : ReachesAt program envs validate place m time p n)
      (hcycle : cycle program (envs time) validate p n = .ok (.goOn p') n') :
      ReachesAt program envs validate place m (time + 1) p' n'

theorem ReachesAt.reaches {place time p : Nat} {m n : Machine}
    (h : ReachesAt program (fun _ => env) validate place m time p n) :
    Reaches program env validate place m p n := by
  induction h with
  | here => exact .here
  | next _ hcycle ih => exact ih.next hcycle

theorem Reaches.exists_reachesAt {place p : Nat} {m n : Machine}
    (h : Reaches program env validate place m p n) :
    ∃ time, ReachesAt program (fun _ => env) validate place m time p n := by
  induction h with
  | here => exact ⟨0, .here⟩
  | next _ hcycle ih =>
    obtain ⟨time, htime⟩ := ih
    exact ⟨time + 1, htime.next hcycle⟩

/-- A run fails with the fault of a cycle that it comes to, or for want of cycles. -/
theorem ReachesAt.eq_error {limit budget place time p : Nat} {m n m' : Machine} {e : Fault}
    (hreaches : ReachesAt program envs validate place m time p n)
    (h : runForWith program envs validate limit budget time p n = .error e m') :
    e = .cycleLimit limit ∨ ∃ t q o, ReachesAt program envs validate place m t q o ∧
      cycle program (envs t) validate q o = .error e m' := by
  induction budget generalizing time p n with
  | zero =>
    obtain ⟨rfl, -⟩ := throw_eq_error.mp h
    exact .inl rfl
  | succ budget ih =>
    rw [runForWith_succ] at h
    cases hcycle : cycle program (envs time) validate p n with
    | error d o =>
      rw [hcycle] at h
      cases h
      exact .inr ⟨time, p, n, hreaches, hcycle⟩
    | ok outcome o =>
      rw [hcycle] at h
      cases outcome with
      | finished value => cases h
      | goOn next => exact ih (hreaches.next hcycle) h

theorem runFor_eq_error {limit budget place : Nat} {m m' : Machine} {e : Fault}
    (h : runFor program env validate limit budget place m = .error e m') :
    e = .cycleLimit limit ∨ ∃ p n, Reaches program env validate place m p n ∧
      cycle program env validate p n = .error e m' := by
  rw [← runForWith_const program env validate limit budget 0 place] at h
  rcases ReachesAt.here.eq_error h with hlimit | ⟨_, p, n, hreaches, hcycle⟩
  · exact .inl hlimit
  · exact .inr ⟨p, n, hreaches.reaches, hcycle⟩

/-! ### Entering a program -/

/-- The two ways in which a host enters a program. -/
inductive Entry where
  | main
  | call (name : String) (arguments : List Value)

namespace Entry

def arguments : Entry → List Value
  | .main => []
  | .call _ arguments => arguments

/-- Sets the stack up for the run, and says where it begins. -/
def enter (program : Program) : Entry → Action Nat
  | .main => do
    resetStack
    return 0
  | .call name arguments =>
    match Call.lookup program name with
    | .error e => throw (.call e)
    | .ok found =>
      match (found.withArguments arguments).check with
      | .error e => throw (.call e)
      | .ok () => do
        resetStack
        pushAll (found.withArguments arguments).arguments
        push hostReturn
        return found.address.toNat

/-- The run that the host starts, with the natives of each cycle. -/
def run (settings : Settings) (program : Program) (envs : Nat → Environment) (entry : Entry) :
    Action Value := do
  let place ← entry.enter program
  runWith settings program envs place

/-- With natives that always answer alike, the host executes the program or calls a function of it. -/
theorem run_const (settings : Settings) (program : Program) (env : Environment) (entry : Entry) :
    entry.run settings program (fun _ => env)
      = match entry with
        | .main => execute settings program env
        | .call name arguments => Machine.call settings program env name arguments := by
  cases entry with
  | main => simp [run, enter, execute, runWith_const]
  | call name arguments =>
    simp only [run, enter, Machine.call, executeCall, runWith_const]
    cases hlookup : Call.lookup program name with
    | error e => rfl
    | ok found =>
      simp only
      cases hcheck : (found.withArguments arguments).check with
      | error e => rfl
      | ok u => simp [Call.withArguments]

end Entry

end ScriptMachine.Machine
