import Mathlib
import ScriptMachine.Proofs.Machine.Passage

/-!
# The cycle budget

A run that ends on its own fetches a certain number of instructions. A budget of that many cycles or
more changes nothing, and any smaller one stops the run on its way, after as many instructions as the
budget allows. The proof separates a run into the cycles that go on and the one that does not, if the
budget lets it come that far.
-/

namespace ScriptMachine.Machine

/-- The number of instructions that a run with a budget fetches, with the one that ends it. -/
def fetchedFor (program : Program) (env : Environment) (validate : Bool) :
    (budget place : Nat) → Machine → Nat
  | 0, _, _ => 0
  | budget + 1, place, m =>
    match cycle program env validate place m with
    | .ok (.goOn next) n => fetchedFor program env validate budget next n + 1
    | _ => 1

/-- The number of instructions that a run fetches. Without its natives it does not begin. -/
def fetched (settings : Settings) (program : Program) (env : Environment) (place : Nat) (m : Machine) :
    Nat :=
  if env.isReady program then
    fetchedFor program env settings.validate settings.cycleLimit place m
  else 0

/-- What a run ends with if one of its cycles does not go on. -/
def ending : EStateM.Result Fault Machine Cycle → Option (EStateM.Result Fault Machine Value)
  | .ok (.goOn _) _ => none
  | .ok (.finished value) n => some (.ok value n)
  | .error e n => some (.error e n)

variable {program : Program} {env : Environment} {validate : Bool} {places : List Nat}
  {budget place p : Nat} {m n : Machine} {result : EStateM.Result Fault Machine Value}

theorem goesOn_of_ending {outcome : EStateM.Result Fault Machine Cycle} (h : ending outcome = none) :
    ∃ next n, outcome = .ok (.goOn next) n := by
  cases outcome with
  | error e n => cases h
  | ok decision n =>
    cases decision with
    | finished value => cases h
    | goOn next => exact ⟨next, n, rfl⟩

theorem runFor_of_ending (h : ending (cycle program env validate place m) = some result)
    (limit budget : Nat) :
    runFor program env validate limit (budget + 1) place m = result ∧
      fetchedFor program env validate (budget + 1) place m = 1 := by
  rw [runFor_succ, fetchedFor]
  cases hcycle : cycle program env validate place m with
  | error e n =>
    rw [hcycle] at h
    exact ⟨Option.some.inj h, rfl⟩
  | ok decision n =>
    rw [hcycle] at h
    cases decision with
    | goOn next => cases h
    | finished value => exact ⟨Option.some.inj h, rfl⟩

theorem Passes.fetchedFor_eq (h : Passes program env validate places place m p n) (rest : Nat) :
    fetchedFor program env validate (places.length + rest) place m
      = places.length + fetchedFor program env validate rest p n := by
  induction h with
  | here => rw [List.length_nil, Nat.zero_add, Nat.zero_add]
  | next hcycle _ ih =>
    rw [List.length_cons, Nat.add_right_comm, fetchedFor, hcycle]
    simp only [ih]
    omega

/-- A run with any larger budget ends in the same way and with the same instruction. -/
theorem Passes.ends (h : Passes program env validate places place m p n)
    (hending : ending (cycle program env validate p n) = some result) (limit : Nat)
    (hbudget : places.length < budget) :
    runFor program env validate limit budget place m = result ∧
      fetchedFor program env validate budget place m = places.length + 1 := by
  obtain ⟨rest, rfl⟩ := Nat.exists_eq_add_of_lt hbudget
  obtain ⟨hrun, hfetched⟩ := runFor_of_ending hending limit rest
  rw [Nat.add_assoc, h.runFor_eq, h.fetchedFor_eq]
  exact ⟨hrun, by rw [hfetched]⟩

/-- A run whose budget is used up stops where it has come to. -/
theorem Passes.stops (h : Passes program env validate places place m p n) (limit : Nat) :
    runFor program env validate limit places.length place m = .error (.cycleLimit limit) n ∧
      fetchedFor program env validate places.length place m = places.length := by
  have hrun := h.runFor_eq limit 0
  have hfetched := h.fetchedFor_eq 0
  rw [Nat.add_zero] at hrun hfetched
  exact ⟨hrun.trans rfl, hfetched.trans rfl⟩

/-- A run ends on its own within its budget, or goes on until the budget is used up. -/
theorem exists_passes (program : Program) (env : Environment) (validate : Bool)
    (budget place : Nat) (m : Machine) : ∃ places p n, Passes program env validate places place m p n ∧
      (places.length = budget ∨ places.length < budget ∧
        (ending (cycle program env validate p n)).isSome = true) := by
  induction budget generalizing place m with
  | zero => exact ⟨[], place, m, .here, .inl rfl⟩
  | succ budget ih =>
    cases hending : ending (cycle program env validate place m) with
    | some result => exact ⟨[], place, m, .here, .inr ⟨Nat.succ_pos _, by rw [hending]; rfl⟩⟩
    | none =>
      obtain ⟨next, n, hcycle⟩ := goesOn_of_ending hending
      obtain ⟨places, p, o, hpasses, hend⟩ := ih next n
      refine ⟨place :: places, p, o, .next hcycle hpasses, ?_⟩
      rw [List.length_cons, Nat.succ_lt_succ_iff, Nat.succ_inj]
      exact hend

/-- A run never fetches more instructions than it has cycles. If it does not end for want of cycles,
every budget of at least as many cycles as it fetches instructions gives the same run, and every
smaller budget stops it for want of cycles after exactly that many instructions, on the machine on
which the longer run goes on. -/
theorem cycle_budget_is_a_threshold (settings : Settings) (program : Program) (env : Environment)
    (place : Nat) (m : Machine) :
    fetched settings program env place m ≤ settings.cycleLimit ∧
    ((∀ limit n, run settings program env place m ≠ .error (.cycleLimit limit) n) →
      (∀ limit, fetched settings program env place m ≤ limit →
        run { settings with cycleLimit := limit } program env place m
          = run settings program env place m ∧
        fetched { settings with cycleLimit := limit } program env place m
          = fetched settings program env place m) ∧
      ∀ limit < fetched settings program env place m, ∃ places p n, places.length = limit ∧
        Passes program env settings.validate places place m p n ∧
        run settings program env place m
          = runFor program env settings.validate settings.cycleLimit (settings.cycleLimit - limit) p n ∧
        run { settings with cycleLimit := limit } program env place m = .error (.cycleLimit limit) n ∧
        fetched { settings with cycleLimit := limit } program env place m = limit) := by
  by_cases hready : env.isReady program = true
  · simp only [run, fetched, if_pos hready]
    obtain ⟨places, p, n, hpasses, hused | ⟨hlt, hends⟩⟩ :=
      exists_passes program env settings.validate settings.cycleLimit place m
    · obtain ⟨hrun, hfetched⟩ := hpasses.stops settings.cycleLimit
      rw [hused] at hrun hfetched
      exact ⟨Nat.le_of_eq hfetched, fun hother => absurd hrun (hother _ _)⟩
    · obtain ⟨result, hending⟩ := Option.isSome_iff_exists.mp hends
      obtain ⟨hrun, hfetched⟩ := hpasses.ends hending settings.cycleLimit hlt
      rw [hrun, hfetched]
      refine ⟨hlt, fun _ => ⟨fun limit hlimit => hpasses.ends hending limit hlimit, fun limit hlimit => ?_⟩⟩
      obtain ⟨front, back, q, o, -, rfl, hfront, -⟩ := hpasses.split (Nat.le_of_lt_succ hlimit)
      refine ⟨front, q, o, rfl, hfront, ?_, hfront.stops _⟩
      rw [← hrun, ← hfront.runFor_eq, Nat.add_sub_cancel' (by omega)]
  · simp only [run, fetched, if_neg hready]
    exact ⟨Nat.zero_le _, fun _ =>
      ⟨fun _ _ => ⟨trivial, trivial⟩, fun limit hlimit => absurd hlimit (Nat.not_lt_zero limit)⟩⟩

/-- A jump to the instruction that ends the run. -/
def leapProgram : Program :=
  { code := #[0x16, 5, 0, 0, 0, 0x18, 7, 0, 0, 0] }

/-- Two instructions need two cycles. -/
theorem cycle_budget_is_a_threshold_sample :
    (∀ limit n, run { cycleLimit := 9 } leapProgram {} 0 default ≠ .error (.cycleLimit limit) n) ∧
      fetched { cycleLimit := 9 } leapProgram {} 0 default = 2 ∧
      run { cycleLimit := 2 } leapProgram {} 0 default = .ok (.number (Number.ofInt 7)) default ∧
      ∃ n, run { cycleLimit := 1 } leapProgram {} 0 default = .error (.cycleLimit 1) n := by
  have hrun : run { cycleLimit := 9 } leapProgram {} 0 default
      = .ok (.number (Number.ofInt 7)) default := by
    cbv
  have hfetched : fetched { cycleLimit := 9 } leapProgram {} 0 default = 2 := by cbv
  have hother : ∀ limit n,
      run { cycleLimit := 9 } leapProgram {} 0 default ≠ .error (.cycleLimit limit) n := by
    intro limit n h
    rw [hrun] at h
    cases h
  obtain ⟨hlarger, hsmaller⟩ :=
    (cycle_budget_is_a_threshold { cycleLimit := 9 } leapProgram {} 0 default).2 hother
  rw [hfetched, hrun] at hlarger
  rw [hfetched] at hsmaller
  obtain ⟨_, _, n, -, -, -, hstopped, -⟩ := hsmaller 1 (Nat.lt_succ_self 1)
  exact ⟨hother, hfetched, (hlarger 2 (Nat.le_refl 2)).1, n, hstopped⟩

end ScriptMachine.Machine
