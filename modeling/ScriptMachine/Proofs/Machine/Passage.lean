import Mathlib
import ScriptMachine.Proofs.Machine.Run

/-!
# The places that a run passes

A run is told by the places of the instructions that it carries out. The list of them fixes where the
run comes to and on which machine, whatever the budget is, and its length is the number of cycles that
this takes.
-/

namespace ScriptMachine.Machine

/-- A run that goes on from one place to another carries out the instructions at these places, in this
order. -/
inductive Passes (program : Program) (env : Environment) (validate : Bool) :
    List Nat → Nat → Machine → Nat → Machine → Prop where
  | here {p : Nat} {m : Machine} : Passes program env validate [] p m p m
  | next {places : List Nat} {p q r : Nat} {m n o : Machine}
      (hcycle : cycle program env validate p m = .ok (.goOn q) n)
      (hrest : Passes program env validate places q n r o) :
      Passes program env validate (p :: places) p m r o

variable {program : Program} {env : Environment} {validate : Bool} {places more : List Nat}
  {p q r : Nat} {m n o : Machine}

theorem Passes.single (hcycle : cycle program env validate p m = .ok (.goOn q) n) :
    Passes program env validate [p] p m q n :=
  .next hcycle .here

theorem Passes.trans (h : Passes program env validate places p m q n)
    (h' : Passes program env validate more q n r o) :
    Passes program env validate (places ++ more) p m r o := by
  induction h with
  | here => exact h'
  | next hcycle _ ih => exact .next hcycle (ih h')

theorem Passes.reaches (h : Passes program env validate places p m q n) :
    Reaches program env validate p m q n := by
  induction h with
  | here => exact .here
  | next hcycle _ ih => exact (Reaches.here.next hcycle).trans ih

/-- A run with cycles left goes on from where it has come to. -/
theorem Passes.runFor_eq (h : Passes program env validate places p m q n) (limit rest : Nat) :
    runFor program env validate limit (places.length + rest) p m
      = runFor program env validate limit rest q n := by
  induction h with
  | here => rw [List.length_nil, Nat.zero_add]
  | next hcycle _ ih =>
    rw [List.length_cons, Nat.add_right_comm, runFor_succ, hcycle]
    exact ih

/-- A run can be looked at after any number of its cycles. -/
theorem Passes.split (h : Passes program env validate places p m q n) {count : Nat}
    (hcount : count ≤ places.length) : ∃ front back r o, places = front ++ back ∧ front.length = count ∧
      Passes program env validate front p m r o ∧ Passes program env validate back r o q n := by
  induction h generalizing count with
  | here => exact ⟨[], [], _, _, rfl, (Nat.le_zero.mp hcount).symm, .here, .here⟩
  | @next places p _ _ m _ _ hcycle hrest ih =>
    cases count with
    | zero => exact ⟨[], p :: places, p, m, rfl, rfl, .here, .next hcycle hrest⟩
    | succ count =>
      obtain ⟨front, back, r, o, rfl, rfl, hfront, hback⟩ := ih (Nat.le_of_succ_le_succ hcount)
      exact ⟨p :: front, back, r, o, rfl, rfl, .next hcycle hfront, hback⟩

theorem Reaches.exists_passes (h : Reaches program env validate p m q n) :
    ∃ places, Passes program env validate places p m q n := by
  induction h with
  | here => exact ⟨[], .here⟩
  | next _ hcycle ih =>
    obtain ⟨places, hplaces⟩ := ih
    exact ⟨_, hplaces.trans (.single hcycle)⟩

/-- The places that a run passes in a number of cycles, and what it comes to, if it does not end
before. -/
def follow (program : Program) (env : Environment) (validate : Bool) :
    (count : Nat) → Nat → Machine → Option (List Nat × Nat × Machine)
  | 0, p, m => some ([], p, m)
  | count + 1, p, m =>
    match cycle program env validate p m with
    | .ok (.goOn q) n => (follow program env validate count q n).map fun (places, r, o) => (p :: places, r, o)
    | _ => none

theorem passes_of_follow (count : Nat) (h : follow program env validate count p m = some (places, q, n)) :
    Passes program env validate places p m q n := by
  induction count generalizing p m places with
  | zero =>
    cases h
    exact .here
  | succ count ih =>
    rw [follow] at h
    cases hcycle : cycle program env validate p m with
    | error e o => simp [hcycle] at h
    | ok decision o =>
      cases decision with
      | finished value => simp [hcycle] at h
      | goOn next =>
        simp only [hcycle, Option.map_eq_some_iff] at h
        obtain ⟨⟨rest, r, final⟩, hrest, heq⟩ := h
        cases heq
        exact .next hcycle (ih hrest)

/-- Where a run is, and on which machine, at the start and after each of a number of cycles. -/
def trace (program : Program) (env : Environment) (validate : Bool) :
    (count : Nat) → Nat → Machine → List (Nat × Machine)
  | 0, p, m => [(p, m)]
  | count + 1, p, m =>
    match cycle program env validate p m with
    | .ok (.goOn q) n => (p, m) :: trace program env validate count q n
    | _ => [(p, m)]

theorem Passes.mem_trace (h : Passes program env validate places p m q n) (count : Nat)
    (hcount : places.length ≤ count) : (q, n) ∈ trace program env validate count p m := by
  induction h generalizing count with
  | @here p m =>
    cases count with
    | zero => exact List.mem_singleton_self _
    | succ count =>
      rw [trace]
      split
      · exact List.mem_cons_self
      · exact List.mem_singleton_self _
  | next hcycle _ ih =>
    obtain ⟨count, rfl⟩ : ∃ left, count = left + 1 := ⟨count - 1, by simp at hcount; omega⟩
    rw [trace, hcycle]
    exact List.mem_cons_of_mem _ (ih count (Nat.le_of_succ_le_succ hcount))

/-- A run that ends within some cycles passes fewer places than that. -/
theorem Passes.length_lt (h : Passes program env validate places p m q n) {count : Nat}
    (hend : follow program env validate count p m = none) : places.length < count := by
  induction h generalizing count with
  | here =>
    cases count with
    | zero => cases hend
    | succ count => exact Nat.succ_pos _
  | next hcycle _ ih =>
    cases count with
    | zero => cases hend
    | succ count =>
      rw [follow, hcycle] at hend
      exact Nat.succ_lt_succ (ih (Option.map_eq_none_iff.mp hend))

/-- All that a run which ends comes to is in its trace. -/
theorem Reaches.mem_trace (h : Reaches program env validate p m q n) (count : Nat)
    (hend : follow program env validate count p m = none) :
    (q, n) ∈ trace program env validate count p m := by
  obtain ⟨places, hplaces⟩ := h.exists_passes
  exact hplaces.mem_trace count (Nat.le_of_lt (hplaces.length_lt hend))

end ScriptMachine.Machine
