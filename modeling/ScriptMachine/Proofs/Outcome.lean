import Mathlib

/-!
# Taking actions apart

Stacks, heaps, machines and compilations all work through actions that keep their state when they
fail. A chain of actions ends well exactly when every link does, and ends with the first error
otherwise. Proofs peel actions apart with these equivalences and never unfold the monad.
-/

namespace ScriptMachine.Outcome

variable {ε σ α β : Type}

theorem bind_eq_ok {x : EStateM ε σ α} {f : α → EStateM ε σ β} {s t : σ} {b : β} :
    (x >>= f) s = .ok b t ↔ ∃ a u, x s = .ok a u ∧ f a u = .ok b t := by
  show EStateM.bind x f s = .ok b t ↔ _
  unfold EStateM.bind
  cases hx : x s with
  | ok a u => simp
  | error e u => simp

theorem bind_eq_error {x : EStateM ε σ α} {f : α → EStateM ε σ β} {s t : σ} {e : ε} :
    (x >>= f) s = .error e t ↔ x s = .error e t ∨ ∃ a u, x s = .ok a u ∧ f a u = .error e t := by
  show EStateM.bind x f s = .error e t ↔ _
  unfold EStateM.bind
  cases hx : x s with
  | ok a u => simp
  | error e u => simp

theorem bind_of_ok {x : EStateM ε σ α} {f : α → EStateM ε σ β} {s t : σ} {a : α} (h : x s = .ok a t) :
    (x >>= f) s = f a t := by
  show EStateM.bind x f s = f a t
  simp only [EStateM.bind, h]

theorem bind_of_error {x : EStateM ε σ α} {f : α → EStateM ε σ β} {s t : σ} {e : ε}
    (h : x s = .error e t) : (x >>= f) s = .error e t := by
  show EStateM.bind x f s = .error e t
  simp only [EStateM.bind, h]

theorem pure_eq_ok {a b : α} {s t : σ} :
    (pure a : EStateM ε σ α) s = .ok b t ↔ a = b ∧ s = t := by
  show EStateM.Result.ok a s = .ok b t ↔ _
  simp

theorem throw_ne_ok {e : ε} {a : α} {s t : σ} : (throw e : EStateM ε σ α) s ≠ .ok a t := by
  show EStateM.Result.error e s ≠ .ok a t
  simp

theorem throw_eq_error {e d : ε} {s t : σ} :
    (throw e : EStateM ε σ α) s = .error d t ↔ e = d ∧ s = t := by
  show EStateM.Result.error e s = .error d t ↔ _
  simp

/-- A guard in front of the rest of a chain. -/
theorem guard_eq_ok {p : Prop} [Decidable p] {e : ε} {f : α → EStateM ε σ β} {x : EStateM ε σ β}
    {s t : σ} {b : β} :
    (if p then throw e >>= f else x) s = .ok b t ↔ ¬p ∧ x s = .ok b t := by
  by_cases hp : p
  · simp [hp, bind_eq_ok, throw_ne_ok]
  · simp [hp]

theorem get_eq_ok {s t u : σ} : (get : EStateM ε σ σ) s = .ok t u ↔ s = t ∧ s = u := by
  show EStateM.Result.ok s s = .ok t u ↔ _
  simp

theorem modify_eq_ok {f : σ → σ} {a : PUnit} {s t : σ} :
    (modify f : EStateM ε σ PUnit) s = .ok a t ↔ f s = t := by
  show EStateM.Result.ok PUnit.unit (f s) = .ok a t ↔ _
  simp

/-! ### What an action ensures -/

/-- From a state that meets a condition, the action ends well with one outcome or fails with another. -/
def Ensures (pre : σ → Prop) (action : EStateM ε σ α) (post : α → σ → Prop) (fails : ε → Prop) : Prop :=
  ∀ s, pre s →
    match action s with
    | .ok a t => post a t
    | .error e _ => fails e

variable {pre : σ → Prop} {fails : ε → Prop}

theorem Ensures.bind {x : EStateM ε σ α} {f : α → EStateM ε σ β} {mid : α → σ → Prop}
    {post : β → σ → Prop} (hx : Ensures pre x mid fails) (hf : ∀ a, Ensures (mid a) (f a) post fails) :
    Ensures pre (x >>= f) post fails := by
  intro s hs
  have hfirst := hx s hs
  show match EStateM.bind x f s with
    | .ok a t => post a t
    | .error e _ => fails e
  unfold EStateM.bind
  cases hrun : x s with
  | ok a t =>
    rw [hrun] at hfirst
    exact hf a t hfirst
  | error e t =>
    rw [hrun] at hfirst
    exact hfirst

theorem ensures_pure {a : α} {post : α → σ → Prop} (h : ∀ s, pre s → post a s) :
    Ensures pre (pure a : EStateM ε σ α) post fails :=
  h

theorem Ensures.weaken {x : EStateM ε σ α} {post post' : α → σ → Prop} (h : Ensures pre x post fails)
    (hpost : ∀ a s, post a s → post' a s) : Ensures pre x post' fails := by
  intro s hs
  have hx := h s hs
  cases hrun : x s with
  | ok a t =>
    rw [hrun] at hx
    exact hpost a t hx
  | error e t =>
    rw [hrun] at hx
    exact hx

theorem Ensures.strengthen {x : EStateM ε σ α} {pre' : σ → Prop} {post : α → σ → Prop}
    (h : Ensures pre x post fails) (hpre : ∀ s, pre' s → pre s) : Ensures pre' x post fails :=
  fun s hs => h s (hpre s hs)

end ScriptMachine.Outcome
