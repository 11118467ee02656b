/-
Machines that go on until they stop. A step takes a state to the next one
or to a result.

`settle` makes steps, with a bound on their number, and asks `last` for
the result if the bound is used up. Where every step makes a measure
smaller and a state of measure zero stops with the result of `last`, any
bound from the measure on does the same (`settle_eq_of_le`), so that what
it comes to, `outcome`, unfolds without one (`outcome_unfold`).

# Bounds that do not show

A loop of a program that ends needs a bound in its model, which then is in
the way: it has to be large enough for each start, and it changes from one
step to the next. With a measure the bound is chosen once. `Measured` asks
three things of the step, and in return the result obeys one equation
without a bound and one rule for invariants (`outcome_invariant`). Users
of the module reason with these two and never with `settle`.

That a larger bound makes no difference is by induction on the bound, for
all states that it is large enough for.
-/
import Mathlib.Tactic.Common

namespace ProjectsLibs.Lib

variable {σ ρ : Type}

/-- At most `n` steps, and then `last`. -/
def settle (step : σ → σ ⊕ ρ) (last : σ → ρ) : Nat → σ → ρ
  | 0, s => last s
  | n + 1, s =>
      match step s with
      | .inl s' => settle step last n s'
      | .inr r => r

/-- The measure `μ` counts the steps that are left. -/
structure Measured (step : σ → σ ⊕ ρ) (last : σ → ρ)
    (μ : σ → Nat) :
    Prop where
  decreases : ∀ s s', step s = .inl s' → μ s' < μ s
  zero : ∀ s, μ s = 0 → step s = .inr (last s)

variable {step : σ → σ ⊕ ρ} {last : σ → ρ} {μ : σ → Nat}

/-- One step of the iteration, and the rest of it if the step has not ended
it. -/
theorem settle_succ (n : Nat) (s : σ) :
    settle step last (n + 1) s
      = Sum.elim (settle step last n) id (step s) := by
  rw [settle]
  cases step s with
  | inl s' => rfl
  | inr r => rfl

/-- A larger bound makes no difference. -/
theorem settle_eq_of_le (h : Measured step last μ) {n : Nat} {s : σ}
    (hn : μ s ≤ n) : settle step last n s = settle step last (μ s) s := by
  suffices hgen : ∀ k s, μ s ≤ k → ∀ n, μ s ≤ n →
      settle step last n s = settle step last k s from
    hgen (μ s) s (Nat.le_refl _) n hn
  intro k
  induction k with
  | zero =>
      intro s hk n _
      have hzero := h.zero s (Nat.le_zero.1 hk)
      cases n with
      | zero => rfl
      | succ n =>
          rw [settle_succ, hzero]
          rfl
  | succ k ih =>
      intro s hk n hn
      rw [settle_succ]
      cases n with
      | zero =>
          rw [h.zero s (Nat.le_zero.1 hn)]
          rfl
      | succ n =>
          rw [settle_succ]
          cases hst : step s with
          | inl s' =>
              have hlt := h.decreases s s' hst
              exact ih s' (by omega) n (by omega)
          | inr r => rfl

/-- The result of all the steps. -/
def outcome (step : σ → σ ⊕ ρ) (last : σ → ρ) (μ : σ → Nat)
    (s : σ) : ρ :=
  settle step last (μ s) s

/-- One step of it. -/
theorem outcome_unfold (h : Measured step last μ) (s : σ) :
    outcome step last μ s
      = Sum.elim (outcome step last μ) id (step s) := by
  unfold outcome
  rw [← settle_eq_of_le h (Nat.le_succ (μ s)), settle_succ]
  cases hst : step s with
  | inl s' =>
      have hlt := h.decreases s s' hst
      exact settle_eq_of_le h (Nat.le_of_lt hlt)
  | inr r => rfl

/-- What holds of the first state, is kept by the steps and then holds of
the result. -/
theorem outcome_invariant (h : Measured step last μ) {I : σ → Prop}
    {P : ρ → Prop} (hnext : ∀ s s', I s → step s = .inl s' → I s')
    (hstop : ∀ s r, I s → step s = .inr r → P r) {s : σ} (hs : I s) :
    P (outcome step last μ s) := by
  induction hk : μ s using Nat.strongRecOn generalizing s with
  | ind k ih =>
      rw [outcome_unfold h]
      cases hst : step s with
      | inl s' =>
          have hlt := h.decreases s s' hst
          exact ih (μ s') (hk ▸ hlt) (hnext s s' hs hst) rfl
      | inr r => exact hstop s r hs hst

end ProjectsLibs.Lib
