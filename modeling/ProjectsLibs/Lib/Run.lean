/-
Runs of a deterministic labelled transition system: a partial step
function, the states an interleaving passes through, and the two
induction rules every system of this development is closed with.

`step s a = none` means the action is not allowed in `s` (the caller
would break the protocol), not that the code failed: a call that
reports failure is an ordinary step whose result says so.

# The two rules

- `Reachable.invariant`: what holds initially and survives every
  allowed step holds in every reachable state.
- `always_iff_allSteps`: when, from a good state under the invariant, a
  step keeps the property exactly if it meets a side condition, a whole
  run keeps the property exactly if all its steps meet the condition.
  `always_iff_of_good` is the same for a property that is not inductive
  by itself, `allMoves_iff_of_good` for one of the steps.
-/
import Mathlib.Tactic.Common

namespace ProjectsLibs.Lib

variable {σ α : Type*}

-- ================================================================ runs

/-- Run a list of actions, failing on the first disallowed one. -/
def run (step : σ → α → Option σ) (s : σ) : List α → Option σ
  | [] => some s
  | a :: rest =>
      match step s a with
      | some s' => run step s' rest
      | none => none

/-- The states reachable from an initial state through steps that meet
the side condition `ok`. -/
inductive Reachable (init : σ → Prop) (step : σ → α → Option σ)
    (ok : σ → α → Prop) : σ → Prop
  | init {s : σ} : init s → Reachable init step ok s
  | step {s s' : σ} (a : α) :
      Reachable init step ok s → ok s a → step s a = some s' →
      Reachable init step ok s'

/-- No side condition. -/
def anyStep (_ : σ) (_ : α) : Prop := True

variable {init : σ → Prop} {step : σ → α → Option σ} {ok : σ →
  α → Prop}

/-- The invariant rule. -/
theorem Reachable.invariant {I : σ → Prop}
    (hinit : ∀ s, init s → I s)
    (hstep : ∀ s a s', I s → ok s a → step s a = some s' → I s')
    {s : σ} (hs : Reachable init step ok s) : I s := by
  induction hs with
  | init h => exact hinit _ h
  | step a _ hok hst ih => exact hstep _ a _ ih hok hst

-- ================================================== whole-run properties

/-- `P` holds in every state the run passes through, the first
included. -/
def Always (step : σ → α → Option σ) (P : σ → Prop) :
    σ → List α → Prop
  | s, [] => P s
  | s, a :: rest => P s ∧ ∀ s', step s a = some s' → Always step P s' rest

/-- Every step of the run meets the condition `ok` in the state it is
taken from. -/
def AllSteps (step : σ → α → Option σ) (ok : σ → α → Prop) :
    σ → List α → Prop
  | _, [] => True
  | s, a :: rest =>
      ok s a ∧ ∀ s', step s a = some s' → AllSteps step ok s' rest

instance decidableAllSteps {ok : σ → α → Prop}
    [∀ s a, Decidable (ok s a)] :
    ∀ s acts, Decidable (AllSteps step ok s acts)
  | _, [] => isTrue trivial
  | s, a :: rest =>
      match h : step s a with
      | none => decidable_of_iff (ok s a)
          ⟨fun hok => ⟨hok, fun t ht => by rw [h] at ht; cases ht⟩,
            fun hall => hall.1⟩
      | some t =>
          have : Decidable (AllSteps step ok t rest) :=
            decidableAllSteps t rest
          decidable_of_iff (ok s a ∧ AllSteps step ok t rest)
            ⟨fun hand => ⟨hand.1, fun t' ht => by
                rw [h] at ht
                cases ht
                exact hand.2⟩,
              fun hall => ⟨hall.1, hall.2 t h⟩⟩

/-- A successful run from a reachable state, all of whose steps meet the
side condition, ends in a reachable state. -/
theorem Reachable.run_allSteps {s s' : σ} {acts : List α}
    (hs : Reachable init step ok s)
    (hrun : Lib.run step s acts = some s')
    (hall : AllSteps step ok s acts) : Reachable init step ok s' := by
  induction acts generalizing s with
  | nil =>
      simp only [Lib.run, Option.some.injEq] at hrun
      exact hrun ▸ hs
  | cons a rest ih =>
      simp only [Lib.run] at hrun
      cases hst : step s a with
      | none => rw [hst] at hrun; cases hrun
      | some t =>
          rw [hst] at hrun
          exact ih (Reachable.step a hs hall.1 hst) hrun (hall.2 t hst)

/-- Actions that meet the side condition in every state. -/
theorem allSteps_of_forall {s : σ} {acts : List α}
    (h : ∀ a ∈ acts, ∀ t, ok t a) : AllSteps step ok s acts := by
  induction acts generalizing s with
  | nil => trivial
  | cons a rest ih =>
      refine ⟨h a (List.mem_cons_self ..) s, fun _ _ => ih ?_⟩
      exact fun b hb => h b (List.mem_cons_of_mem _ hb)

/-- A successful run from a reachable state ends in a reachable
state. -/
theorem Reachable.run {s s' : σ} {acts : List α}
    (hs : Reachable init step anyStep s)
    (hrun : Lib.run step s acts = some s') :
    Reachable init step anyStep s' :=
  hs.run_allSteps hrun (allSteps_of_forall fun _ _ _ => trivial)

/-- The exact-condition rule: if from a good state a step keeps `P`
exactly when it meets `ok`, then a run keeps `P` throughout exactly
when all its steps meet `ok`. -/
theorem always_iff_allSteps {I P : σ → Prop}
    (hpres : ∀ s a s', I s → step s a = some s' → I s')
    (hexact : ∀ s a s', I s → P s → step s a = some s' →
      (P s' ↔ ok s a))
    {s s' : σ} {acts : List α} (hinv : I s) (hp : P s)
    (hrun : run step s acts = some s') :
    Always step P s acts ↔ AllSteps step ok s acts := by
  induction acts generalizing s with
  | nil => exact ⟨fun _ => trivial, fun _ => hp⟩
  | cons a rest ih =>
      simp only [run] at hrun
      cases hst : step s a with
      | none => rw [hst] at hrun; cases hrun
      | some t =>
          rw [hst] at hrun
          have hinv' := hpres s a t hinv hst
          have hex := hexact s a t hinv hp hst
          simp only [Always, AllSteps, hst, Option.some.injEq,
            forall_eq']
          constructor
          · rintro ⟨-, halw⟩
            have hpt : P t := by
              cases rest with
              | nil => exact halw
              | cons b rest => exact halw.1
            exact ⟨hex.1 hpt, (ih hinv' hpt hrun).1 halw⟩
          · rintro ⟨hok, hall⟩
            have hpt : P t := hex.2 hok
            exact ⟨hp, (ih hinv' hpt hrun).2 hall⟩

/-- The exact-condition rule with an invariant `J` of good states: if a
step that meets `ok` keeps `J`, and one that does not leads to a state
without `P`, then a run from a good state keeps `P` throughout exactly
when all its steps meet `ok`. -/
theorem always_iff_of_good {J P : σ → Prop} (hJP : ∀ s, J s → P s)
    (hgood : ∀ s a s', J s → ok s a → step s a = some s' → J s')
    (hbad : ∀ s a s', J s → ¬ok s a → step s a = some s' → ¬P s')
    {s s' : σ} {acts : List α} (hs : J s)
    (hrun : run step s acts = some s') :
    Always step P s acts ↔ AllSteps step ok s acts := by
  induction acts generalizing s with
  | nil => exact ⟨fun _ => trivial, fun _ => hJP s hs⟩
  | cons a rest ih =>
      simp only [run] at hrun
      cases hst : step s a with
      | none => rw [hst] at hrun; cases hrun
      | some t =>
          rw [hst] at hrun
          simp only [Always, AllSteps, hst, Option.some.injEq,
            forall_eq']
          constructor
          · rintro ⟨-, halw⟩
            have hpt : P t := by
              cases rest with
              | nil => exact halw
              | cons b rest => exact halw.1
            have hok : ok s a := by
              by_contra hnot
              exact hbad s a t hs hnot hst hpt
            exact ⟨hok, (ih (hgood s a t hs hok hst) hrun).1 halw⟩
          · rintro ⟨hok, hall⟩
            exact ⟨hJP s hs, (ih (hgood s a t hs hok hst) hrun).2 hall⟩

/-- Every step of the run is as `Q` says of the states before and after
it. -/
def AllMoves (step : σ → α → Option σ) (Q : σ → α → σ → Prop) :
    σ → List α → Prop
  | _, [] => True
  | s, a :: rest =>
      ∀ s', step s a = some s' → Q s a s' ∧ AllMoves step Q s' rest

/-- The exact-condition rule for a property of the steps. -/
theorem allMoves_iff_of_good {J : σ → Prop} {Q : σ → α → σ → Prop}
    (hgood : ∀ s a s', J s → ok s a → step s a = some s' →
      J s' ∧ Q s a s')
    (hbad : ∀ s a s', J s → ¬ok s a → step s a = some s' → ¬Q s a s')
    {s s' : σ} {acts : List α} (hs : J s)
    (hrun : run step s acts = some s') :
    AllMoves step Q s acts ↔ AllSteps step ok s acts := by
  induction acts generalizing s with
  | nil => exact ⟨fun _ => trivial, fun _ => trivial⟩
  | cons a rest ih =>
      simp only [run] at hrun
      cases hst : step s a with
      | none => rw [hst] at hrun; cases hrun
      | some t =>
          rw [hst] at hrun
          simp only [AllMoves, AllSteps, hst, Option.some.injEq,
            forall_eq']
          constructor
          · rintro ⟨hq, hmoves⟩
            have hok : ok s a := by
              by_contra hnot
              exact hbad s a t hs hnot hst hq
            exact ⟨hok, (ih (hgood s a t hs hok hst).1 hrun).1 hmoves⟩
          · rintro ⟨hok, hall⟩
            have ⟨ht, hq⟩ := hgood s a t hs hok hst
            exact ⟨hq, (ih ht hrun).2 hall⟩

end ProjectsLibs.Lib
