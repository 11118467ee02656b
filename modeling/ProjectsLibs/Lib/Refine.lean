/-
Machines that answer. A call takes a state to a result and to the next
state, or fails; `replay` makes the calls of a list one after the other.

`replay_refines` is the simulation rule: when every call of the machine
succeeds with the result that a total machine over other states gives, and
keeps a relation between the states, every sequence of calls does.

# How it is used

The machine is a program that can fail and the total one is its
specification, so the rule gives three things at once for any sequence of
calls: that nothing fails, that the results are those of the
specification, and that the states are related at the end. A user proves
the step for each kind of call, and the relation is usually an invariant
with a view of the state in it.
-/
import Mathlib.Tactic.Common

namespace ProjectsLibs.Lib

variable {σ τ α β : Type}

/-- The results of a list of calls, and the state they lead to. -/
def replay (step : σ → α → Option (β × σ)) (s : σ) :
    List α → Option (List β × σ)
  | [] => some ([], s)
  | a :: rest =>
      match step s a with
      | none => none
      | some (b, s') =>
          match replay step s' rest with
          | none => none
          | some (bs, s'') => some (b :: bs, s'')

/-- The same of a machine that never fails. -/
def replayTotal (step : τ → α → β × τ) (t : τ) : List α →
    List β × τ
  | [] => ([], t)
  | a :: rest =>
      let (b, t') := step t a
      let (bs, t'') := replayTotal step t' rest
      (b :: bs, t'')

/-- The simulation rule. -/
theorem replay_refines {step : σ → α → Option (β × σ)}
    {spec : τ → α → β × τ} {R : σ → τ → Prop}
    (hstep : ∀ s t a, R s t →
      ∃ s', step s a = some ((spec t a).1, s') ∧ R s' (spec t a).2)
    {s : σ} {t : τ} (hst : R s t) (calls : List α) :
    ∃ s', replay step s calls = some ((replayTotal spec t calls).1, s')
      ∧ R s' (replayTotal spec t calls).2 := by
  induction calls generalizing s t with
  | nil => exact ⟨s, rfl, hst⟩
  | cons a rest ih =>
      obtain ⟨s', hs', hrel⟩ := hstep s t a hst
      obtain ⟨s'', hs'', hrel'⟩ := ih hrel
      refine ⟨s'', ?_, hrel'⟩
      rw [replay, hs']
      show (match replay step s' rest with
        | none => none
        | some (bs, s'') => some ((spec t a).1 :: bs, s'')) = _
      rw [hs'']
      rfl

end ProjectsLibs.Lib
