/-
Computations that may fail, by what they may end in.

`Comes ok x post` says that `x` ends in a result that `post` holds of, or
in an error that `ok` allows. With no error allowed it says that `x`
succeeds; with all but one it says that this one does not come up. The
rules are those of a calculus of postconditions: one for each way of
putting computations together.

# How the rules are used

A program is a term of binds, branches and loops. Its proof has the same
shape: `Comes.bind` takes the postcondition of the first part to the
second, `Comes.foldlM` an invariant through a loop, and `Comes.mono`
weakens what was shown to what is asked for. The errors that are allowed
stay the same from the top of a proof to its leaves, so they are said
once.

At the end the statement is read as one about the value: a result exists
(`Comes.exists_ok`), or a certain error is not it (`Comes.ne_error`).
-/
import Mathlib.Tactic.Common

namespace ProjectsLibs.Lib

variable {ε α β σ : Type} {ok : ε → Prop}

/-- The computation ends in a result with `post`, or in an error that is
`ok`. -/
def Comes (ok : ε → Prop) (x : Except ε α) (post : α → Prop) : Prop :=
  match x with
  | .ok a => post a
  | .error e => ok e

variable {x : Except ε α} {post post' : α → Prop}

/-- A run that is known to return comes to what it returns. -/
theorem Comes.of_eq_ok {a : α} (hx : x = .ok a) (hpost : post a) :
    Comes ok x post := by
  rw [hx]
  exact hpost

/-- Less may be said of what a run comes to. -/
theorem Comes.mono (hx : Comes ok x post)
    (himp : ∀ a, post a → post' a) : Comes ok x post' := by
  cases x with
  | ok a => exact himp a hx
  | error e => exact hx

/-- One computation after the other. -/
theorem Comes.bind {f : α → Except ε β} {postβ : β → Prop}
    (hx : Comes ok x post) (hf : ∀ a, post a → Comes ok (f a) postβ) :
    Comes ok (x >>= f) postβ := by
  cases x with
  | ok a => exact hf a hx
  | error e => exact hx

/-- A loop whose body keeps an invariant. -/
theorem Comes.foldlM {f : σ → α → Except ε σ} (I : σ → Prop)
    {l : List α}
    {s : σ} (hs : I s)
    (hstep : ∀ a ∈ l, ∀ s, I s → Comes ok (f s a) I) :
    Comes ok (l.foldlM f s) I := by
  induction l generalizing s with
  | nil => exact hs
  | cons a l ih =>
      rw [List.foldlM_cons]
      refine (hstep a (List.mem_cons_self ..) s hs).bind ?_
      intro s' hs'
      exact ih hs' fun x hx => hstep x (List.mem_cons_of_mem a hx)

/-- With no error allowed the computation succeeds. -/
theorem Comes.exists_ok (hx : Comes (fun _ : ε => False) x post) :
    ∃ a, x = .ok a ∧ post a := by
  cases x with
  | ok a => exact ⟨a, rfl, hx⟩
  | error e => exact hx.elim

/-- An error that is not allowed does not come up. -/
theorem Comes.ne_error {e : ε} (hx : Comes ok x post) (he : ¬ok e) :
    x ≠ .error e := by
  rintro rfl
  exact he hx

/-- Of a computation that does not end in one error: what it ends in. -/
theorem Comes.of_ne_error {e : ε} (hx : x ≠ .error e) :
    Comes (fun e' => e' ≠ e) x fun a => x = .ok a := by
  cases x with
  | ok a => exact rfl
  | error e' =>
      intro heq
      exact hx (heq ▸ rfl)

end ProjectsLibs.Lib
