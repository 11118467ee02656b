/-
Loops that can fail, and what they count down.

`foldlM_invariant` is the rule for a loop over a list whose body returns
an error or the next state: an invariant of the elements passed and the
state. `countP_lt_countP` is for measures that count the elements still
open.

# How it is used

A loop of a program that can fail is `foldlM` in `Except`. There are two
rules for it. With `foldlM_invariant` one shows that the loop succeeds:
for each element, with those that were passed in front of it, the body
succeeds and keeps the invariant. With `foldlM_ok` the success is given,
and the body is followed through it. Both are inductions over the list
that a user does not have to repeat; the invariant may speak of the
elements that were passed, which is how a loop that collects is followed.

The counting lemma is for recursions that end because something can be
recorded only once: what is not recorded yet gets less.
-/
import Mathlib.Data.List.Nodup
import Mathlib.Tactic.Common

namespace ProjectsLibs.Lib

variable {α σ ε : Type*}

/-- A step that has succeeded, in front of the rest of a monadic body. -/
theorem ok_bind {ε α β : Type} (a : α) (f : α → Except ε β) :
    (Except.ok a >>= f) = f a := rfl

/-- A computation that succeeds has succeeded in its first step. -/
theorem bind_eq_ok {ε α β : Type} {x : Except ε α}
    {f : α → Except ε β}
    {r : β} (h : x >>= f = .ok r) : ∃ a, x = .ok a ∧ f a = .ok r := by
  cases x with
  | error e => cases h
  | ok a => exact ⟨a, rfl, h⟩

/-- A loop whose body succeeds under the invariant succeeds, and the
invariant holds at its end. -/
theorem foldlM_invariant {f : σ → α → Except ε σ}
    (I : List α → σ → Prop) {l : List α} {s : σ} (init : I [] s)
    (step : ∀ l₁ x l₂ s, l = l₁ ++ x :: l₂ → I l₁ s →
      ∃ s', f s x = .ok s' ∧ I (l₁ ++ [x]) s') :
    ∃ s', l.foldlM f s = .ok s' ∧ I l s' := by
  suffices hgen : ∀ l₁ l₂ s, l = l₁ ++ l₂ → I l₁ s →
      ∃ s', l₂.foldlM f s = .ok s' ∧ I l s' from hgen [] l s rfl init
  intro l₁ l₂
  induction l₂ generalizing l₁ with
  | nil =>
      intro s hl hI
      rw [List.append_nil] at hl
      exact ⟨s, rfl, hl ▸ hI⟩
  | cons x l₂ ih =>
      intro s hl hI
      obtain ⟨s', hs', hI'⟩ := step l₁ x l₂ s hl hI
      obtain ⟨s'', hs'', hI''⟩ := ih (l₁ ++ [x]) s' (by simp [hl]) hI'
      refine ⟨s'', ?_, hI''⟩
      rw [List.foldlM_cons, hs']
      exact hs''

/-- A loop that succeeds keeps what its body keeps, and the body has
succeeded for each element. -/
theorem foldlM_ok {f : σ → α → Except ε σ} (I : σ → Prop)
    {l : List α}
    {s s' : σ} (hI : I s)
    (hstep : ∀ s, ∀ x ∈ l, ∀ s', I s → f s x = .ok s' → I s')
    (hok : l.foldlM f s = .ok s') :
    I s' ∧ ∀ x ∈ l, ∃ s₁ s₂, I s₁ ∧ f s₁ x = .ok s₂ := by
  induction l generalizing s with
  | nil =>
      cases hok
      exact ⟨hI, by simp⟩
  | cons x l ih =>
      rw [List.foldlM_cons] at hok
      cases hx : f s x with
      | error e =>
          rw [hx] at hok
          cases hok
      | ok s₁ =>
          rw [hx] at hok
          have hI₁ := hstep s x (List.mem_cons_self ..) s₁ hI hx
          obtain ⟨hI', hall⟩ := ih hI₁
            (fun s y hy => hstep s y (List.mem_cons_of_mem x hy)) hok
          refine ⟨hI', ?_⟩
          intro y hy
          cases hy with
          | head => exact ⟨s, s₁, hI, hx⟩
          | tail _ hy => exact hall y hy

/-- A view of the state that the body respects is one that the loop
respects. -/
theorem foldlM_map_state {τ : Type*} {f : σ → α → Except ε σ}
    {g : τ → α → Except ε τ} {φ : σ → τ}
    (hbody : ∀ s x, (f s x).map φ = g (φ s) x) (l : List α) (s : σ) :
    (l.foldlM f s).map φ = l.foldlM g (φ s) := by
  induction l generalizing s with
  | nil => rfl
  | cons x l ih =>
      rw [List.foldlM_cons, List.foldlM_cons, ← hbody]
      cases f s x with
      | error e => rfl
      | ok s' => exact ih s'

/-- A loop that acts on the one element equal to `a` acts once, if `a` is
there. -/
theorem foldlM_select [DecidableEq α] (g : σ → Except ε σ) (a : α)
    {l : List α} (hl : l.Nodup) (s : σ) :
    l.foldlM (fun s x => if a = x then g s else .ok s) s
      = if a ∈ l then g s else .ok s := by
  induction l generalizing s with
  | nil => simp [pure, Except.pure]
  | cons x l ih =>
      rw [List.nodup_cons] at hl
      rw [List.foldlM_cons]
      by_cases hax : a = x
      · subst hax
        rw [if_pos rfl, if_pos (List.mem_cons_self ..)]
        cases hg : g s with
        | error e => rfl
        | ok s' =>
            show l.foldlM _ s' = _
            rw [ih hl.2 s', if_neg hl.1]
      · rw [if_neg hax]
        show l.foldlM _ s = _
        rw [ih hl.2 s]
        simp [hax]

/-- What holds of each element from some number of steps on holds of all
of them from one number on. -/
theorem exists_common_bound {P : α → Nat → Prop} {l : List α}
    (mono : ∀ a n m, n ≤ m → P a n → P a m)
    (each : ∀ a ∈ l, ∃ n, P a n) :
    ∃ n, ∀ m, n ≤ m → ∀ a ∈ l, P a m := by
  induction l with
  | nil => exact ⟨0, by simp⟩
  | cons a l ih =>
      obtain ⟨k, hk⟩ := each a (List.mem_cons_self ..)
      obtain ⟨n, hn⟩ := ih fun x hx => each x (List.mem_cons_of_mem a hx)
      refine ⟨k + n, fun m hm x hx => ?_⟩
      cases hx with
      | head => exact mono a k m (by omega) hk
      | tail _ hx => exact hn m (by omega) x hx

/-- If what `p` counts is counted by `q`, and `q` counts one more, the
count is smaller. -/
theorem countP_lt_countP {p q : α → Bool} {l : List α}
    (hpq : ∀ x ∈ l, p x → q x) {a : α} (ha : a ∈ l) (hq : q a)
    (hp : ¬p a) : l.countP p < l.countP q := by
  induction l with
  | nil => cases ha
  | cons x l ih =>
      have hl := fun y hy => hpq y (List.mem_cons_of_mem x hy)
      have hle := List.countP_mono_left hl
      rw [List.countP_cons, List.countP_cons]
      cases ha with
      | head =>
          rw [if_neg hp, if_pos hq]
          omega
      | tail _ ha =>
          have hlt := ih hl ha
          have hx := hpq x (List.mem_cons_self ..)
          by_cases hpx : p x
          · rw [if_pos hpx, if_pos (hx hpx)]
            omega
          · rw [if_neg hpx]
            omega

end ProjectsLibs.Lib
