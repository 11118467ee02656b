/-
Programs on memory that others write to at any time.

A program is a function on a `World`: the memory, and what the others do
to it before each load. What is proved of a program is proved for all of
them (`Ensures`), or for those that leave some cells alone (`Knows`): the
rules say that a load from such a cell returns what is known of it, and
a load from any other cell any value at all.

# Knowledge

The rules are those of a logic of triples, for a monad in which only loads
and stores look at the world. `Knows A f` is the assertion that goes
through a program: the cells in `A` are not written by the others, and
hold what `f` says. A load keeps it, and a store replaces what `f` says of
the cell stored to. With an empty `A` it says nothing at all, which is the
case of others that may write to everything.

A value that is loaded twice from a cell outside of `A` is two values. The
rules give no equation between them, so a proof cannot use one by
accident.
-/
import Mathlib.Logic.Function.Basic
import Mathlib.Tactic.Common

namespace ProjectsLibs.Lib

variable {ι ν α β : Type}

/-- Memory, and what the others do to it before load number `time`. -/
structure World (ι ν : Type) where
  mem : ι → ν
  peer : Nat → (ι → ν) → ι → ν
  time : Nat

/-- A program that returns an `α`. -/
def Shared (ι ν α : Type) : Type := World ι ν → α × World ι ν

instance : Monad (Shared ι ν) where
  pure a := fun w => (a, w)
  bind x f := fun w => f (x w).1 (x w).2

/-- Two programs one after the other, on a world: the second starts in the
world that the first leaves. -/
theorem Shared.bind_apply (x : Shared ι ν α) (f : α → Shared ι ν β)
    (w : World ι ν) : (x >>= f) w = f (x w).1 (x w).2 := rfl

/-- Load a cell. -/
def load (i : ι) : Shared ι ν ν := fun w =>
  (w.peer w.time w.mem i,
    { w with mem := w.peer w.time w.mem, time := w.time + 1 })

/-- Store to a cell. -/
def store [DecidableEq ι] (i : ι) (v : ν) : Shared ι ν Unit := fun w =>
  ((), { w with mem := Function.update w.mem i v })

/-- From a world in which `P` holds, the program ends in one in which `Q`
holds of what it returns. -/
def Ensures (P : World ι ν → Prop) (x : Shared ι ν α)
    (Q : α → World ι ν → Prop) : Prop :=
  ∀ w, P w → Q (x w).1 (x w).2

namespace Ensures

variable {P P' : World ι ν → Prop} {Q Q' : α → World ι ν → Prop}
  {R : β → World ι ν → Prop}

/-- A program that does nothing leaves the world as it was. -/
theorem pure {a : α} (h : ∀ w, P w → Q a w) :
    Ensures P (Pure.pure a : Shared ι ν α) Q := h

/-- The rule for two programs one after the other: what the first ensures
is what the second may rely on. -/
theorem bind {x : Shared ι ν α} {f : α → Shared ι ν β}
    (hx : Ensures P x Q) (hf : ∀ a, Ensures (Q a) (f a) R) :
    Ensures P (x >>= f) R :=
  fun w hw => hf _ _ (hx w hw)

/-- The rule for a branch; its condition is known in each of the two arms. -/
theorem ite {c : Prop} [Decidable c] {x y : Shared ι ν α}
    (hx : c → Ensures P x Q) (hy : ¬c → Ensures P y Q) :
    Ensures P (if c then x else y) Q := by
  split
  · rename_i hc
    exact hx hc
  · rename_i hc
    exact hy hc

/-- A fact that does not depend on the world. -/
theorem assume {x : Shared ι ν α} {p : Prop}
    (hx : p → Ensures P x Q) : Ensures (fun w => p ∧ P w) x Q :=
  fun w hw => hx hw.1 w hw.2

/-- Something that is known to be there. -/
theorem exists_pre {γ : Type} {x : Shared ι ν α}
    {P : γ → World ι ν → Prop} (hx : ∀ c, Ensures (P c) x Q) :
    Ensures (fun w => ∃ c, P c w) x Q := by
  intro w hw
  obtain ⟨c, hc⟩ := hw
  exact hx c w hc

end Ensures

/-- The others leave the cells in `A` alone, and they are as in `f`. -/
structure Knows (A : ι → Prop) (f : ι → ν) (w : World ι ν) : Prop where
  quiet : ∀ t m i, A i → w.peer t m i = m i
  mem : ∀ i, A i → w.mem i = f i

variable {A : ι → Prop} {f : ι → ν}

/-- A store to a cell that nothing is known of. -/
theorem Knows.of_update [DecidableEq ι] {w : World ι ν} {i : ι} {v : ν}
    (hi : ¬A i) (h : Knows A (Function.update f i v) w) : Knows A f w := by
  refine ⟨h.quiet, ?_⟩
  intro j hj
  have hji : j ≠ i := fun heq => hi (heq ▸ hj)
  rw [h.mem j hj, Function.update_of_ne hji]

/-- A load returns what is known of the cell, if anything is; the others
have taken their turn before it, and what they leave alone is still known
behind it. -/
theorem ensures_load (i : ι) :
    Ensures (Knows A f) (load i) fun v w =>
      (A i → v = f i) ∧ Knows A f w := by
  intro w hw
  refine ⟨?_, hw.quiet, ?_⟩
  · intro hi
    exact (hw.quiet _ _ i hi).trans (hw.mem i hi)
  · intro j hj
    exact (hw.quiet _ _ j hj).trans (hw.mem j hj)

/-- A store changes what is known of that cell, and of no other. -/
theorem ensures_store [DecidableEq ι] (i : ι) (v : ν) :
    Ensures (Knows A f) (store i v) fun _ w =>
      Knows A (Function.update f i v) w := by
  intro w hw
  refine ⟨hw.quiet, ?_⟩
  intro j hj
  by_cases hji : j = i
  · rw [hji]
    show Function.update w.mem i v i = _
    rw [Function.update_self, Function.update_self]
  · show Function.update w.mem i v j = _
    rw [Function.update_of_ne hji, Function.update_of_ne hji]
    exact hw.mem j hj

end ProjectsLibs.Lib
