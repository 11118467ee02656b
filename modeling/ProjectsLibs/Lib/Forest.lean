/-
Forests given by a labelled edge relation: `E x i y` says that slot `i` of
`x` holds `y`.

A set of nodes is a forest under `E` if it is closed, every node sits in
at most one slot, and edges go up in an order. The subtrees in different
slots of one node are then disjoint (`Forest.disjoint`), which is what a
recursive removal needs.

# Where it is used

A set of nodes is given by a predicate and not as a list, since what it is
varies: the nodes that are there now, or those that were there before an
edge was changed. The order is any in which the edges go up, and it is
there to exclude circles, so that nothing has to be finite or counted.

Two nodes above a third are one above the other (`comparable`), since the
way up is unique. Disjointness of the subtrees follows: a node below two
slots of `x` would put one of these slots below the other.
-/
import Mathlib.Logic.Relation
import Mathlib.Order.Basic
import Mathlib.Tactic.Common

namespace ProjectsLibs.Lib

variable {α ι : Type*}

/-- `y` is `x` or below it. -/
def Below (E : α → ι → α → Prop) (x y : α) : Prop :=
  Relation.ReflTransGen (fun x y => ∃ i, E x i y) x y

variable {E : α → ι → α → Prop}

theorem Below.refl (x : α) : Below E x x := Relation.ReflTransGen.refl

/-- One edge down, and then further down. -/
theorem Below.head {x y z : α} {i : ι} (hxy : E x i y)
    (hyz : Below E y z) : Below E x z :=
  Relation.ReflTransGen.head ⟨i, hxy⟩ hyz

/-- What is below `x` is `x`, or below what one of its slots holds. -/
theorem below_iff {x z : α} :
    Below E x z ↔ z = x ∨ ∃ i y, E x i y ∧ Below E y z := by
  constructor
  · intro h
    cases Relation.ReflTransGen.cases_head h with
    | inl heq => exact Or.inl heq.symm
    | inr hstep =>
        obtain ⟨y, ⟨i, hxy⟩, hyz⟩ := hstep
        exact Or.inr ⟨i, y, hxy, hyz⟩
  · intro h
    cases h with
    | inl heq =>
        rw [heq]
        exact Below.refl x
    | inr hstep =>
        obtain ⟨i, y, hxy, hyz⟩ := hstep
        exact hyz.head hxy

/-- A set of nodes that is a forest. -/
structure Forest [Preorder α] (E : α → ι → α → Prop)
    (S : α → Prop) :
    Prop where
  closed : ∀ x i y, S x → E x i y → S y
  unique : ∀ x i y j z, S x → S y → E x i z → E y j z →
    x = y ∧ i = j
  lt : ∀ x i y, S x → E x i y → x < y

namespace Forest

variable [Preorder α] {S : α → Prop} {x y z : α} {i j : ι}

/-- What is below a member of the set is a member, since the edges do not
lead out of it. -/
theorem mem (h : Forest E S) (hx : S x) (hxy : Below E x y) : S y := by
  induction hxy with
  | refl => exact hx
  | tail _ hstep ih =>
      obtain ⟨i, hi⟩ := hstep
      exact h.closed _ i _ ih hi

/-- Edges go up in the order, so there is no way back: this is what makes a
forest of a set with unique parents. -/
theorem le (h : Forest E S) (hx : S x) (hxy : Below E x y) : x ≤ y := by
  induction hxy with
  | refl => exact le_refl x
  | tail hbelow hstep ih =>
      obtain ⟨i, hi⟩ := hstep
      exact le_trans ih (h.lt _ i _ (h.mem hx hbelow) hi).le

/-- Two nodes above a third are one above the other. -/
theorem comparable (h : Forest E S) (hx : S x) (hy : S y)
    (hxz : Below E x z) (hyz : Below E y z) :
    Below E x y ∨ Below E y x := by
  induction hxz with
  | refl => exact Or.inr hyz
  | @tail u v hxu huv ih =>
      -- the last edge to `z` is the same on both ways, if both have one
      cases Relation.ReflTransGen.cases_tail hyz with
      | inl heq =>
          rw [← heq]
          exact Or.inl (hxu.tail huv)
      | inr hlast =>
          obtain ⟨w, hyw, j, hwv⟩ := hlast
          obtain ⟨i, hi⟩ := huv
          obtain ⟨huw, -⟩ := h.unique u i w j v (h.mem hx hxu)
            (h.mem hy hyw) hi hwv
          rw [← huw] at hyw
          exact ih hyw

/-- The subtrees in different slots are disjoint. -/
theorem disjoint (h : Forest E S) (hx : S x) (hy : E x i y)
    (hz : E x j z) (hij : i ≠ j) {e : α} (hye : Below E y e) :
    ¬Below E z e := by
  -- neither of two nodes in slots of `x` is below the other
  have hstep : ∀ i j y z, E x i y → E x j z → i ≠ j →
      ¬Below E y z := by
    intro i j y z hy hz hij hyz
    cases Relation.ReflTransGen.cases_tail hyz with
    | inl heq =>
        rw [heq] at hz
        exact hij (h.unique x i x j y hx hx hy hz).2
    | inr hlast =>
        obtain ⟨w, hyw, k, hwz⟩ := hlast
        have hw := h.mem (h.closed x i y hx hy) hyw
        obtain ⟨hxw, -⟩ := h.unique x j w k z hx hw hz hwz
        rw [← hxw] at hyw
        have hle := h.le (h.closed x i y hx hy) hyw
        exact lt_irrefl x (lt_of_lt_of_le (h.lt x i y hx hy) hle)
  intro hze
  cases h.comparable (h.closed x i y hx hy) (h.closed x j z hx hz)
      hye hze with
  | inl hyz => exact hstep i j y z hy hz hij hyz
  | inr hzy => exact hstep j i z y hz hy hij.symm hzy

end Forest

end ProjectsLibs.Lib
