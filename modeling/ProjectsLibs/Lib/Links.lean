/-
Singly linked lists threaded through one `next` map, as an intrusive
list in a table is: `Follows next stop a l` says that the links
starting at `a` visit exactly the cells of `l`, in order, and then
reach `stop`.

Several lists share one map, so the lemmas come in two kinds: what an
update of one link does to the list it belongs to (`append_link`,
`tail`), and that it does nothing to a list that does not contain the
cell (`update_of_notMem`). Separation is plain non-membership; the
users of this module keep all their lists in one duplicate-free list.

# Frames

The proofs are by induction on the list of cells, with the start
generalized. An operation on a table changes a link or two. For the list
that it is about, a lemma says which list there is afterwards; for the
others the change is at a cell that they do not visit, and they are as
before. A list is determined by its start (`unique`), so two descriptions
of the same list may be compared without looking at the links.
-/
import Mathlib.Data.List.Nodup
import Mathlib.Logic.Function.Basic
import Mathlib.Tactic.Common

namespace ProjectsLibs.Lib

variable {ι : Type*}

/-- The links from `a` visit exactly `l`, in order, then reach
`stop`. -/
def Follows (next : ι → ι) (stop : ι) : ι → List ι → Prop
  | a, [] => a = stop
  | a, x :: l => a = x ∧ x ≠ stop ∧ Follows next stop (next x) l

namespace Follows

variable {next : ι → ι} {stop a x : ι} {l l' : List ι}

/-- A list that is not empty starts at its first cell. -/
theorem start_eq (h : Follows next stop a (x :: l)) : a = x := h.1

/-- The start of any list is its first cell, or the end value. -/
theorem start_eq_head (h : Follows next stop a l) :
    a = l.head?.getD stop := by
  cases l with
  | nil => exact h
  | cons x l => exact h.1

/-- The list from a given start is unique. -/
theorem unique (h : Follows next stop a l) (h' : Follows next stop a l') :
    l = l' := by
  induction l generalizing a l' with
  | nil =>
      cases l' with
      | nil => rfl
      | cons y l' => exact absurd (h'.1.symm.trans h) h'.2.1
  | cons x l ih =>
      cases l' with
      | nil => exact absurd (h.1.symm.trans h') h.2.1
      | cons y l' =>
          obtain ⟨rfl, -, hl⟩ := h
          obtain ⟨rfl, -, hl'⟩ := h'
          rw [ih hl hl']

/-- The link of the `i`-th cell is the next cell, or the end value. -/
theorem next_getElem (h : Follows next stop a l) {i : Nat}
    (hi : l[i]? = some x) : next x = l[i + 1]?.getD stop := by
  induction l generalizing a i with
  | nil => simp at hi
  | cons y l ih =>
      obtain ⟨-, -, hl⟩ := h
      cases i with
      | zero =>
          simp only [List.getElem?_cons_zero, Option.some.injEq] at hi
          subst hi
          rw [hl.start_eq_head]
          cases l <;> simp
      | succ i =>
          rw [List.getElem?_cons_succ] at hi
          rw [List.getElem?_cons_succ]
          exact ih hl hi

/-- Only the links of the visited cells matter. -/
theorem congr (h : Follows next stop a l) {next' : ι → ι}
    (heq : ∀ y ∈ l, next' y = next y) : Follows next' stop a l := by
  induction l generalizing a with
  | nil => exact h
  | cons x l ih =>
      obtain ⟨hax, hx, hl⟩ := h
      refine ⟨hax, hx, ?_⟩
      rw [heq x (List.mem_cons_self ..)]
      exact ih hl fun y hy => heq y (List.mem_cons_of_mem _ hy)

/-- Relinking a cell outside the list leaves the list alone. -/
theorem update_of_notMem [DecidableEq ι] (h : Follows next stop a l)
    {y v : ι} (hy : y ∉ l) :
    Follows (Function.update next y v) stop a l := by
  refine h.congr fun z hz => Function.update_of_ne ?_ _ _
  rintro rfl
  exact hy hz

/-- A cell that ends the list and is linked from its last cell extends
it at the tail. -/
theorem append_link [DecidableEq ι] {t y : ι}
    (h : Follows next stop a (l ++ [t])) (hnd : (l ++ [t]).Nodup)
    (hy : y ∉ l ++ [t]) (hys : y ≠ stop) :
    Follows (Function.update (Function.update next y stop) t y) stop a
      (l ++ [t] ++ [y]) := by
  induction l generalizing a with
  | nil =>
      obtain ⟨rfl, hx, -⟩ := h
      have hyt : y ≠ a := fun e => hy (by simp [e])
      refine ⟨rfl, hx, ?_⟩
      simp [Follows, hys, Function.update_of_ne hyt]
  | cons x l ih =>
      obtain ⟨rfl, hx, hl⟩ := h
      rw [List.cons_append, List.nodup_cons] at hnd
      have hat : a ≠ t := fun e => hnd.1 (by simp [e])
      have hya : a ≠ y := fun e => hy (by simp [e])
      refine ⟨rfl, hx, ?_⟩
      rw [Function.update_of_ne hat, Function.update_of_ne hya]
      exact ih hl hnd.2 fun hm => hy (List.mem_cons_of_mem _ hm)

/-- A single cell whose link is the end value. -/
theorem singleton (hx : x ≠ stop) (hn : next x = stop) :
    Follows next stop x [x] := ⟨rfl, hx, hn⟩

end Follows

end ProjectsLibs.Lib
