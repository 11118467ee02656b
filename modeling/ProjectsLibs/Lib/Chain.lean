/-
Lists through `next` pointers: `Leads next p l q` says that the pointer
`p` leads through exactly the cells of `l`, in order, to the pointer `q`.
With the null pointer for `q` this is a null-terminated list, with the
first cell a ring.

The lemmas are the ones a driver's queues need: only the links of the
cells matter (`congr`), a list in two parts (`append_iff`), and what
changing a link does: at the end (`relink`), to put a cell in (`insert`)
and to take one out (`remove`). `walkWhile` is the loop that looks for a
place.

A ring (`IsRing`) may be cut anywhere (`rotate`), so that an edit is always
one behind its first cell.

# Edits

All edits come down to two facts: a chain may be taken apart at any cell
(`append_iff`, `split_iff`), and its parts do not notice a change of a
link elsewhere (`congr`). What the loops of a driver walk to is said by
`walkWhile_eq`: the last cell up to which the condition has held. The
fuel of a walk is any number greater than the length of the list.
-/
import Mathlib.Data.List.Nodup
import Mathlib.Tactic.Common

namespace ProjectsLibs.Lib

variable {ι : Type*}

/-- The pointer `p` leads through `l` to `q`. -/
def Leads (next : ι → Option ι) : Option ι → List ι → Option ι →
    Prop
  | p, [], q => p = q
  | p, x :: l, q => p = some x ∧ Leads next (next x) l q

instance Leads.decidable [DecidableEq ι] {next : ι → Option ι} :
    ∀ p l q, Decidable (Leads next p l q)
  | p, [], q => inferInstanceAs (Decidable (p = q))
  | p, x :: l, q =>
      have : Decidable (Leads next (next x) l q) :=
        Leads.decidable (next x) l q
      inferInstanceAs (Decidable (p = some x ∧ Leads next (next x) l q))

namespace Leads

variable {next next' : ι → Option ι} {p q r : Option ι} {x y : ι}
  {l l₁ l₂ : List ι}

/-- The pointer to a list that is not empty is its first cell. -/
theorem head_eq (h : Leads next p (x :: l) q) : p = some x := h.1

/-- A null-terminated list starts at its first cell. -/
theorem eq_head (h : Leads next p l none) : p = l.head? := by
  cases l with
  | nil => exact h
  | cons x l => exact h.1

/-- Only the links of the cells matter. -/
theorem congr (h : Leads next p l q) (heq : ∀ y ∈ l, next' y = next y) :
    Leads next' p l q := by
  induction l generalizing p with
  | nil => exact h
  | cons x l ih =>
      obtain ⟨hp, hl⟩ := h
      refine ⟨hp, ?_⟩
      rw [heq x (List.mem_cons_self ..)]
      apply ih hl
      intro y hy
      exact heq y (List.mem_cons_of_mem _ hy)

/-- A list in two parts. -/
theorem append_iff :
    Leads next p (l₁ ++ l₂) q ↔
      ∃ r, Leads next p l₁ r ∧ Leads next r l₂ q := by
  induction l₁ generalizing p with
  | nil =>
      constructor
      · intro h
        exact ⟨p, rfl, h⟩
      · intro h
        obtain ⟨r, hr, hl⟩ := h
        rw [hr]
        exact hl
  | cons x l₁ ih =>
      constructor
      · intro h
        obtain ⟨r, hr, hl⟩ := ih.1 h.2
        exact ⟨r, ⟨h.1, hr⟩, hl⟩
      · intro h
        obtain ⟨r, hr, hl⟩ := h
        exact ⟨hr.1, ih.2 ⟨r, hr.2, hl⟩⟩

/-- Two chains one after the other, where the second begins at the pointer
that the first ends with. -/
theorem append (h₁ : Leads next p l₁ r) (h₂ : Leads next r l₂ q) :
    Leads next p (l₁ ++ l₂) q :=
  append_iff.2 ⟨r, h₁, h₂⟩

/-- A chain taken apart at its last cell: the way up to it, and the pointer
in it. -/
theorem concat_iff :
    Leads next p (l ++ [x]) q ↔ Leads next p l (some x) ∧ next x = q := by
  rw [append_iff]
  constructor
  · intro h
    obtain ⟨r, hr, hx, hq⟩ := h
    rw [hx] at hr
    exact ⟨hr, hq⟩
  · intro h
    exact ⟨some x, h.1, rfl, h.2⟩

/-- A list split at a cell. -/
theorem split_iff :
    Leads next p (l₁ ++ x :: l₂) q ↔
      Leads next p l₁ (some x) ∧ Leads next (next x) l₂ q := by
  rw [append_iff]
  constructor
  · intro h
    obtain ⟨r, hr, hx, hq⟩ := h
    rw [hx] at hr
    exact ⟨hr, hq⟩
  · intro h
    exact ⟨some x, h.1, rfl, h.2⟩

/-- Changing the link of the last cell changes where the list leads. -/
theorem relink (h : Leads next p (l ++ [x]) q)
    (heq : ∀ y ∈ l, next' y = next y) (hx : next' x = r) :
    Leads next' p (l ++ [x]) r := by
  rw [concat_iff] at h ⊢
  exact ⟨h.1.congr heq, hx⟩

/-- A null-terminated list is determined by where it starts. -/
theorem unique (h₁ : Leads next p l₁ none) (h₂ : Leads next p l₂ none) :
    l₁ = l₂ := by
  induction l₁ generalizing p l₂ with
  | nil =>
      cases l₂ with
      | nil => rfl
      | cons y l₂ =>
          have hnil : p = none := h₁
          rw [hnil] at h₂
          cases h₂.1
  | cons x l₁ ih =>
      cases l₂ with
      | nil =>
          have hnil : p = none := h₂
          rw [hnil] at h₁
          cases h₁.1
      | cons y l₂ =>
          obtain ⟨hx, hl₁⟩ := h₁
          obtain ⟨hy, hl₂⟩ := h₂
          rw [hx] at hy
          cases hy
          rw [ih hl₁ hl₂]

/-- A null-terminated list has no cell twice. -/
theorem nodup (h : Leads next p l none) : l.Nodup := by
  induction l generalizing p with
  | nil => exact List.nodup_nil
  | cons x l ih =>
      refine List.nodup_cons.2 ⟨?_, ih h.2⟩
      intro hx
      obtain ⟨l₁, l₂, rfl⟩ := List.append_of_mem hx
      have hback := (split_iff.1 h.2).2
      have hlen := congrArg List.length (unique h.2 hback)
      simp only [List.length_append, List.length_cons] at hlen
      omega

/-- Put the cell `x` behind `y`. -/
theorem insert (h : Leads next p (l₁ ++ y :: l₂) q)
    (heq : ∀ z ∈ l₁ ++ l₂, next' z = next z) (hy : next' y = some x)
    (hx : next' x = next y) : Leads next' p (l₁ ++ y :: x :: l₂) q := by
  rw [split_iff] at h ⊢
  refine ⟨h.1.congr fun z hz => heq z (List.mem_append_left _ hz), hy, ?_⟩
  rw [hx]
  exact h.2.congr fun z hz => heq z (List.mem_append_right _ hz)

/-- Take the cell `x` behind `y` out. -/
theorem remove (h : Leads next p (l₁ ++ y :: x :: l₂) q)
    (heq : ∀ z ∈ l₁ ++ l₂, next' z = next z) (hy : next' y = next x) :
    Leads next' p (l₁ ++ y :: l₂) q := by
  rw [split_iff] at h ⊢
  refine ⟨h.1.congr fun z hz => heq z (List.mem_append_left _ hz), ?_⟩
  rw [hy]
  exact h.2.2.congr fun z hz => heq z (List.mem_append_right _ hz)

end Leads

-- ============================================================== walking

/-- The first cells of a list. -/
def follow (next : ι → Option ι) : Nat → Option ι → List ι
  | 0, _ => []
  | _, none => []
  | fuel + 1, some x => x :: follow next fuel (next x)

/-- Following the pointers of a chain that ends gives its cells in order,
if as many steps may be taken as there are cells. -/
theorem Leads.follow_eq {next : ι → Option ι} {p : Option ι} {l : List ι}
    {fuel : Nat} (h : Leads next p l none) (hfuel : l.length ≤ fuel) :
    follow next fuel p = l := by
  induction l generalizing p fuel with
  | nil =>
      have hp : p = none := h
      rw [hp]
      cases fuel <;> rfl
  | cons x l ih =>
      obtain ⟨hp, hl⟩ := h
      cases fuel with
      | zero => cases hfuel
      | succ fuel =>
          rw [hp, follow, ih hl (Nat.le_of_succ_le_succ hfuel)]

/-- `while (x->next && c(x->next)) x = x->next`, for at most `fuel`
cells; none if that is not enough. -/
def walkWhile (next : ι → Option ι) (c : ι → Bool) : Nat → ι →
    Option ι
  | 0, _ => none
  | fuel + 1, x =>
      match next x with
      | none => some x
      | some y => if c y then walkWhile next c fuel y else some x

/-- A walk along a null-terminated list ends at the last cell up to which
`c` holds. -/
theorem Leads.walkWhile_eq {next : ι → Option ι} {c : ι → Bool} {x : ι}
    {l : List ι} {fuel : Nat} (h : Leads next (next x) l none)
    (hfuel : l.length < fuel) :
    ∃ l₁ y, walkWhile next c fuel x = some y
      ∧ l₁ ++ [y] = x :: l.takeWhile c := by
  induction l generalizing x fuel with
  | nil =>
      cases fuel with
      | zero => cases hfuel
      | succ fuel =>
          have hnone : next x = none := h
          refine ⟨[], x, ?_, rfl⟩
          unfold walkWhile
          rw [hnone]
  | cons z l ih =>
      cases fuel with
      | zero => cases hfuel
      | succ fuel =>
          have hz : next x = some z := h.1
          unfold walkWhile
          rw [hz]
          by_cases hc : c z = true
          · obtain ⟨l₁, y, hwalk, heq⟩ :=
              ih h.2 (Nat.lt_of_succ_lt_succ hfuel)
            refine ⟨x :: l₁, y, ?_, ?_⟩
            · simp only [hc, if_true]
              exact hwalk
            · rw [List.takeWhile_cons_of_pos hc, List.cons_append, heq]
          · refine ⟨[], x, ?_, ?_⟩
            · simp only [hc, Bool.false_eq_true, if_false]
            · rw [List.takeWhile_cons_of_neg hc]
              rfl

/-- A walk to the cell in front of `q`. -/
theorem Leads.walkWhile_to {next : ι → Option ι} {c : ι → Bool}
    {x q : ι}
    {l : List ι} {fuel : Nat} (h : Leads next (next x) l (some q))
    (hl : ∀ y ∈ l, c y = true) (hq : c q = false)
    (hfuel : l.length < fuel) :
    ∃ l₁ y, walkWhile next c fuel x = some y ∧ l₁ ++ [y] = x :: l := by
  induction l generalizing x fuel with
  | nil =>
      cases fuel with
      | zero => cases hfuel
      | succ fuel =>
          have hx : next x = some q := h
          refine ⟨[], x, ?_, rfl⟩
          simp only [walkWhile, hx, hq, Bool.false_eq_true, if_false]
  | cons z l ih =>
      cases fuel with
      | zero => cases hfuel
      | succ fuel =>
          have hz : next x = some z := h.1
          have hc := hl z (List.mem_cons_self ..)
          obtain ⟨l₁, y, hwalk, heq⟩ := ih h.2
            (fun y hy => hl y (List.mem_cons_of_mem z hy))
            (Nat.lt_of_succ_lt_succ hfuel)
          refine ⟨x :: l₁, y, ?_, ?_⟩
          · simp only [walkWhile, hz, hc, if_true]
            exact hwalk
          · rw [List.cons_append, heq]

-- ================================================================ rings

/-- The links lead around the cells of `l`. -/
def IsRing (next : ι → Option ι) (l : List ι) : Prop :=
  Leads next l.head? l l.head?

namespace IsRing

variable {next next' : ι → Option ι} {x y q : ι} {l l₁ l₂ : List ι}

/-- A ring may be cut anywhere. -/
theorem rotate (h : IsRing next (l₁ ++ l₂)) : IsRing next
    (l₂ ++ l₁) := by
  cases l₁ with
  | nil =>
      rw [List.append_nil]
      exact h
  | cons x l₁ =>
      cases l₂ with
      | nil =>
          rw [List.append_nil] at h
          exact h
      | cons y l₂ =>
          have hleads : Leads next (some x) ((x :: l₁) ++ y :: l₂)
              (some x) := h
          obtain ⟨hfront, hback⟩ := Leads.split_iff.1 hleads
          have hback' : Leads next (some y) (y :: l₂) (some x) :=
            ⟨rfl, hback⟩
          exact hback'.append hfront

/-- A ring cut at one of its cells. -/
theorem cut (h : IsRing next l) (hx : x ∈ l) :
    ∃ l', IsRing next (x :: l') ∧ (x :: l').Perm l := by
  obtain ⟨l₁, l₂, rfl⟩ := List.append_of_mem hx
  have hperm : ((x :: l₂) ++ l₁).Perm (l₁ ++ x :: l₂) :=
    List.perm_append_comm
  exact ⟨l₂ ++ l₁, h.rotate, hperm⟩

/-- The links from a cell lead around the ring to it. -/
theorem leads (h : IsRing next (x :: l)) :
    Leads next (some x) (x :: l) (some x) := h

/-- The links stay in the ring. -/
theorem next_mem (h : IsRing next l) (hx : x ∈ l) (hy : next x = some y) :
    y ∈ l := by
  obtain ⟨l', hring, hperm⟩ := h.cut hx
  rw [← hperm.mem_iff]
  have hleads := hring.leads.2
  rw [hy] at hleads
  cases l' with
  | nil =>
      have hyx : some y = some x := hleads
      cases hyx
      exact List.mem_cons_self ..
  | cons z l' =>
      have hyz : some y = some z := hleads.1
      cases hyz
      simp

/-- Put the cell `y` behind the first. -/
theorem insert (h : IsRing next (x :: l))
    (heq : ∀ z ∈ l, next' z = next z) (hx : next' x = some y)
    (hy : next' y = next x) : IsRing next' (x :: y :: l) := by
  have hleads : Leads next (some x) ([] ++ x :: l) (some x) := h
  exact hleads.insert heq hx hy

/-- Take the cell `y` behind the first out. -/
theorem remove (h : IsRing next (x :: y :: l))
    (heq : ∀ z ∈ l, next' z = next z) (hx : next' x = next y) :
    IsRing next' (x :: l) := by
  have hleads : Leads next (some x) ([] ++ x :: y :: l) (some x) := h
  exact hleads.remove heq hx

/-- In a ring of several cells a walk from any of them gets to the cell in
front of `q`. -/
theorem walkWhile_to [DecidableEq ι] (h : IsRing next l) (hnd : l.Nodup)
    (hx : x ∈ l) (hq : q ∈ l) (hother : ∃ m ∈ l, m ≠ q) {fuel : Nat}
    (hfuel : l.length ≤ fuel) :
    ∃ y l', walkWhile next (fun m => m ≠ q) fuel x = some y
      ∧ IsRing next (y :: q :: l') ∧ (y :: q :: l').Perm l := by
  obtain ⟨t, hring, hperm⟩ := h.cut hx
  have hndt := hperm.nodup_iff.2 hnd
  obtain ⟨hxt, -⟩ := List.nodup_cons.1 hndt
  have hlen : t.length < fuel := by
    have := hperm.length_eq
    rw [List.length_cons] at this
    omega
  by_cases hxq : x = q
  · -- the walk goes once around
    rw [hxq] at hring hxt hperm ⊢
    obtain ⟨l₀, y, hwalk, heq⟩ := hring.leads.2.walkWhile_to
      (c := fun m => decide (m ≠ q))
      (fun z hz => decide_eq_true (fun he => hxt (he ▸ hz)))
      (decide_eq_false (not_not.2 rfl)) hlen
    cases l₀ with
    | nil =>
        obtain ⟨m, hm, hmq⟩ := hother
        rw [← hperm.mem_iff, ← heq] at hm
        rw [List.nil_append, List.cons.injEq] at heq
        rw [List.nil_append, List.mem_singleton, heq.1] at hm
        exact absurd hm hmq
    | cons z l₀ =>
        rw [List.cons_append, List.cons.injEq] at heq
        obtain ⟨-, rfl⟩ := heq
        have hring' : IsRing next ((q :: l₀) ++ [y]) := hring
        have hcomm : ([y] ++ q :: l₀).Perm ((q :: l₀) ++ [y]) :=
          List.perm_append_comm
        exact ⟨y, l₀, hwalk, hring'.rotate, hcomm.trans hperm⟩
  · obtain ⟨a, b, rfl⟩ := List.append_of_mem
      (List.mem_of_ne_of_mem (Ne.symm hxq) (hperm.mem_iff.2 hq))
    obtain ⟨hfront, -⟩ := Leads.split_iff.1 hring.leads.2
    have hqa : q ∉ a := by
      have hnot := List.nodup_middle.1 (List.nodup_cons.1 hndt).2
      exact fun hmem => (List.nodup_cons.1 hnot).1 (List.mem_append_left _ hmem)
    rw [List.length_append] at hlen
    obtain ⟨l₀, y, hwalk, heq⟩ := hfront.walkWhile_to
      (c := fun m => decide (m ≠ q))
      (fun z hz => decide_eq_true (fun he => hqa (he ▸ hz)))
      (decide_eq_false (not_not.2 rfl)) (Nat.lt_of_le_of_lt
        (Nat.le_add_right _ _) hlen)
    have hsplit : x :: (a ++ q :: b) = l₀ ++ (y :: q :: b) := by
      rw [← List.cons_append, ← heq, List.append_assoc]
      rfl
    rw [hsplit] at hring hperm
    have hcomm : ((y :: q :: b) ++ l₀).Perm (l₀ ++ y :: q :: b) :=
      List.perm_append_comm
    exact ⟨y, b ++ l₀, hwalk, hring.rotate, hcomm.trans hperm⟩

end IsRing

end ProjectsLibs.Lib
