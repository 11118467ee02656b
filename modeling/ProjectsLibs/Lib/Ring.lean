/-
A bounded FIFO kept in a ring of `size` slots under free-running
positions: entry `n` of the log sits in slot `n % size` from the moment
it is put until it is taken. The producer never looks at the consumer:
that no untaken entry is overwritten is the occupancy bound, which the
users of this module have to supply (`put`).

`LiesFrom` is the same for a ring whose positions are kept below `size`:
the entries lie one behind the other from slot `start` on.

# Two ways to count

With free-running positions the whole history is in the statement: entry
`n` of the log, taken or not, has its slot, and it is only the untaken
ones that must be there. This suits queues whose two counters wrap at a
power of two, where the log says what the counters are modulo. Both sides
may move independently, and there is a lemma for each (`put`, `take`).

With bounded positions only what is in the queue is spoken of, as a list.
Putting appends to it and taking removes its head, so this suits a
specification that is itself a list.
-/
import Mathlib.Logic.Function.Basic
import Mathlib.Tactic.Common

namespace ProjectsLibs.Lib

variable {α : Type*}

/-- The entries `taken ≤ n < log.length` are in the ring, each in its
slot, and there are at most `size` of them. -/
structure RingHolds (size : Nat) (slot : Nat → α) (log : List α)
    (taken : Nat) : Prop where
  taken_le : taken ≤ log.length
  fits : log.length ≤ taken + size
  slot_eq : ∀ n x, taken ≤ n → log[n]? = some x → slot (n % size) = x

/-- Two positions less than `size` apart have different slots. -/
theorem slot_ne {size m n : Nat} (hmn : m < n) (hn : n < m + size) :
    m % size ≠ n % size := by
  intro h
  have hdvd : size ∣ n - m :=
    Nat.dvd_of_mod_eq_zero (Nat.sub_mod_eq_zero_of_mod_eq h.symm)
  have := Nat.le_of_dvd (by omega) hdvd
  omega

namespace RingHolds

variable {size taken : Nat} {slot : Nat → α} {log : List α}

/-- The empty ring. -/
theorem nil (size : Nat) (slot : Nat → α) : RingHolds size slot [] 0 :=
  ⟨Nat.le_refl _, Nat.zero_le _, fun n x _ h => by simp at h⟩

/-- Putting an entry while the ring is not full keeps every untaken
entry. -/
theorem put (h : RingHolds size slot log taken)
    (hroom : log.length < taken + size) (x : α) :
    RingHolds size (Function.update slot (log.length % size) x)
      (log ++ [x]) taken where
  taken_le := by
    rw [List.length_append]
    exact Nat.le_trans h.taken_le (Nat.le_add_right _ _)
  fits := by
    rw [List.length_append, List.length_singleton]
    omega
  slot_eq := by
    intro n y hn hy
    rcases Nat.lt_or_ge n log.length with hlt | hge
    · rw [List.getElem?_append_left hlt] at hy
      rw [Function.update_of_ne (slot_ne hlt (by omega))]
      exact h.slot_eq n y hn hy
    · have hn' : n = log.length := by
        have := List.getElem?_eq_some_iff.1 hy
        obtain ⟨hlen, -⟩ := this
        rw [List.length_append, List.length_singleton] at hlen
        omega
      subst hn'
      simp only [List.getElem?_concat_length, Option.some.injEq] at hy
      rw [Function.update_self, hy]

/-- Taking the oldest entry reads what was put. -/
theorem take (h : RingHolds size slot log taken)
    (hne : taken < log.length) :
    RingHolds size slot log (taken + 1) where
  taken_le := hne
  fits := by have := h.fits; omega
  slot_eq := fun n x hn hx => h.slot_eq n x (by omega) hx

/-- The slot under the consumer holds the oldest untaken entry. -/
theorem oldest (h : RingHolds size slot log taken)
    (hne : taken < log.length) :
    log[taken]? = some (slot (taken % size)) := by
  have hx := List.getElem?_eq_getElem hne
  rw [hx, h.slot_eq taken _ (Nat.le_refl _) hx]

/-- The entries taken so far are a prefix, and one more is the
oldest. -/
theorem take_succ (h : RingHolds size slot log taken)
    (hne : taken < log.length) :
    log.take (taken + 1) = log.take taken ++ [slot (taken % size)] := by
  rw [List.take_add_one, h.oldest hne]
  rfl

end RingHolds

-- ====================================================== bounded positions

/-- The entries `xs` are in the slots from `start` on. -/
def LiesFrom (size : Nat) (slot : Nat → α) (start : Nat) (xs : List α) :
    Prop :=
  ∀ i x, xs[i]? = some x → slot ((start + i) % size) = x

/-- The next position, put back to zero at the end of the ring. -/
theorem succ_mod {size n : Nat} (hn : n < size) :
    (n + 1) % size = if n + 1 = size then 0 else n + 1 := by
  split
  next heq => rw [heq, Nat.mod_self]
  next hne => exact Nat.mod_eq_of_lt (by omega)

namespace LiesFrom

variable {size start : Nat} {slot : Nat → α} {xs : List α} {x : α}

/-- Nothing lies anywhere: an empty queue, wherever its start is. -/
theorem nil (size : Nat) (slot : Nat → α) (start : Nat) :
    LiesFrom size slot start [] := fun i x h => by simp at h

/-- An entry put behind the others. -/
theorem put (h : LiesFrom size slot start xs) (hroom : xs.length < size)
    (x : α) :
    LiesFrom size
      (Function.update slot ((start + xs.length) % size) x) start
      (xs ++ [x]) := by
  intro i y hy
  rcases Nat.lt_trichotomy i xs.length with hlt | heq | hgt
  · have hne : (start + i) % size ≠ (start + xs.length) % size :=
      slot_ne (by omega) (by omega)
    rw [List.getElem?_append_left hlt] at hy
    rw [Function.update_of_ne hne]
    exact h i y hy
  · rw [heq, List.getElem?_concat_length, Option.some.injEq] at hy
    rw [heq, Function.update_self, hy]
  · have hnone : (xs ++ [x])[i]? = none :=
      List.getElem?_eq_none (by rw [List.length_append]; exact hgt)
    rw [hnone] at hy
    cases hy

/-- The first entry is in the first slot. -/
theorem first (h : LiesFrom size slot start (x :: xs))
    (hstart : start < size) : slot start = x := by
  have hx := h 0 x rfl
  rwa [Nat.add_zero, Nat.mod_eq_of_lt hstart] at hx

/-- Behind the first entry. -/
theorem rest (h : LiesFrom size slot start (x :: xs)) :
    LiesFrom size slot ((start + 1) % size) xs := by
  intro i y hy
  have hslot := h (i + 1) y (by simpa using hy)
  have hpos : ((start + 1) % size + i) % size = (start + (i + 1)) % size := by
    rw [Nat.mod_add_mod]
    congr 1
    omega
  rw [hpos, hslot]

end LiesFrom

end ProjectsLibs.Lib
