/-
The ring buffer is a queue that loses whole buffers.

After `n` characters the slot `n % size` is zero, and each of the last
`size - 1` characters is in its slot (`Slots`). That is all that is needed
of the region: of the characters of one slot the receiver sees the last,
and if that is `size` characters old, its slot is the one that is zero.

# How a poll is explained

A character is known by its number. The receiver waits for number `next`,
and looks at the slot of that number; what it finds there is the last
character that was sent to the slot, whose number differs from `next` by
whole laps (`lastOf`). If there is none in the last lap, the slot is the
one that the sender has zeroed. So a poll takes the number it finds and
goes on with the next one, and everything between was overwritten.

The invariant has the region as a function of what was sent, and the
history of polls as a list with the numbers taken. A call of the sender
changes two slots, a call of the receiver none.
-/
import Mathlib.Data.List.Basic
import Mathlib.Data.Nat.ModEq
import ProjectsLibs.Ringbuffer.Basic

namespace ProjectsLibs.Ringbuffer

open Lib

variable {size next n : Nat} {sent : List UInt8} {base : Region}

-- ========================================================== arithmetic

/-- The last of `n` characters that goes to the slot of `next`. -/
def lastOf (size next n : Nat) : Nat :=
  next + size * ((n - 1 - next) / size)

/-- The last character that went to a slot went to that slot. -/
theorem lastOf_mod : lastOf size next n % size = next % size :=
  Nat.add_mul_mod_self_left next size _

/-- It is whole laps behind the one that was to be read. -/
theorem dvd_lastOf_sub : size ∣ lastOf size next n - next := by
  unfold lastOf
  rw [Nat.add_sub_cancel_left]
  exact Nat.dvd_mul_right size _

theorem le_lastOf : next ≤ lastOf size next n := Nat.le_add_right ..

theorem lastOf_lt (size : Nat) (h : next < n) : lastOf size next n < n := by
  have hle : size * ((n - 1 - next) / size) ≤ n - 1 - next :=
    Nat.mul_div_le ..
  unfold lastOf
  omega

/-- And there is none behind it: one lap on would be a character that has
not been sent. -/
theorem lt_lastOf_add (next n : Nat) (hsize : 0 < size) :
    n ≤ lastOf size next n + size := by
  have hlt := Nat.lt_mul_div_succ (n - 1 - next) hsize
  rw [Nat.mul_succ] at hlt
  unfold lastOf
  omega

/-- No later character goes to the slot. -/
theorem le_lastOf_of_mod {j : Nat} (hsize : 0 < size) (hj : j < n)
    (hmod : j % size = next % size) : j ≤ lastOf size next n := by
  by_contra hlt
  have hbound := lt_lastOf_add next n hsize
  have hmod' : j % size = lastOf size next n % size := by
    rw [hmod, lastOf_mod]
  have hdvd : size ∣ j - lastOf size next n :=
    (Nat.modEq_iff_dvd' (Nat.le_of_not_le hlt)).1 hmod'.symm
  have hle := Nat.le_of_dvd (by omega) hdvd
  omega

-- ========================================================== the region

/-- The slot of the next character is zero, and the last characters are in
their slots. -/
structure Slots (size : Nat) (sent : List UInt8) (base : Region) :
    Prop where
  zero : base (sent.length % size) = 0
  recent : ∀ k < sent.length, sent.length < k + size →
    sent[k]? = some (base (k % size))

/-- What is in a slot that the receiver looks at. -/
theorem Slots.at_next (h : Slots size sent base) (hsize : 0 < size)
    (hnext : next ≤ sent.length)
    (hmod : sent.length % size ≠ next % size) :
    lastOf size next sent.length < sent.length
      ∧ sent[lastOf size next sent.length]? = some (base (next % size)) := by
  have hlt : next < sent.length := by
    apply Nat.lt_of_le_of_ne hnext
    rintro rfl
    exact hmod rfl
  have hk := lastOf_lt size hlt
  refine ⟨hk, ?_⟩
  have hslot : lastOf size next sent.length % size = next % size :=
    lastOf_mod
  rw [← hslot]
  apply h.recent _ hk
  apply Nat.lt_of_le_of_ne (lt_lastOf_add _ _ hsize)
  intro heq
  apply hmod
  rw [heq, Nat.add_mod_right, lastOf_mod]

/-- The slot behind one of the last characters is another one. -/
theorem mod_ne {k : Nat} (hk : k < n) (hn : n < k + size) :
    k % size ≠ n % size := by
  intro hmod
  have hdvd : size ∣ n - k := (Nat.modEq_iff_dvd' (Nat.le_of_lt hk)).1 hmod
  have hle := Nat.le_of_dvd (by omega) hdvd
  omega

/-- A character is sent. -/
theorem Slots.transmit (h : Slots size sent base) (hsize : 2 ≤ size)
    (c : UInt8) :
    Slots size (sent ++ [c]) (Function.update (Function.update base
      ((sent.length + 1) % size) 0) (sent.length % size) c) := by
  have hne : (sent.length + 1) % size ≠ sent.length % size :=
    (mod_ne (Nat.lt_succ_self _) (by omega)).symm
  constructor
  · rw [List.length_append, List.length_singleton,
      Function.update_of_ne hne, Function.update_self]
  · intro k hk hrecent
    rw [List.length_append, List.length_singleton] at hk hrecent
    rcases Nat.lt_succ_iff_lt_or_eq.1 hk with hlt | heq
    · have hne₁ : k % size ≠ sent.length % size := mod_ne hlt (by omega)
      have hne₂ : k % size ≠ (sent.length + 1) % size := mod_ne hk hrecent
      rw [List.getElem?_append_left hlt, Function.update_of_ne hne₁,
        Function.update_of_ne hne₂]
      exact h.recent k hlt (by omega)
    · rw [heq, Function.update_self]
      simp

-- =========================================================== the history

variable {ps : List Poll} {p : Poll}

/-- The last character of a slot stays the last while others are sent to
other slots. -/
theorem LastSent.append {k : Nat} (h : LastSent size sent p k) (c : UInt8) :
    LastSent size (sent ++ [c]) p k := by
  refine ⟨h.lt, h.slot, h.last, ?_⟩
  have hlt := (List.getElem?_eq_some_iff.1 h.result).1
  rw [List.getElem?_append_left hlt]
  exact h.result

/-- What polls have taken so far is not changed by what is sent later. -/
theorem Takes.append (h : Takes size sent ps next) (c : UInt8) :
    Takes size (sent ++ [c]) ps next := by
  induction h with
  | nil => exact .nil
  | zero _ hle hmod hres hafter ih => exact ih.zero hle hmod hres hafter
  | char _ hmod hres hlast hle hdvd ih =>
      exact ih.char hmod hres (hlast.append c) hle hdvd

/-- A poll that finds nothing receives nothing. -/
theorem received_append_zero (hres : p.result = 0) :
    received (ps ++ [p]) = received ps := by
  simp [received, hres]

/-- A poll that finds a character receives it behind those that came
before. -/
theorem received_append_char (hres : p.result ≠ 0) :
    received (ps ++ [p]) = received ps ++ [p.result] := by
  simp [received, hres]

/-- A reader that keeps up has done so in every beginning of the run. -/
theorem KeepsUp.front (h : KeepsUp size (ps ++ [p])) : KeepsUp size ps := by
  intro front q back heq
  exact h front q (back ++ [p]) (by rw [heq]; simp)

/-- Where an element of a list with one more is. -/
theorem split_concat {α : Type} {l front back : List α} {x y : α}
    (h : l ++ [x] = front ++ y :: back) :
    (l = front ∧ x = y) ∨ ∃ back', l = front ++ y :: back' := by
  rcases List.eq_nil_or_concat back with rfl | ⟨back', z, rfl⟩
  · obtain ⟨hl, hx⟩ := List.append_inj' h rfl
    exact .inl ⟨hl, List.singleton_inj.1 hx⟩
  · rw [List.concat_eq_append, ← List.cons_append,
      ← List.append_assoc] at h
    exact .inr ⟨back', (List.append_inj' h rfl).1⟩

/-- A receiver that keeps up misses nothing. -/
theorem Takes.keepsUp (h : Takes size sent ps next) (hup : KeepsUp size ps) :
    (received ps).length = next ∧ received ps = sent.take next
      ∧ ∀ front p back, ps = front ++ p :: back → p.result = 0 →
        p.sent = (received front).length := by
  induction h with
  | nil =>
      refine ⟨rfl, rfl, fun front p back heq => ?_⟩
      simp at heq
  | @zero ps p next _ hle hmod hres hafter ih =>
      obtain ⟨hlen, htake, hnone⟩ := ih hup.front
      rw [received_append_zero hres]
      refine ⟨hlen, htake, ?_⟩
      intro front q back heq hq
      rcases split_concat heq with ⟨rfl, rfl⟩ | ⟨back', heq'⟩
      · have hbound := hup ps p [] rfl
        rw [hlen] at hbound ⊢
        by_contra hne
        have hlt : next < p.sent := Nat.lt_of_le_of_ne hle (Ne.symm hne)
        exact mod_ne hlt (by omega) hmod.symm
      · exact hnone front q back' heq' hq
  | @char ps p next k _ hmod hres hlast hle hdvd ih =>
      obtain ⟨hlen, htake, hnone⟩ := ih hup.front
      have hbound := hup ps p [] rfl
      rw [hlen] at hbound
      have hlt := hlast.lt
      -- a whole buffer behind would be too far
      have hk : k = next := by
        by_contra hne
        have hge := Nat.le_of_dvd (by omega) hdvd
        omega
      subst hk
      rw [received_append_char hres]
      refine ⟨?_, ?_, ?_⟩
      · rw [List.length_append, hlen, List.length_singleton]
      · rw [htake, List.take_add_one, hlast.result]
        rfl
      · intro front q back heq hq
        rcases split_concat heq with ⟨rfl, rfl⟩ | ⟨back', heq'⟩
        · exact absurd hq hres
        · exact hnone front q back' heq' hq

-- ============================================================== the line

/-- The two sides: the receiver waits for the character `next`. -/
structure LineInv (size : Nat) (s : Line) (next : Nat) : Prop where
  slots : Slots size s.sent s.base
  sender : s.sender = ⟨size, s.sent.length % size⟩
  receiver : s.receiver = ⟨size, next % size⟩
  next_le : next ≤ s.sent.length
  nonzero : ∀ c ∈ s.sent, c ≠ 0
  takes : Takes size s.sent s.polls next

/-- A zeroed region, in which every slot has its null. -/
theorem slots_nil (hbase : ∀ i < size, base i = 0) (hsize : 2 ≤ size) :
    Slots size [] base := by
  constructor
  · exact hbase _ (Nat.mod_lt _ (by omega))
  · nofun

theorem LineInit.inv {s : Line} (h : LineInit size s) (hsize : 2 ≤ size) :
    LineInv size s 0 := by
  constructor
  · rw [h.sent]
    exact slots_nil h.base hsize
  · rw [h.sender, h.sent]
    simp [rbNew]
  · rw [h.receiver]
    simp [rbNew]
  · exact Nat.zero_le _
  · rw [h.sent]
    nofun
  · rw [h.polls]
    exact .nil

/-- The slot behind the one of `n`. -/
theorem next_mod (size n : Nat) :
    Ringbuffer.next ⟨size, n % size⟩ = (n + 1) % size := by
  show (n % size + 1) % size = (n + 1) % size
  exact Nat.mod_add_mod n size 1

/-- A call of the sender. -/
theorem LineInv.transmit {s s' : Line} (h : LineInv size s next)
    (hsize : 2 ≤ size) {c : UInt8}
    (hstep : lineStep s (.transmit c) = some s') :
    LineInv size s' next := by
  by_cases hc : c = 0
  · simp only [lineStep, rbTransmitByte, hc, if_true,
      Option.some.injEq] at hstep
    subst hstep
    exact ⟨h.slots, h.sender, h.receiver, h.next_le, h.nonzero, h.takes⟩
  · simp only [lineStep, rbTransmitByte, hc, if_false, h.sender, next_mod,
      Option.some.injEq] at hstep
    subst hstep
    constructor
    · exact h.slots.transmit hsize c
    · simp
    · exact h.receiver
    · simp only [List.length_append]
      exact Nat.le_add_right_of_le h.next_le
    · intro d hd
      rcases List.mem_append.1 hd with hd | hd
      · exact h.nonzero d hd
      · rw [List.mem_singleton.1 hd]
        exact hc
    · exact h.takes.append c

/-- The character that a poll finds. -/
theorem Slots.lastSent (h : Slots size sent base) (hsize : 2 ≤ size)
    (hnext : next ≤ sent.length) (hmod : sent.length % size ≠ next % size)
    (after : Nat) :
    LastSent size sent ⟨sent.length, next % size, after,
      base (next % size)⟩ (lastOf size next sent.length) := by
  have hpos : 0 < size := by omega
  obtain ⟨hlt, hchar⟩ := h.at_next hpos hnext hmod
  refine ⟨hlt, lastOf_mod, ?_, hchar⟩
  exact fun j hj hslot => le_lastOf_of_mod hpos hj hslot

/-- A call of the receiver. -/
theorem LineInv.poll {s s' : Line} (h : LineInv size s next)
    (hsize : 2 ≤ size) (hstep : lineStep s .poll = some s') :
    ∃ next', LineInv size s' next' := by
  by_cases hmod : s.sent.length % size = next % size
  · -- the slot is the one that is zero
    have hzero : s.base (next % size) = 0 := hmod ▸ h.slots.zero
    refine ⟨next, ?_⟩
    simp only [lineStep, rbPollByte, h.receiver, hzero, ne_eq, not_true,
      if_false, Option.some.injEq] at hstep
    subst hstep
    refine ⟨h.slots, h.sender, rfl, h.next_le, h.nonzero, ?_⟩
    exact h.takes.zero h.next_le hmod rfl rfl
  · have hlast := h.slots.lastSent hsize h.next_le hmod
      ((next + 1) % size)
    have hmem := List.mem_of_getElem? hlast.result
    have hchar : s.base (next % size) ≠ 0 := h.nonzero _ hmem
    refine ⟨lastOf size next s.sent.length + 1, ?_⟩
    simp only [lineStep, rbPollByte, h.receiver, hchar, ne_eq,
      not_false_eq_true, if_true, next_mod, Option.some.injEq] at hstep
    subst hstep
    refine ⟨h.slots, h.sender, ?_, hlast.lt, h.nonzero, ?_⟩
    · rw [Nat.add_mod, Nat.add_mod (lastOf size next s.sent.length),
        lastOf_mod]
    · exact h.takes.char hmod hchar hlast le_lastOf dvd_lastOf_sub

/-- The invariant holds in every interleaving of writes and polls, for the
next character that is to be read. -/
theorem reachable_inv (hsize : 2 ≤ size) {s : Line}
    (h : Reachable (LineInit size) lineStep anyStep s) :
    ∃ next, LineInv size s next := by
  apply Reachable.invariant _ _ h
  · exact fun s hinit => ⟨0, hinit.inv hsize⟩
  · rintro s op s' ⟨next, hinv⟩ - hstep
    cases op with
    | transmit c => exact ⟨next, hinv.transmit hsize hstep⟩
    | poll => exact hinv.poll hsize hstep

/-- The lossy queue: every poll takes the last character of its slot, with
whole buffers missed before it, or none if the slot is the next that the
sender writes; and a receiver that keeps up gets what was sent. -/
theorem lossy_fifo (hsize : 2 ≤ size) {s : Line}
    (h : Reachable (LineInit size) lineStep anyStep s) :
    (∃ next, Takes size s.sent s.polls next)
      ∧ (KeepsUp size s.polls → InSequence s.sent s.polls) := by
  obtain ⟨next, hinv⟩ := reachable_inv hsize h
  refine ⟨⟨next, hinv.takes⟩, fun hup => ?_⟩
  obtain ⟨hlen, htake, hnone⟩ := hinv.takes.keepsUp hup
  refine ⟨?_, hnone⟩
  rw [hlen]
  exact htake

/-- Both sides at the start. -/
def newLine (size : Nat) : Line where
  base _ := 0
  sender := rbNew size
  receiver := rbNew size
  sent := []
  polls := []

/-- A region as both ends find it, zeroed by one of them. -/
theorem newLine_init (size : Nat) : LineInit size (newLine size) :=
  ⟨fun _ _ => rfl, rfl, rfl, rfl, rfl⟩

/-- A buffer of two slots: the receiver misses two characters, and then
has none to take. -/
theorem lossy_fifo_sample :
    ∃ s, run lineStep (newLine 2) [.transmit 7, .transmit 8, .transmit 9,
        .poll, .poll] = some s
      ∧ s.polls.map Poll.result = [9, 0]
      ∧ ∃ next, Takes 2 s.sent s.polls next := by
  have hany : (run lineStep (newLine 2) [.transmit 7, .transmit 8,
      .transmit 9, .poll, .poll]).any (fun s =>
        decide (s.polls.map Poll.result = [9, 0])) = true := by decide
  obtain ⟨s, hrun, hbool⟩ := (Option.any_eq_true ..).1 hany
  have hs : Reachable (LineInit 2) lineStep anyStep s :=
    (Reachable.init (newLine_init 2)).run hrun
  exact ⟨s, hrun, of_decide_eq_true hbool,
    (lossy_fifo (Nat.le_refl 2) hs).1⟩

end ProjectsLibs.Ringbuffer
