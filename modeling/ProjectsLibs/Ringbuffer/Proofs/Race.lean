/-
The two sides run at the same time. `rb_poll_byte` reads its slot twice,
and the second load is the one that counts: it finds a zero exactly if the
sender has come around to the slot in between (`RaceOk`). The poll then
returns without a character, and the receiver has left the slot.

# Between the accesses

A call of the sender is two stores and a call of the receiver two loads,
and each is a step. The invariant has a case for each place where a side
can be. The slot that the receiver waits at holds the next character, or
a null if there is none yet; once it has looked, the sender may go on,
and what matters is whether it comes around to the same slot. As the
sender always puts a null into the slot behind the one that it writes, it
reaches the slot with the null first, and a receiver that loads just then
finds it.

What is missed is counted in laps of the buffer: a poll that comes late
misses whole laps and the next is in step again, and a poll that leaves
its slot without a character misses one alone (`not_wholeLaps`). The
condition is about each second load, so both directions follow the run
step by step.
-/
import ProjectsLibs.Ringbuffer.Proofs.Lossy

namespace ProjectsLibs.Ringbuffer

open Lib

variable {size next : Nat} {s s' : Race}

-- =========================================================== the calls

/-- The two stores without a break are `rb_transmit_byte`. -/
theorem run_stores (hidle : s.sending = .idle) {c : UInt8} (hc : c ≠ 0) :
    run raceStep s [.storeZero c, .storeChar] = some { s with
      base := (rbTransmitByte s.sender s.base c).2
      sender := (rbTransmitByte s.sender s.base c).1
      sent := s.sent ++ [c] } := by
  simp [run, raceStep, rbTransmitByte, hidle, hc]

/-- The two loads without a break are `rb_poll_byte`, when there is a
character. -/
theorem run_loads (hidle : s.polling = .idle)
    (hchar : s.base s.receiver.offset ≠ 0) :
    run raceStep s [.loadTest, .loadChar] = some { s with
      receiver := (rbPollByte s.receiver s.base).2
      polls := s.polls ++ [s.poll (rbPollByte s.receiver s.base).1
        (rbPollByte s.receiver s.base).2.offset] } := by
  simp [run, raceStep, rbPollByte, hidle, hchar, Race.poll]

-- ============================================================ invariant

/-- The two sides between their accesses: the receiver waits for the
character `next`. The slot that the sender has zeroed has no character. -/
structure RaceInv (size : Nat) (s : Race) (next : Nat) : Prop where
  sender : s.sender = ⟨size, s.sent.length % size⟩
  receiver : s.receiver = ⟨size, next % size⟩
  next_le : next ≤ s.sent.length
  nonzero : ∀ c ∈ s.sent, c ≠ 0
  sending : ∀ c, s.sending = .zeroed c → c ≠ 0
  zero : s.base (s.sent.length % size) = 0
  zeroed : s.sending ≠ .idle → s.base ((s.sent.length + 1) % size) = 0
  recent : ∀ k < s.sent.length, s.sent.length < k + size →
    (s.sending ≠ .idle → s.sent.length + 1 < k + size) →
    s.sent[k]? = some (s.base (k % size))
  tested : s.polling = .tested → next < s.sent.length
  laps : WholeLaps size s.sent s.polls next

theorem RaceInit.inv (h : RaceInit size s) (hsize : 2 ≤ size) :
    RaceInv size s 0 := by
  constructor
  · rw [h.sender, h.sent]
    simp [rbNew]
  · rw [h.receiver]
    simp [rbNew]
  · exact Nat.zero_le _
  · rw [h.sent]
    simp
  · intro c hc
    rw [h.sending] at hc
    cases hc
  · exact h.base _ (Nat.mod_lt _ (by omega))
  · exact fun hne => absurd h.sending hne
  · rw [h.sent]
    simp
  · intro ht
    rw [h.polling] at ht
    cases ht
  · rw [h.polls]
    exact .nil

/-- Characters that are sent later do not change by how much polls that are
over were late. -/
theorem WholeLaps.append {sent : List UInt8} {ps : List Poll}
    (h : WholeLaps size sent ps next) (c : UInt8) :
    WholeLaps size (sent ++ [c]) ps next := by
  induction h with
  | nil => exact .nil
  | zero _ hres hafter ih => exact ih.zero hres hafter
  | char _ hres hlast hle hdvd ih =>
      exact ih.char hres (hlast.append c) hle hdvd

/-- A poll that leaves its slot without a character. -/
theorem not_wholeLaps {sent : List UInt8} {ps : List Poll} {p : Poll}
    (hres : p.result = 0) (hafter : p.after ≠ p.before) :
    ¬WholeLaps size sent (ps ++ [p]) next := by
  intro h
  generalize hps : ps ++ [p] = qs at h
  cases h with
  | nil => simp at hps
  | zero _ _ hafter' =>
      rw [(List.append_inj' hps rfl).2 |> List.singleton_inj.1] at hafter
      exact hafter hafter'
  | char _ hres' =>
      rw [(List.append_inj' hps rfl).2 |> List.singleton_inj.1] at hres
      exact hres' hres

-- ============================================================ the sender

/-- The writer's first store: the null goes to the slot behind the one that
is written next, which the reader may be about to read. -/
theorem RaceInv.storeZero (h : RaceInv size s next) (hsize : 2 ≤ size)
    {c : UInt8} (hstep : raceStep s (.storeZero c) = some s') :
    RaceInv size s' next := by
  simp only [raceStep] at hstep
  split_ifs at hstep with hidle
  rw [h.sender, next_mod, Option.some.injEq] at hstep
  subst hstep
  have hne : s.sent.length % size ≠ (s.sent.length + 1) % size :=
    mod_ne (Nat.lt_succ_self _) (by omega)
  constructor
  · rfl
  · exact h.receiver
  · exact h.next_le
  · exact h.nonzero
  · intro d hd
    cases hd
    exact hidle.2
  · simp only [Function.update_of_ne hne]
    exact h.zero
  · intro _
    simp only [Function.update_self]
  · intro k hk hrecent hsend
    have hbound : s.sent.length + 1 < k + size := hsend nofun
    have hne' : k % size ≠ (s.sent.length + 1) % size :=
      mod_ne (Nat.lt_succ_of_lt hk) hbound
    simp only [Function.update_of_ne hne']
    exact h.recent k hk hrecent fun hbusy => absurd hidle.1 hbusy
  · exact h.tested
  · exact h.laps

/-- The second store: the character becomes visible, and the count of what
is sent goes up. -/
theorem RaceInv.storeChar (h : RaceInv size s next)
    (hsize : 2 ≤ size) (hstep : raceStep s .storeChar = some s') :
    RaceInv size s' next := by
  simp only [raceStep] at hstep
  cases hsend : s.sending with
  | idle =>
      rw [hsend] at hstep
      cases hstep
  | zeroed c =>
      rw [hsend, h.sender] at hstep
      simp only [next_mod, Option.some.injEq] at hstep
      subst hstep
      have hbusy : s.sending ≠ .idle := by
        rw [hsend]
        exact nofun
      have hne : (s.sent.length + 1) % size ≠ s.sent.length % size :=
        (mod_ne (Nat.lt_succ_self _) (by omega)).symm
      constructor
      · simp
      · exact h.receiver
      · simp only [List.length_append]
        exact Nat.le_add_right_of_le h.next_le
      · intro d hd
        rcases List.mem_append.1 hd with hd | hd
        · exact h.nonzero d hd
        · rw [List.mem_singleton.1 hd]
          exact h.sending c hsend
      · nofun
      · simp only [List.length_append, List.length_singleton,
          Function.update_of_ne hne]
        exact h.zeroed hbusy
      · exact fun hne => absurd rfl hne
      · intro k hk hrecent _
        simp only [List.length_append, List.length_singleton] at hk hrecent
        rcases Nat.lt_succ_iff_lt_or_eq.1 hk with hlt | heq
        · have hne₁ : k % size ≠ s.sent.length % size :=
            mod_ne hlt (by omega)
          simp only [List.getElem?_append_left hlt,
            Function.update_of_ne hne₁]
          exact h.recent k hlt (by omega) fun _ => hrecent
        · simp [heq]
      · intro ht
        simp only [List.length_append]
        exact Nat.lt_add_right _ (h.tested ht)
      · exact h.laps.append c

-- ========================================================== the receiver

/-- The reader's first load. What it has seen may be overwritten before the
second, and the invariant says by what. -/
theorem RaceInv.loadTest (h : RaceInv size s next)
    (hstep : raceStep s .loadTest = some s') : RaceInv size s' next := by
  simp only [raceStep] at hstep
  split_ifs at hstep with hidle hchar
  · cases hstep
    refine ⟨h.sender, h.receiver, h.next_le, h.nonzero, h.sending, h.zero,
      h.zeroed, h.recent, fun _ => ?_, h.laps⟩
    apply Nat.lt_of_le_of_ne h.next_le
    intro heq
    apply hchar
    rw [h.receiver]
    show s.base (next % size) = 0
    rw [heq]
    exact h.zero
  · cases hstep
    exact ⟨h.sender, h.receiver, h.next_le, h.nonzero, h.sending, h.zero,
      h.zeroed, h.recent, h.tested, h.laps.zero rfl rfl⟩

/-- The state after the second load. -/
theorem loadChar_eq (h : RaceInv size s next)
    (hstep : raceStep s .loadChar = some s') :
    next < s.sent.length ∧ s' = { s with
      receiver := ⟨size, (next + 1) % size⟩
      polling := .idle
      polls := s.polls ++ [⟨s.sent.length, next % size, (next + 1) % size,
        s.base (next % size)⟩] } := by
  simp only [raceStep] at hstep
  split_ifs at hstep with htested
  refine ⟨h.tested htested, ?_⟩
  rw [Option.some.injEq] at hstep
  rw [← hstep]
  simp only [Race.poll, h.receiver, next_mod]

/-- The sender has not come around: the slot has a character. -/
theorem RaceInv.loadChar (h : RaceInv size s next) (hsize : 2 ≤ size)
    (hok : RaceOk s .loadChar) (hstep : raceStep s .loadChar = some s') :
    ∃ next', RaceInv size s' next' := by
  obtain ⟨hlt, rfl⟩ := loadChar_eq h hstep
  obtain ⟨hoff, hbusy⟩ := hok
  rw [h.receiver, h.sender] at hoff
  rw [h.receiver, h.sender, next_mod] at hbusy
  have hmod : s.sent.length % size ≠ next % size := Ne.symm hoff
  have hpos : 0 < size := by omega
  have hk := lastOf_lt size hlt
  have hslot : lastOf size next s.sent.length % size = next % size :=
    lastOf_mod
  have hle := lt_lastOf_add next s.sent.length hpos
  -- the last character of the slot is not the one that is overwritten
  have hrecent : s.sent.length < lastOf size next s.sent.length + size := by
    apply Nat.lt_of_le_of_ne hle
    intro heq
    apply hmod
    rw [heq, Nat.add_mod_right]
    exact hslot
  have hbehind : s.sending ≠ .idle →
      s.sent.length + 1 < lastOf size next s.sent.length + size := by
    intro hsend
    apply Nat.lt_of_le_of_ne hrecent
    intro heq
    apply hbusy hsend
    have hnext : s.sent.length + 1 = lastOf size next s.sent.length + size :=
      heq
    show next % size = (s.sent.length + 1) % size
    rw [hnext, Nat.add_mod_right, hslot]
  have hchar := h.recent _ hk hrecent hbehind
  rw [hslot] at hchar
  refine ⟨lastOf size next s.sent.length + 1, h.sender, ?_, hk, h.nonzero,
    h.sending, h.zero, h.zeroed, h.recent, nofun, ?_⟩
  · simp only [Ringbuffer.mk.injEq, true_and]
    rw [Nat.add_mod, Nat.add_mod (lastOf size next s.sent.length), hslot]
  · apply h.laps.char _ _ le_lastOf dvd_lastOf_sub
    · exact h.nonzero _ (List.mem_of_getElem? hchar)
    · refine ⟨hk, hslot, ?_, hchar⟩
      exact fun j hj hjslot => le_lastOf_of_mod hpos hj hjslot

/-- The sender has come around: the poll loses its slot. -/
theorem RaceInv.loadChar_bad (h : RaceInv size s next) (hsize : 2 ≤ size)
    (hok : ¬RaceOk s .loadChar) (hstep : raceStep s .loadChar = some s') :
    ¬NoneMissedAlone size s' := by
  obtain ⟨hlt, rfl⟩ := loadChar_eq h hstep
  have hzero : s.base (next % size) = 0 := by
    unfold RaceOk at hok
    rw [h.receiver, h.sender, next_mod] at hok
    by_cases hoff : next % size = s.sent.length % size
    · rw [hoff]
      exact h.zero
    · have hbusy : ¬(s.sending ≠ .idle →
          next % size ≠ (s.sent.length + 1) % size) :=
        fun himp => hok ⟨hoff, himp⟩
      push Not at hbusy
      rw [hbusy.2]
      exact h.zeroed hbusy.1
  rintro ⟨next', hlaps⟩
  refine not_wholeLaps hzero ?_ hlaps
  exact (mod_ne (Nat.lt_succ_self next) (by omega)).symm

-- ================================================================== runs

/-- No character is missed alone in a run exactly if the sender does not
come around to the receiver's slot before it has loaded the character. -/
theorem none_missed_alone (hsize : 2 ≤ size) {ops : List RaceOp}
    (hinit : RaceInit size s) (hrun : run raceStep s ops = some s') :
    Always raceStep (NoneMissedAlone size) s ops
      ↔ AllSteps raceStep RaceOk s ops := by
  apply always_iff_of_good (J := fun s => ∃ next, RaceInv size s next) _ _ _
    ⟨0, hinit.inv hsize⟩ hrun
  · rintro t ⟨next, h⟩
    exact ⟨next, h.laps⟩
  · rintro t op t' ⟨next, h⟩ hok hstep
    cases op with
    | storeZero c => exact ⟨next, h.storeZero hsize hstep⟩
    | storeChar => exact ⟨next, h.storeChar hsize hstep⟩
    | loadTest => exact ⟨next, h.loadTest hstep⟩
    | loadChar => exact h.loadChar hsize hok hstep
  · rintro t op t' ⟨next, h⟩ hok hstep
    cases op with
    | loadChar => exact h.loadChar_bad hsize hok hstep
    | _ => exact absurd trivial hok

/-- Both sides at the start. -/
def newRace (size : Nat) : Race where
  base _ := 0
  sender := rbNew size
  sending := .idle
  receiver := rbNew size
  polling := .idle
  sent := []
  polls := []

/-- A zeroed region with both ends at its start. -/
theorem newRace_init (size : Nat) : RaceInit size (newRace size) :=
  ⟨fun _ _ => rfl, rfl, rfl, rfl, rfl, rfl, rfl⟩

/-- The loads of a poll around a whole call of the sender. -/
theorem none_missed_alone_sample :
    (run raceStep (newRace 3) [.storeZero 7, .storeChar, .loadTest,
        .storeZero 8, .storeChar, .loadChar]).isSome
      ∧ Always raceStep (NoneMissedAlone 3) (newRace 3)
        [.storeZero 7, .storeChar, .loadTest, .storeZero 8, .storeChar,
          .loadChar] := by
  have hsome : (run raceStep (newRace 3) [.storeZero 7, .storeChar,
      .loadTest, .storeZero 8, .storeChar, .loadChar]).isSome := by decide
  obtain ⟨s', hrun⟩ := Option.isSome_iff_exists.1 hsome
  refine ⟨hsome, (none_missed_alone (by decide) (newRace_init 3) hrun).2 ?_⟩
  decide

/-- In a buffer of two slots the sender zeroes the slot between the two
loads: the poll returns 0, the receiver goes on, and of the characters 7
and 8 it gets the second only. -/
theorem one_missed_alone :
    ∃ s s', run raceStep (newRace 2) [.storeZero 7, .storeChar, .loadTest,
        .storeZero 8, .loadChar] = some s
      ∧ s.polls.map Poll.result = [0] ∧ s.receiver.offset = 1
      ∧ ¬NoneMissedAlone 2 s
      ∧ run raceStep s [.storeChar, .loadTest, .loadChar] = some s'
      ∧ s'.sent = [7, 8] ∧ s'.polls.map Poll.result = [0, 8] := by
  have hany : (run raceStep (newRace 2) [.storeZero 7, .storeChar,
      .loadTest, .storeZero 8, .loadChar]).any (fun s =>
        (run raceStep s [.storeChar, .loadTest, .loadChar]).any fun s' =>
          decide (s.polls = [⟨1, 0, 1, 0⟩] ∧ s.receiver.offset = 1
            ∧ s'.sent = [7, 8] ∧ s'.polls.map Poll.result = [0, 8]))
      = true := by decide
  obtain ⟨s, hrun, hany'⟩ := (Option.any_eq_true ..).1 hany
  obtain ⟨s', hrun', hbool⟩ := (Option.any_eq_true ..).1 hany'
  obtain ⟨hpolls, hoff, hsent, hres⟩ := of_decide_eq_true hbool
  refine ⟨s, s', hrun, by rw [hpolls]; rfl, hoff, ?_, hrun', hsent, hres⟩
  rintro ⟨next, hlaps⟩
  rw [hpolls] at hlaps
  have hone : WholeLaps 2 s.sent ([] ++ [⟨1, 0, 1, 0⟩]) next := hlaps
  exact not_wholeLaps rfl (by decide) hone

end ProjectsLibs.Ringbuffer
