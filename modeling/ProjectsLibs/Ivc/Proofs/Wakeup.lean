/-
No notification is lost in an established session (`no_lost_wakeup`).

A direction of the session is looked at by itself (`View`): the two
counters, the endpoint that writes and the one that reads. What its
invariant (`Dir`) adds to the theorem is that nothing has moved since a
check that found the channel empty, or one store has and its test is
still to come: the reader cannot move without a check of its own, so the
test sees exactly one frame. The endpoint's other direction does not
matter (`Dir.writer_other`, `Dir.reader_other`).

# The argument

A writer tests, after it has stored its counter, whether the other side
may have seen the channel empty; if its frame is the only one, it
notifies. A reader that has found the channel empty waits. The two may
interleave in any way, and the statement is that a reader that waits has
a frame announced to it or will have, as soon as there is one. The
invariant speaks of the time since the check that failed: either nothing
was stored since, or exactly one store was and its test is still to come
or has found one frame and notified.

Each of the steps of a writer and of a reader is looked at in one
direction, and the link is two directions in which the same endpoints
have opposite parts. The system of Basic is connected to it at the end.
-/
import ProjectsLibs.Ivc.Proofs.Steps
import ProjectsLibs.Ivc.Wakeup

namespace ProjectsLibs.Ivc

open Lib

-- ======================================================== one direction

/-- One direction of a link. -/
structure View where
  w : UInt32
  r : UInt32
  writer : Agent
  reader : Agent

/-- The invariant of a direction. -/
structure Dir (nframes : UInt32) (v : View) : Prop where
  bound : v.w - v.r ≤ nframes
  room : v.writer.pc = .writeChecked → v.w - v.r < nframes
  unread : v.reader.pc = .readChecked → v.w ≠ v.r
  emptyAt_none : v.reader.pc = .readChecked → v.reader.emptyAt = none
  fullAt_none : v.writer.pc = .writeChecked → v.writer.fullAt = none
  emptyAt_le : ∀ n, v.reader.emptyAt = some n → n ≤ v.writer.notifies
  fullAt_le : ∀ n, v.writer.fullAt = some n → n ≤ v.reader.notifies
  empty : ∀ n, v.reader.emptyAt = some n → n < v.writer.notifies
    ∨ v.w = v.r ∨ (v.writer.pc = .writeStored ∧ v.w - v.r = 1)
  full : ∀ n, v.writer.fullAt = some n → n < v.reader.notifies
    ∨ v.w - v.r = nframes
    ∨ (v.reader.pc = .readStored ∧ v.w - v.r = nframes - 1)

/-- Below another counter there is room for one more without a wrap. -/
theorem succ_le_of_lt {a n : UInt32} (h : a < n) : a + 1 ≤ n := by
  rw [UInt32.lt_iff_toNat_lt] at h
  have hn := n.toNat_lt
  rw [UInt32.le_iff_toNat_le, UInt32.toNat_add]
  show (a.toNat + 1) % 2 ^ 32 ≤ n.toNat
  omega

theorem lt_succ_of_lt {a n : UInt32} (h : a < n) : a < a + 1 := by
  rw [UInt32.lt_iff_toNat_lt] at h
  have hn := n.toNat_lt
  rw [UInt32.lt_iff_toNat_lt, UInt32.toNat_add]
  show a.toNat < (a.toNat + 1) % 2 ^ 32
  omega

/-- A counter that is not zero has a predecessor. -/
theorem pred_lt {a : UInt32} (h : a ≠ 0) : a - 1 < a := by
  have hpos : (1 : UInt32) ≤ a := by
    rw [UInt32.le_iff_toNat_le]
    exact Nat.one_le_iff_ne_zero.2 fun hz => h (UInt32.toNat_inj.1 hz)
  rw [UInt32.lt_iff_toNat_lt, UInt32.toNat_sub_of_le _ _ hpos]
  rw [UInt32.le_iff_toNat_le] at hpos
  exact Nat.sub_lt hpos Nat.one_pos

/-- An endpoint is not between the check and the end of a write. -/
def Agent.notWriting (a : Agent) : Prop :=
  a.pc ≠ .writeChecked ∧ a.pc ≠ .writeStored

/-- Nor of a read. -/
def Agent.notReading (a : Agent) : Prop :=
  a.pc ≠ .readChecked ∧ a.pc ≠ .readStored

namespace Dir

variable {nframes : UInt32} {v : View} {a : Agent}

/-- What the writer does as a reader of the other direction. -/
theorem writer_other (h : Dir nframes v) (hold : v.writer.notWriting)
    (hnew : a.notWriting) (hfull : a.fullAt = v.writer.fullAt)
    (hle : v.writer.notifies ≤ a.notifies) :
    Dir nframes { v with writer := a } where
  bound := h.bound
  room := fun hpc => absurd hpc hnew.1
  unread := h.unread
  emptyAt_none := h.emptyAt_none
  fullAt_none := fun hpc => absurd hpc hnew.1
  emptyAt_le := fun n hn => Nat.le_trans (h.emptyAt_le n hn) hle
  fullAt_le := fun n hn => h.fullAt_le n (hfull.symm.trans hn)
  empty := by
    intro n hn
    rcases h.empty n hn with hlt | heq | ⟨hpc, -⟩
    · exact .inl (Nat.lt_of_lt_of_le hlt hle)
    · exact .inr (.inl heq)
    · exact absurd hpc hold.2
  full := fun n hn => h.full n (hfull.symm.trans hn)

/-- What the reader does as a writer of the other direction. -/
theorem reader_other (h : Dir nframes v) (hold : v.reader.notReading)
    (hnew : a.notReading) (hempty : a.emptyAt = v.reader.emptyAt)
    (hle : v.reader.notifies ≤ a.notifies) :
    Dir nframes { v with reader := a } where
  bound := h.bound
  room := h.room
  unread := fun hpc => absurd hpc hnew.1
  emptyAt_none := fun hpc => absurd hpc hnew.1
  fullAt_none := h.fullAt_none
  emptyAt_le := fun n hn => h.emptyAt_le n (hempty.symm.trans hn)
  fullAt_le := fun n hn => Nat.le_trans (h.fullAt_le n hn) hle
  empty := fun n hn => h.empty n (hempty.symm.trans hn)
  full := by
    intro n hn
    rcases h.full n hn with hlt | heq | ⟨hpc, -⟩
    · exact .inl (Nat.lt_of_lt_of_le hlt hle)
    · exact .inr (.inl heq)
    · exact absurd hpc hold.2

-- ============================================================ the writer

/-- A check for room that fails. -/
theorem check_full (h : Dir nframes v) (hidle : v.writer.pc = .idle)
    (hfull : nframes ≤ v.w - v.r) :
    Dir nframes { v with
      writer := { v.writer with fullAt := some v.reader.notifies } } where
  bound := h.bound
  room := h.room
  unread := h.unread
  emptyAt_none := h.emptyAt_none
  fullAt_none := fun hpc => by
    have hpc' : v.writer.pc = .writeChecked := hpc
    rw [hidle] at hpc'
    cases hpc'
  emptyAt_le := h.emptyAt_le
  fullAt_le := by
    intro n hn
    cases hn
    exact Nat.le_refl _
  empty := h.empty
  full := fun n _ => .inr (.inl (UInt32.le_antisymm h.bound hfull))

/-- A check for room that passes. -/
theorem check_room (h : Dir nframes v) (hidle : v.writer.pc = .idle)
    (hroom : v.w - v.r < nframes) (pc : AdvancePc) :
    Dir nframes { v with
      writer := { v.writer with pc := pc, fullAt := none } } where
  bound := h.bound
  room := fun _ => hroom
  unread := h.unread
  emptyAt_none := h.emptyAt_none
  fullAt_none := fun _ => rfl
  emptyAt_le := h.emptyAt_le
  fullAt_le := fun n hn => by cases hn
  empty := by
    intro n hn
    rcases h.empty n hn with hlt | heq | ⟨hpc, -⟩
    · exact .inl hlt
    · exact .inr (.inl heq)
    · rw [hidle] at hpc
      cases hpc
  full := fun n hn => by cases hn

/-- The store to `w_count`. -/
theorem store_w (h : Dir nframes v) (hpc : v.writer.pc = .writeChecked)
    (ivc : TegraIvc) :
    Dir nframes { v with
      w := v.w + 1
      writer := { v.writer with pc := .writeStored, ivc := ivc } } := by
  have hroom := h.room hpc
  have hsucc : v.w + 1 - v.r = v.w - v.r + 1 := by grind
  refine ⟨?_, ?_, ?_, h.emptyAt_none, ?_, h.emptyAt_le, h.fullAt_le, ?_,
    ?_⟩
  · show v.w + 1 - v.r ≤ nframes
    rw [hsucc]
    exact succ_le_of_lt hroom
  · intro hpc'
    cases hpc'
  · intro hread heq
    have heq' : v.w + 1 = v.r := heq
    have hlt := lt_succ_of_lt hroom
    rw [← hsucc, heq', UInt32.sub_self] at hlt
    exact absurd hlt (UInt32.not_lt.2 (UInt32.zero_le))
  · intro hpc'
    cases hpc'
  · intro n hn
    rcases h.empty n hn with hlt | heq | ⟨hstored, -⟩
    · exact .inl hlt
    · refine .inr (.inr ⟨rfl, ?_⟩)
      show v.w + 1 - v.r = 1
      rw [hsucc, heq, UInt32.sub_self]
      rfl
    · rw [hpc] at hstored
      cases hstored
  · intro n hn
    have hnone := h.fullAt_none hpc
    have hn' : v.writer.fullAt = some n := hn
    rw [hnone] at hn'
    cases hn'

/-- The test after it. -/
theorem test_w (h : Dir nframes v) :
    Dir nframes { v with
      writer := v.writer.return (v.w - v.r == 1) } := by
  have hle : v.writer.notifies
      ≤ (v.writer.return (v.w - v.r == 1)).notifies := by
    unfold Agent.return
    split
    · exact Nat.le_succ _
    · exact Nat.le_refl _
  refine ⟨h.bound, ?_, h.unread, h.emptyAt_none, ?_, ?_, h.fullAt_le, ?_,
    h.full⟩
  · intro hpc'
    cases hpc'
  · intro hpc'
    cases hpc'
  · intro n hn
    exact Nat.le_trans (h.emptyAt_le n hn) hle
  · intro n hn
    rcases h.empty n hn with hlt | heq | ⟨-, hone⟩
    · exact .inl (Nat.lt_of_lt_of_le hlt hle)
    · exact .inr (.inl heq)
    · refine .inl ?_
      have hlast := h.emptyAt_le n hn
      show n < (v.writer.return (v.w - v.r == 1)).notifies
      simp only [Agent.return, hone, beq_self_eq_true, if_true]
      omega

-- ============================================================ the reader

/-- A check for frames that fails. -/
theorem check_empty (h : Dir nframes v) (hidle : v.reader.pc = .idle)
    (hempty : v.w = v.r) :
    Dir nframes { v with
      reader := { v.reader with emptyAt := some v.writer.notifies } } where
  bound := h.bound
  room := h.room
  unread := h.unread
  emptyAt_none := fun hpc => by
    have hpc' : v.reader.pc = .readChecked := hpc
    rw [hidle] at hpc'
    cases hpc'
  fullAt_none := h.fullAt_none
  emptyAt_le := by
    intro n hn
    cases hn
    exact Nat.le_refl _
  fullAt_le := h.fullAt_le
  empty := fun n _ => .inr (.inl hempty)
  full := h.full

/-- A check for frames that passes. -/
theorem check_unread (h : Dir nframes v) (hidle : v.reader.pc = .idle)
    (hunread : v.w ≠ v.r) (pc : AdvancePc) :
    Dir nframes { v with
      reader := { v.reader with pc := pc, emptyAt := none } } where
  bound := h.bound
  room := h.room
  unread := fun _ => hunread
  emptyAt_none := fun _ => rfl
  fullAt_none := h.fullAt_none
  emptyAt_le := fun n hn => by cases hn
  fullAt_le := h.fullAt_le
  empty := fun n hn => by cases hn
  full := by
    intro n hn
    rcases h.full n hn with hlt | heq | ⟨hpc, -⟩
    · exact .inl hlt
    · exact .inr (.inl heq)
    · rw [hidle] at hpc
      cases hpc

/-- The store to `r_count`. -/
theorem store_r (h : Dir nframes v) (hpc : v.reader.pc = .readChecked)
    (ivc : TegraIvc) :
    Dir nframes { v with
      r := v.r + 1
      reader := { v.reader with pc := .readStored, ivc := ivc } } := by
  have hunread := h.unread hpc
  have hpred : v.w - (v.r + 1) = v.w - v.r - 1 := by grind
  have hlt : v.w - v.r - 1 < v.w - v.r := by
    apply pred_lt
    intro hzero
    exact hunread (by grind)
  refine ⟨?_, ?_, ?_, ?_, h.fullAt_none, h.emptyAt_le, h.fullAt_le, ?_, ?_⟩
  · show v.w - (v.r + 1) ≤ nframes
    rw [hpred]
    exact UInt32.le_of_lt (UInt32.lt_of_lt_of_le hlt h.bound)
  · intro _
    show v.w - (v.r + 1) < nframes
    rw [hpred]
    exact UInt32.lt_of_lt_of_le hlt h.bound
  · intro hpc'
    cases hpc'
  · intro hpc'
    cases hpc'
  · intro n hn
    have hnone := h.emptyAt_none hpc
    have hn' : v.reader.emptyAt = some n := hn
    rw [hnone] at hn'
    cases hn'
  · intro n hn
    rcases h.full n hn with hlt | heq | ⟨hstored, -⟩
    · exact .inl hlt
    · refine .inr (.inr ⟨rfl, ?_⟩)
      show v.w - (v.r + 1) = nframes - 1
      rw [hpred, heq]
    · rw [hpc] at hstored
      cases hstored

/-- The test after it. -/
theorem test_r (h : Dir nframes v) :
    Dir nframes { v with
      reader := v.reader.return (v.w - v.r == nframes - 1) } := by
  have hle : v.reader.notifies
      ≤ (v.reader.return (v.w - v.r == nframes - 1)).notifies := by
    unfold Agent.return
    split
    · exact Nat.le_succ _
    · exact Nat.le_refl _
  refine ⟨h.bound, h.room, ?_, ?_, h.fullAt_none, h.emptyAt_le, ?_,
    h.empty, ?_⟩
  · intro hpc'
    cases hpc'
  · intro hpc'
    cases hpc'
  · intro n hn
    exact Nat.le_trans (h.fullAt_le n hn) hle
  · intro n hn
    rcases h.full n hn with hlt | heq | ⟨-, hone⟩
    · exact .inl (Nat.lt_of_lt_of_le hlt hle)
    · exact .inr (.inl heq)
    · refine .inl ?_
      have hlast := h.fullAt_le n hn
      show n < (v.reader.return (v.w - v.r == nframes - 1)).notifies
      simp only [Agent.return, hone, beq_self_eq_true, if_true]
      omega

end Dir

-- ============================================================ both ends

variable {α : Type}

/-- The direction in which `p` writes. -/
def Link.view (l : Link α) (p : Side) : View where
  w := (l.chan p).wCount
  r := (l.chan p).rCount
  writer := l.agent p
  reader := l.agent p.peer

/-- The direction in which `p` reads. -/
def Link.readView (l : Link α) (p : Side) : View where
  w := (l.chan p.peer).wCount
  r := (l.chan p.peer).rCount
  writer := l.agent p.peer
  reader := l.agent p

/-- What one side reads is what the other writes. -/
theorem Link.view_peer (l : Link α) (p : Side) :
    l.view p.peer = l.readView p := by
  simp [Link.view, Link.readView]

/-- The invariant of a link. -/
structure LinkInv (nframes : UInt32) (l : Link α) : Prop where
  state : ∀ p, (l.chan p).state = .established
  frames : ∀ p, (l.agent p).ivc.nframes = nframes
  dir : ∀ p, Dir nframes (l.view p)

/-- The invariant where both sides are idle, with counters that agree with
what they have done. -/
theorem InSession.inv {nframes : UInt32} {l : Link α}
    (h : InSession nframes l) : LinkInv nframes l := by
  refine ⟨h.state, h.frames, fun p => ⟨h.bound p, ?_, ?_, ?_, ?_, ?_, ?_,
    ?_, ?_⟩⟩
  · intro hpc
    exact absurd ((h.idle p).symm.trans hpc) (by decide)
  · intro hpc
    exact absurd ((h.idle p.peer).symm.trans hpc) (by decide)
  · intro _
    exact h.emptyAt p.peer
  · intro _
    exact h.fullAt p
  · intro n hn
    cases (h.emptyAt p.peer).symm.trans hn
  · intro n hn
    cases (h.fullAt p).symm.trans hn
  · intro n hn
    cases (h.emptyAt p.peer).symm.trans hn
  · intro n hn
    cases (h.fullAt p).symm.trans hn

variable {nframes : UInt32} {l : Link α} {p : Side}

/-- A property of both directions, stated for the endpoint that moves. -/
theorem both_sides {P : Side → Prop} (p : Side) (hw : P p)
    (hr : P p.peer) (q : Side) : P q := by
  cases p with
  | a =>
      cases q with
      | a => exact hw
      | b => exact hr
  | b =>
      cases q with
      | a => exact hr
      | b => exact hw

/-- The invariant of the direction in which a side reads. -/
theorem LinkInv.readDir (h : LinkInv nframes l) (p : Side) :
    Dir nframes (l.readView p) :=
  l.view_peer p ▸ h.dir p.peer

/-- An endpoint that only changes itself. -/
theorem LinkInv.setAgent (h : LinkInv nframes l) {a : Agent}
    (hframes : a.ivc.nframes = nframes)
    (hw : Dir nframes { l.view p with writer := a })
    (hr : Dir nframes { l.readView p with reader := a }) :
    LinkInv nframes (l.setAgent p a) := by
  refine ⟨h.state, ?_, ?_⟩
  · refine both_sides p ?_ ?_
    · simpa [Link.setAgent] using hframes
    · simpa [Link.setAgent] using h.frames p.peer
  · refine both_sides p ?_ ?_
    · have hview : (l.setAgent p a).view p
          = { l.view p with writer := a } := by
        simp [Link.view, Link.setAgent]
      rw [hview]
      exact hw
    · have hview : (l.setAgent p a).readView p
          = { l.readView p with reader := a } := by
        simp [Link.readView, Link.setAgent]
      rw [Link.view_peer, hview]
      exact hr

/-- An idle side is in the middle of neither a read nor a write. -/
theorem Agent.idle_other {a : Agent} (h : a.pc = .idle) :
    a.notWriting ∧ a.notReading := by
  unfold Agent.notWriting Agent.notReading
  rw [h]
  decide

/-- In a session a check says whether the channel is empty. -/
theorem checkRead_established {ivc : TegraIvc} {tx rx : Channel α}
    (hst : tx.state = .established) :
    tegraIvcCheckRead ivc tx rx
      = if tegraIvcChannelEmpty ivc rx then .error .enomem else .ok () := by
  unfold tegraIvcCheckRead
  rw [hst]
  cases tegraIvcChannelEmpty ivc rx with
  | false => rfl
  | true => rfl

/-- In a session the check is only whether the channel is full. -/
theorem checkWrite_established {ivc : TegraIvc} {tx : Channel α}
    (hst : tx.state = .established) :
    tegraIvcCheckWrite ivc tx
      = if tegraIvcChannelFull ivc tx then .error .enomem else .ok () := by
  unfold tegraIvcCheckWrite
  rw [hst]
  cases tegraIvcChannelFull ivc tx with
  | false => rfl
  | true => rfl

/-- A channel that is not over-full is empty if the counters agree. -/
theorem empty_iff {ivc : TegraIvc} {ch : Channel α}
    (hbound : ch.wCount - ch.rCount ≤ ivc.nframes) :
    tegraIvcChannelEmpty ivc ch = true ↔ ch.wCount = ch.rCount := by
  unfold tegraIvcChannelEmpty
  rw [if_neg (UInt32.not_lt.2 hbound)]
  exact beq_iff_eq

/-- Never are more frames in a channel than it has, seen from either side. -/
theorem LinkInv.bound (h : LinkInv nframes l) (p q : Side) :
    (l.chan p).wCount - (l.chan p).rCount ≤ (l.agent q).ivc.nframes := by
  rw [h.frames q]
  exact (h.dir p).bound

/-- A check of the reader. -/
theorem checkReadStep_inv (h : LinkInv nframes l)
    (hidle : (l.agent p).pc = .idle) {pc : AdvancePc}
    (hpc : pc = .idle ∨ pc = .readChecked) :
    LinkInv nframes (checkReadStep l p pc) := by
  obtain ⟨hnotw, -⟩ := Agent.idle_other hidle
  have hempty := empty_iff (h.bound p.peer p)
  unfold checkReadStep
  rw [checkRead_established (h.state p)]
  by_cases he : tegraIvcChannelEmpty (l.agent p).ivc (l.chan p.peer) = true
  · rw [if_pos he]
    exact h.setAgent (h.frames p)
      ((h.dir p).writer_other hnotw hnotw rfl (Nat.le_refl _))
      ((h.readDir p).check_empty hidle (hempty.1 he))
  · rw [if_neg he]
    refine h.setAgent (h.frames p)
      ((h.dir p).writer_other hnotw ?_ rfl (Nat.le_refl _))
      ((h.readDir p).check_unread hidle (fun heq => he (hempty.2 heq)) pc)
    rcases hpc with rfl | rfl
    · exact ⟨nofun, nofun⟩
    · exact ⟨nofun, nofun⟩

/-- A check of the writer. -/
theorem checkWriteStep_inv (h : LinkInv nframes l)
    (hidle : (l.agent p).pc = .idle) {pc : AdvancePc}
    (hpc : pc = .idle ∨ pc = .writeChecked) :
    LinkInv nframes (checkWriteStep l p pc) := by
  obtain ⟨-, hnotr⟩ := Agent.idle_other hidle
  unfold checkWriteStep
  rw [checkWrite_established (h.state p)]
  by_cases hf : tegraIvcChannelFull (l.agent p).ivc (l.chan p) = true
  · rw [if_pos hf]
    unfold tegraIvcChannelFull at hf
    rw [decide_eq_true_eq, h.frames p] at hf
    exact h.setAgent (h.frames p) ((h.dir p).check_full hidle hf)
      ((h.readDir p).reader_other hnotr hnotr rfl (Nat.le_refl _))
  · rw [if_neg hf]
    unfold tegraIvcChannelFull at hf
    rw [decide_eq_true_eq, h.frames p, UInt32.not_le] at hf
    refine h.setAgent (h.frames p) ((h.dir p).check_room hidle hf pc)
      ((h.readDir p).reader_other hnotr ?_ rfl (Nat.le_refl _))
    rcases hpc with rfl | rfl
    · exact ⟨nofun, nofun⟩
    · exact ⟨nofun, nofun⟩

/-- Returning from a call takes no notification back. -/
theorem Agent.notifies_return (a : Agent) (b : Bool) :
    a.notifies ≤ (a.return b).notifies := by
  unfold Agent.return
  split
  · exact Nat.le_succ _
  · exact Nat.le_refl _

/-- A store to the own counter of the channel `q`, with what it does to
the two directions of `p`. -/
theorem LinkInv.store (h : LinkInv nframes l) {q : Side} {ch : Channel α}
    {a : Agent} (hstate : ch.state = .established)
    (hframes : a.ivc.nframes = nframes)
    (hw : Dir nframes (((l.setChan q ch).setAgent p a).view p))
    (hr : Dir nframes (((l.setChan q ch).setAgent p a).readView p)) :
    LinkInv nframes ((l.setChan q ch).setAgent p a) := by
  refine ⟨?_, ?_, ?_⟩
  · intro q'
    show (Function.update l.chan q ch q').state = .established
    by_cases hq : q' = q
    · rw [hq, Function.update_self, hstate]
    · rw [Function.update_of_ne hq, h.state q']
  · refine both_sides p ?_ ?_
    · simpa [Link.setAgent] using hframes
    · simpa [Link.setAgent, Link.setChan] using h.frames p.peer
  · refine both_sides p hw ?_
    rw [Link.view_peer]
    exact hr

/-- Between the check and the end of a read there is no write. -/
theorem Agent.notWriting_of_read {a : Agent}
    (h : a.pc = .readChecked ∨ a.pc = .readStored) : a.notWriting := by
  unfold Agent.notWriting
  rcases h with h | h
  · rw [h]
    decide
  · rw [h]
    decide

/-- A side that is in the middle of a write is not in the middle of a read. -/
theorem Agent.notReading_of_write {a : Agent}
    (h : a.pc = .writeChecked ∨ a.pc = .writeStored) : a.notReading := by
  unfold Agent.notReading
  rcases h with h | h
  · rw [h]
    decide
  · rw [h]
    decide

/-- The rest of the two calls. -/
theorem advanceStep_inv {l' : Link α} (h : LinkInv nframes l)
    (hst : advanceStep l p = some l') : LinkInv nframes l' := by
  have hw := h.dir p
  have hr := h.readDir p
  unfold advanceStep at hst
  cases hpc : (l.agent p).pc with
  | idle =>
      rw [hpc] at hst
      cases hst
  | readChecked =>
      simp only [hpc, tegraIvcAdvanceRx, Option.some.injEq] at hst
      rw [← hst]
      have hold := Agent.notWriting_of_read (.inl hpc)
      refine h.store (h.state p.peer) (h.frames p) ?_ ?_
      · have hother := hw.writer_other (a := { l.agent p with
          pc := .readStored
          ivc := { (l.agent p).ivc with
            rPos := nextPos (l.agent p).ivc.nframes (l.agent p).ivc.rPos } })
          hold (Agent.notWriting_of_read (.inr rfl)) rfl (Nat.le_refl _)
        convert hother using 1
        simp [Link.view, Link.setAgent, Link.setChan,
          (Side.peer_ne p).symm]
      · have hstore := hr.store_r hpc { (l.agent p).ivc with
          rPos := nextPos (l.agent p).ivc.nframes (l.agent p).ivc.rPos }
        convert hstore using 1
        simp [Link.readView, Link.setAgent, Link.setChan]
  | readStored =>
      simp only [hpc, Option.some.injEq] at hst
      rw [← hst, h.frames p]
      have hold := Agent.notWriting_of_read (.inr hpc)
      exact h.setAgent (h.frames p)
        (hw.writer_other hold (Agent.idle_other rfl).1 rfl
          (Agent.notifies_return ..)) hr.test_r
  | writeChecked =>
      simp only [hpc, tegraIvcAdvanceTx, Option.some.injEq] at hst
      rw [← hst]
      have hold := Agent.notReading_of_write (.inl hpc)
      refine h.store (h.state p) (h.frames p) ?_ ?_
      · have hstore := hw.store_w hpc { (l.agent p).ivc with
          wPos := nextPos (l.agent p).ivc.nframes (l.agent p).ivc.wPos }
        convert hstore using 1
        simp [Link.view, Link.setAgent, Link.setChan]
      · have hother := hr.reader_other (a := { l.agent p with
          pc := .writeStored
          ivc := { (l.agent p).ivc with
            wPos := nextPos (l.agent p).ivc.nframes (l.agent p).ivc.wPos } })
          hold (Agent.notReading_of_write (.inr rfl)) rfl (Nat.le_refl _)
        convert hother using 1
        simp [Link.readView, Link.setAgent, Link.setChan]
  | writeStored =>
      simp only [hpc, Option.some.injEq] at hst
      rw [← hst]
      have hold := Agent.notReading_of_write (.inr hpc)
      exact h.setAgent (h.frames p) hw.test_w
        (hr.reader_other hold (Agent.idle_other rfl).2 rfl
          (Agent.notifies_return ..))

/-- In a session `tegra_ivc_channel_notified` does nothing. -/
theorem linkNotifiedStep_eq (h : LinkInv nframes l)
    (hidle : (l.agent p).pc = .idle) : linkNotifiedStep l p = l := by
  have hnothing : reaction (l.chan p).state (l.chan p.peer).state
      = .nothing := by
    rw [h.state p, h.state p.peer]
    rfl
  have hagent : { (l.agent p).return false with ivc := (l.agent p).ivc }
      = l.agent p := by
    unfold Agent.return
    rw [← hidle]
    rfl
  simp only [linkNotifiedStep, tegraIvcChannelNotified, hnothing, hagent,
    Link.setAgent, Link.setChan, Function.update_eq_self]

/-- A step keeps the invariant. -/
theorem linkStep_inv {l' : Link α} {m : Side × Move}
    (h : LinkInv nframes l) (hst : linkStep l m = some l') :
    LinkInv nframes l' := by
  obtain ⟨p, m⟩ := m
  cases m with
  | proceed => exact advanceStep_inv h hst
  | readGetNextFrame =>
      simp only [linkStep] at hst
      split at hst
      · rename_i hidle
        cases hst
        exact checkReadStep_inv h hidle (.inl rfl)
      · cases hst
  | readAdvance =>
      simp only [linkStep] at hst
      split at hst
      · rename_i hidle
        cases hst
        exact checkReadStep_inv h hidle (.inr rfl)
      · cases hst
  | writeGetNextFrame =>
      simp only [linkStep] at hst
      split at hst
      · rename_i hidle
        cases hst
        exact checkWriteStep_inv h hidle (.inl rfl)
      · cases hst
  | writeAdvance =>
      simp only [linkStep] at hst
      split at hst
      · rename_i hidle
        cases hst
        exact checkWriteStep_inv h hidle (.inr rfl)
      · cases hst
  | channelNotified =>
      simp only [linkStep] at hst
      split at hst
      · rename_i hidle
        cases hst
        rw [linkNotifiedStep_eq h hidle]
        exact h
      · cases hst

/-- No wake-up is lost: in every state of a session, in each direction,
whoever found the channel empty or full and now finds it otherwise has
been notified, or the endpoint that changed it is about to. -/
theorem no_lost_wakeup (nframes : UInt32) {l : Link α}
    (hl : Reachable (InSession nframes) linkStep anyStep l) (p : Side) :
    ReaderWoken l p ∧ WriterWoken l p := by
  have h : LinkInv nframes l := by
    refine Reachable.invariant ?_ ?_ hl
    · intro l h
      exact h.inv
    · intro l m l' h _ hst
      exact linkStep_inv h hst
  constructor
  · intro n hn hunread
    rcases (h.dir p).empty n hn with hlt | heq | hone
    · exact .inl hlt
    · rw [(empty_iff (h.bound p p.peer)).2 heq] at hunread
      cases hunread
    · exact .inr hone
  · intro n hn hroom
    rcases (h.dir p).full n hn with hlt | heq | hone
    · exact .inl hlt
    · unfold tegraIvcChannelFull at hroom
      rw [decide_eq_false_iff_not, h.frames p] at hroom
      exact absurd (UInt32.le_of_eq heq.symm) hroom
    · refine .inr ⟨hone.1, ?_⟩
      rw [h.frames p.peer]
      exact hone.2

-- ===================================================== the other models

/-- A system between calls, as a link. -/
def System.link (s : System α) : Link α where
  chan := s.chan
  agent := fun p => ⟨(s.ep p).ivc, .idle, 0, none, none⟩

/-- The handshake leads to a session. -/
theorem Inv.inSession {cfg : Config} {s : System α} (h : Inv cfg s)
    (hboot : ∀ p, (s.ep p).boot = .running)
    (hest : ∀ p, (s.chan p).state = .established) :
    InSession cfg.nframes s.link := by
  refine ⟨hest, ?_, ?_, fun _ => rfl, fun _ => rfl, fun _ => rfl⟩
  · intro p
    refine (h.agree p).left.nframes_eq ?_
    show (s.ep p).boot ≠ .off
    rw [hboot p]
    decide
  · intro p
    have hle := (h.session hboot hest p).avail_le
    rw [UInt32.le_iff_toNat_le]
    simpa [System.party, System.link] using hle

/-- Without a peer that moves in between, the three steps of a write are
`tegra_ivc_write_advance`. -/
theorem run_writeAdvance {ivc : TegraIvc} {tx : Channel α} {b : Bool}
    (hidle : (l.agent p).pc = .idle)
    (hcall : tegraIvcWriteAdvance (l.agent p).ivc (l.chan p)
      = .ok (ivc, tx, b)) :
    run linkStep l [(p, .writeAdvance), (p, .proceed), (p, .proceed)]
      = some ((l.setChan p tx).setAgent p { l.agent p with
          ivc := ivc
          notifies := ((l.agent p).return b).notifies
          fullAt := none }) := by
  unfold tegraIvcWriteAdvance at hcall
  split at hcall
  · cases hcall
  · rename_i hcheck
    simp only [tegraIvcAdvanceTx, Except.ok.injEq, Prod.mk.injEq] at hcall
    obtain ⟨rfl, rfl, rfl⟩ := hcall
    simp [run, linkStep, hidle, checkWriteStep, hcheck, advanceStep,
      Link.setAgent, Link.setChan, tegraIvcAdvanceTx, Agent.return]

/-- Likewise for a read. -/
theorem run_readAdvance {ivc : TegraIvc} {rx : Channel α} {b : Bool}
    (hidle : (l.agent p).pc = .idle)
    (hcall : tegraIvcReadAdvance (l.agent p).ivc (l.chan p) (l.chan p.peer)
      = .ok (ivc, rx, b)) :
    run linkStep l [(p, .readAdvance), (p, .proceed), (p, .proceed)]
      = some ((l.setChan p.peer rx).setAgent p { l.agent p with
          ivc := ivc
          notifies := ((l.agent p).return b).notifies
          emptyAt := none }) := by
  unfold tegraIvcReadAdvance at hcall
  split at hcall
  · cases hcall
  · rename_i hcheck
    simp only [tegraIvcAdvanceRx, Except.ok.injEq, Prod.mk.injEq] at hcall
    obtain ⟨rfl, rfl, rfl⟩ := hcall
    simp [run, linkStep, hidle, checkReadStep, hcheck, advanceStep,
      Link.setAgent, Link.setChan, tegraIvcAdvanceRx, Agent.return]

-- ============================================================= a sample

/-- A fresh session with one frame in each direction. -/
def freshLink : Link Nat where
  chan := fun _ => ⟨0, .established, 0, fun _ => 0⟩
  agent := fun _ =>
    ⟨⟨0x2000, 0x1000, 0, 0, 1, 128⟩, .idle, 0, none, none⟩

theorem freshLink_inSession : InSession 1 freshLink := by
  refine ⟨fun _ => rfl, fun _ => rfl, ?_, fun _ => rfl, fun _ => rfl,
    fun _ => rfl⟩
  intro p
  show (0 : UInt32) - 0 ≤ 1
  decide

/-- `b` finds the channel empty, and `a` has stored to `w_count` and not
yet tested it. -/
def windowOpen : List (Side × Move) :=
  [(.b, .readGetNextFrame), (.a, .writeAdvance), (.a, .proceed)]

/-- The writer has stored its frame but not counted it when the reader
looks: the reader finds the channel empty and will be woken. -/
theorem no_lost_wakeup_sample :
    ∃ l, run linkStep freshLink windowOpen = some l
      ∧ (l.agent .b).emptyAt = some 0
      ∧ tegraIvcChannelEmpty (l.agent .b).ivc (l.chan .a) = false
      ∧ (l.agent .a).notifies = 0
      ∧ ReaderWoken l .a ∧ WriterWoken l .a := by
  have hany : (run linkStep freshLink windowOpen).any (fun l =>
      decide ((l.agent .b).emptyAt = some 0
        ∧ tegraIvcChannelEmpty (l.agent .b).ivc (l.chan .a) = false
        ∧ (l.agent .a).notifies = 0)) = true := by decide +kernel
  obtain ⟨l, hrun, hbool⟩ := (Option.any_eq_true ..).1 hany
  obtain ⟨hempty, hunread, hnone⟩ := of_decide_eq_true hbool
  have hl : Reachable (InSession 1) linkStep anyStep l :=
    (Reachable.init freshLink_inSession).run hrun
  exact ⟨l, hrun, hempty, hunread, hnone, no_lost_wakeup 1 hl .a⟩

end ProjectsLibs.Ivc
