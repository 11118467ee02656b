/-
Whole frames over an established session: what a client that gets, fills
and publishes a frame, or reads one and gives it back, does to the
system. Both are runs of whole calls, so a client that does nothing else
stays within the reachable states of the session.

# How a frame is followed

Three calls make an exchange on each side, and between them the client
works on the frame in memory. In an established session none of the calls
fails for another reason than a full or an empty ring, and the state
words are not touched, so the three steps in a row can be written as one
function of the system (`sent`, `received`). The equations are computed
from the definitions of the calls; what a user needs of them is that the
result is a state of the runs again, that the session is still
established, and which ring has got or lost which frame.
-/
import ProjectsLibs.Ivc.Proofs.Sessions

namespace ProjectsLibs.Ivc

open Lib

variable {α : Type} {cfg : Config} {s : System α} {p : Side}

/-- Storing a channel back changes nothing. -/
@[simp]
theorem setTx_self : s.setTx p (s.chan p) = s := by
  unfold System.setTx
  rw [Function.update_eq_self]

/-- Writing back the channel that is there changes nothing. -/
@[simp]
theorem setRx_self : s.setRx p (s.chan p.peer) = s := by
  unfold System.setRx
  rw [Function.update_eq_self]

@[simp]
theorem setEp_self : s.setEp p (s.ep p) = s := by
  unfold System.setEp
  rw [Function.update_eq_self]

/-- An established endpoint can make a call. -/
theorem ready_of_established (hs : CallReachable cfg s)
    (hest : Established s) (p : Side) : s.ready p = true := by
  have hidle := hs.steps.1 p
  have hboot := (hest p).1
  simp [System.ready, hidle, hboot]

/-- In an established session `tegra_ivc_channel_notified` does
nothing. -/
theorem notified_established (hest : Established s) (p : Side) :
    tegraIvcChannelNotified (s.ep p).ivc (s.chan p) (s.chan p.peer)
      = (.ok (), (s.ep p).ivc, s.chan p, s.chan p.peer, false) := by
  have hre : reaction (s.chan p).state (s.chan p.peer).state = .nothing := by
    rw [(hest p).2, (hest p.peer).2]
    rfl
  unfold tegraIvcChannelNotified
  rw [hre]
  simp [(hest p).2]

-- ============================================================== writing

/-- The system after `p` has written `x` to the next frame. -/
def sent (s : System α) (p : Side) (x : α) : System α :=
  (s.setTx p { s.chan p with
    frames := Function.update (s.chan p).frames (s.ep p).ivc.wPos.toNat x
    wCount := (s.chan p).wCount + 1 }).setEp p { s.ep p with
      ivc := { (s.ep p).ivc with
        wPos := nextPos (s.ep p).ivc.nframes (s.ep p).ivc.wPos }
      held := none
      written := (s.ep p).written ++ [x] }

/-- The frame to write to is the one at the writer's position. -/
theorem writeGet_ok {ivc : TegraIvc} {tx : Channel α} {frame : UInt32}
    (h : tegraIvcWriteGetNextFrame ivc tx = .ok frame) :
    frame = ivc.wPos ∧ tegraIvcCheckWrite ivc tx = .ok () := by
  unfold tegraIvcWriteGetNextFrame at h
  split at h
  · cases h
  · next hchk =>
    cases h
    exact ⟨rfl, hchk⟩

/-- A frame that was got is published without an error. -/
theorem writeAdvance_ok (ivc : TegraIvc) (tx : Channel α)
    (h : tegraIvcCheckWrite ivc tx = .ok ()) :
    ∃ notify, tegraIvcWriteAdvance ivc tx
      = .ok ({ ivc with wPos := nextPos ivc.nframes ivc.wPos },
          { tx with wCount := tx.wCount + 1 }, notify) := by
  unfold tegraIvcWriteAdvance
  rw [h]
  exact ⟨_, rfl⟩

/-- Getting, filling and publishing a frame. -/
theorem send_eq {frame : UInt32} (x : α)
    (hget : tegraIvcWriteGetNextFrame (s.ep p).ivc (s.chan p) = .ok frame) :
    writeAdvanceStep (fillStep (writeGetStep s p) p frame.toNat x) p
      = sent s p x := by
  obtain ⟨hframe, hchk⟩ := writeGet_ok hget
  subst hframe
  unfold writeGetStep
  rw [hget]
  obtain ⟨notify, hadv⟩ := writeAdvance_ok (s.ep p).ivc { s.chan p with
      frames := Function.update (s.chan p).frames (s.ep p).ivc.wPos.toNat x }
    hchk
  apply System.ext_sides p
  all_goals
    simp [writeAdvanceStep, fillStep, System.setEp, System.setTx, sent, hadv]

/-- The three calls in a row. -/
theorem CallReachable.send {frame : UInt32} (hs : CallReachable cfg s)
    (hest : Established s) (x : α)
    (hget : tegraIvcWriteGetNextFrame (s.ep p).ivc (s.chan p) = .ok frame) :
    CallReachable cfg (sent s p x) := by
  have hr := ready_of_established hs hest p
  have hgot : writeGetStep s p
      = s.setEp p { s.ep p with held := some frame.toNat } := by
    unfold writeGetStep
    rw [hget]
  have hr' : (writeGetStep s p).ready p = true := by
    rw [hgot]
    simpa [System.ready, System.setEp] using hr
  have hget' : callStep cfg s (p, .op .writeGet)
      = some (writeGetStep s p) := if_pos hr
  have hfill : callStep cfg (writeGetStep s p) (p, .op (.fill x))
      = some (fillStep (writeGetStep s p) p frame.toNat x) := by
    have hheld : ((writeGetStep s p).ep p).held = some frame.toNat := by
      rw [hgot]
      simp [System.setEp]
    simp only [callStep, opStep, hheld, hr', if_true]
  have hadv : callStep cfg (fillStep (writeGetStep s p) p frame.toNat x)
      (p, .op .writeAdvance) = some (sent s p x) := by
    rw [← send_eq x hget]
    exact if_pos hr'
  exact (((hs.step _ trivial hget').step _ trivial hfill).step _ trivial hadv)

/-- Writing a frame does not end the session. -/
theorem Established.sent (hest : Established s) (x : α) :
    Established (sent s p x) := by
  intro q
  by_cases hq : q = p
  · subst hq
    simpa [Ivc.sent, System.setEp, System.setTx] using hest q
  · simpa [Ivc.sent, System.setEp, System.setTx, hq] using hest q

-- ============================================================== reading

/-- The system after `p` has read the next frame. -/
def received (s : System α) (p : Side) : System α :=
  (s.setRx p { s.chan p.peer with
    rCount := (s.chan p.peer).rCount + 1 }).setEp p { s.ep p with
      ivc := { (s.ep p).ivc with
        rPos := nextPos (s.ep p).ivc.nframes (s.ep p).ivc.rPos }
      read := (s.ep p).read
        ++ [(s.chan p.peer).frames (s.ep p).ivc.rPos.toNat] }

/-- The frame to read from is the one at the reader's position. -/
theorem readGet_ok {ivc : TegraIvc} {tx rx : Channel α} {frame : UInt32}
    (h : tegraIvcReadGetNextFrame ivc tx rx = .ok frame) :
    frame = ivc.rPos ∧ tegraIvcCheckRead ivc tx rx = .ok () := by
  unfold tegraIvcReadGetNextFrame at h
  split at h
  · cases h
  · next hchk =>
    cases h
    exact ⟨rfl, hchk⟩

/-- A frame that was got is given back without an error. -/
theorem readAdvance_ok {ivc : TegraIvc} {tx rx : Channel α}
    (h : tegraIvcCheckRead ivc tx rx = .ok ()) :
    ∃ notify, tegraIvcReadAdvance ivc tx rx
      = .ok ({ ivc with rPos := nextPos ivc.nframes ivc.rPos },
          { rx with rCount := rx.rCount + 1 }, notify) := by
  unfold tegraIvcReadAdvance
  rw [h]
  exact ⟨_, rfl⟩

/-- `tegra_ivc_read_advance` gives back the next frame or does
nothing. -/
theorem readAdvanceStep_eq (s : System α) (p : Side) :
    readAdvanceStep s p
      = if tegraIvcCheckRead (s.ep p).ivc (s.chan p) (s.chan p.peer)
          = .ok () then received s p else s := by
  unfold readAdvanceStep
  split
  · next e hadv =>
    rw [if_neg]
    intro hchk
    obtain ⟨notify, hok⟩ := readAdvance_ok hchk
    cases hadv.symm.trans hok
  · next ivc rx notify hadv =>
    cases hchk : tegraIvcCheckRead (s.ep p).ivc (s.chan p)
        (s.chan p.peer) with
    | error e =>
        unfold tegraIvcReadAdvance at hadv
        rw [hchk] at hadv
        cases hadv
    | ok u =>
        rw [if_pos rfl]
        obtain ⟨notify', hok⟩ := readAdvance_ok hchk
        cases hadv.symm.trans hok
        rfl

/-- `tegra_ivc_read_advance` keeps to the reachable states. -/
theorem CallReachable.readAdvance (hs : CallReachable cfg s)
    (hest : Established s) (p : Side) :
    CallReachable cfg (readAdvanceStep s p) := by
  have hstep : callStep cfg s (p, .op .readAdvance)
      = some (readAdvanceStep s p) :=
    if_pos (ready_of_established hs hest p)
  exact hs.step _ trivial hstep

/-- Reading a frame does not end the session. -/
theorem Established.received (hest : Established s) :
    Established (received s p) := by
  intro q
  have hne := Side.peer_ne p
  by_cases hq : q = p
  · subst hq
    simpa [Ivc.received, System.setEp, System.setRx, hne.symm] using hest q
  · by_cases hq' : q = p.peer
    · subst hq'
      simpa [Ivc.received, System.setEp, System.setRx, hne] using hest p.peer
    · simpa [Ivc.received, System.setEp, System.setRx, hq, hq'] using hest q

/-- Reading does not touch a state word, so a session stays established. -/
theorem Established.readAdvance (hest : Established s) (p : Side) :
    Established (readAdvanceStep s p) := by
  rw [readAdvanceStep_eq]
  split
  · exact hest.received
  · exact hest

end ProjectsLibs.Ivc
