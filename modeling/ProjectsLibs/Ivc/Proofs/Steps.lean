/-
The steps of the code are the moves of the handshake proof, and the
invariant over runs.

`NoResetInWindow` is the side condition of the runs: an endpoint does
not reset the channel while its peer is inside
`tegra_ivc_channel_notified` on its way to the established state, having
looked at the endpoint's state before.

# From calls to moves

The proof about the handshake speaks of two parties that each own some
words and see those of the other (`Moves`). Here each call of the
interface is shown to be a move of the party that makes it: it fails and
changes nothing, or it makes the stores of one transition on words of its
own (`OpEffect`). `tegra_ivc_channel_notified` reads and stores in
several steps that the peer may come between; each of them is a move, or
changes only how far the call has got.

The invariant of the runs is the one about parties, seen from both ends.
A step keeps it because a move does, with one exception: a reset while
the peer is on its way to the established state, having looked before the
reset. `NoResetInWindow` leaves it out, and the run lemma is an induction
over the admitted steps.
-/
import ProjectsLibs.Ivc.Proofs.Handshake

namespace ProjectsLibs.Ivc

open Lib

variable {α : Type}

-- ====================================================== steps are moves

/-- There are two sides, each the peer of the other. -/
@[simp]
theorem Side.peer_peer (p : Side) : p.peer.peer = p := by
  cases p <;> rfl

@[simp]
theorem Side.peer_ne (p : Side) : p.peer ≠ p := by
  cases p <;> decide

/-- The call does not reset a channel whose other end is on its way to
the established state. -/
def NoResetInWindow (s : System α) : Side × Act α → Prop
  | (p, .op .reset) =>
      ¬(s.ep p.peer).pc.establishing (s.chan p.peer).state
  | _ => True

section Parties

variable (s : System α) (p : Side)

/-- A store to the own record is not seen by the peer. -/
theorem party_setEp_peer (e : Endpoint α) :
    (s.setEp p e).party p.peer = s.party p.peer := by
  simp [System.party, System.setEp]

/-- A store to the transmitter's part of the own channel is not one to
what the peer owns. -/
theorem party_setTx_peer {ch : Channel α}
    (hr : ch.rCount = (s.chan p).rCount) :
    (s.setTx p ch).party p.peer = s.party p.peer := by
  simp [System.party, System.setTx, hr, Side.peer_peer]

/-- Likewise for a store to the receiver's part of the peer's channel. -/
theorem party_setRx_peer (r : UInt32) :
    (s.setRx p { s.chan p.peer with rCount := r }).party p.peer
      = s.party p.peer := by
  simp [System.party, System.setRx, (Side.peer_ne p).symm]

end Parties

/-- A call that finds the channel not full. -/
theorem checkWrite_ok {ivc : TegraIvc} {tx : Channel α}
    (h : tegraIvcCheckWrite ivc tx = .ok ()) :
    tx.state = .established ∧ tx.wCount - tx.rCount < ivc.nframes := by
  unfold tegraIvcCheckWrite at h
  by_cases hst : tx.state = .established
  · refine ⟨hst, ?_⟩
    by_contra hfull
    have hle : ivc.nframes ≤ tx.wCount - tx.rCount := UInt32.not_lt.1 hfull
    simp [hst, tegraIvcChannelFull, hle] at h
  · simp [hst] at h

/-- A call that finds the channel not empty. -/
theorem checkRead_ok {ivc : TegraIvc} {tx rx : Channel α}
    (h : tegraIvcCheckRead ivc tx rx = .ok ()) :
    tx.state = .established ∧ rx.wCount ≠ rx.rCount := by
  unfold tegraIvcCheckRead at h
  by_cases hst : tx.state = .established
  · refine ⟨hst, fun heq => ?_⟩
    simp [hst, tegraIvcChannelEmpty, heq] at h
  · simp [hst] at h

/-- Between calls of a started endpoint, for its party. -/
theorem ready_party {s : System α} {p : Side} (h : s.ready p = true) :
    (s.party p).Ready := by
  simpa [System.ready, Party.Ready, System.party] using h

/-- What a call of the interface can do: it fails and leaves everything as
it was, or it makes the stores of one that succeeds. -/
inductive OpEffect (cfg : Config) (s : System α) (p : Side) :
    Op α → System α → Prop
  | none (o : Op α) : OpEffect cfg s p o s
  | init (hoff : (s.ep p).boot = .off) :
      OpEffect cfg s p .init (s.setEp p { s.ep p with
        boot := .inited
        ivc := ⟨cfg.base p.peer, cfg.base p, 0, 0, cfg.nframes,
          cfg.frameSize⟩ })
  | reset (hboot : (s.ep p).boot ≠ .off) (hidle : (s.ep p).pc = .idle) :
      OpEffect cfg s p .reset (resetStep s p)
  | get (hready : s.ready p = true)
      (hcheck : tegraIvcCheckWrite (s.ep p).ivc (s.chan p) = .ok ()) :
      OpEffect cfg s p .writeGet
        (s.setEp p { s.ep p with held := some (s.ep p).ivc.wPos.toNat })
  | fill {frame : Nat} (x : α) (hready : s.ready p = true)
      (hheld : (s.ep p).held = some frame) :
      OpEffect cfg s p (.fill x) (fillStep s p frame x)
  | write (hready : s.ready p = true)
      (hcheck : tegraIvcCheckWrite (s.ep p).ivc (s.chan p) = .ok ()) :
      OpEffect cfg s p .writeAdvance
        ((s.setTx p (tegraIvcAdvanceTx (s.ep p).ivc (s.chan p)).2).setEp p
          { s.ep p with
            ivc := (tegraIvcAdvanceTx (s.ep p).ivc (s.chan p)).1
            held := Option.none
            written := (s.ep p).written
              ++ [(s.chan p).frames (s.ep p).ivc.wPos.toNat] })
  | read (hready : s.ready p = true)
      (hcheck : tegraIvcCheckRead (s.ep p).ivc (s.chan p) (s.chan p.peer)
        = .ok ()) :
      OpEffect cfg s p .readAdvance
        ((s.setRx p
            (tegraIvcAdvanceRx (s.ep p).ivc (s.chan p.peer)).2).setEp p
          { s.ep p with
            ivc := (tegraIvcAdvanceRx (s.ep p).ivc (s.chan p.peer)).1
            read := (s.ep p).read
              ++ [(s.chan p.peer).frames (s.ep p).ivc.rPos.toNat] })

/-- Every call has such an effect. -/
theorem opStep_effect {cfg : Config} {s s' : System α} {p : Side} {o : Op α}
    (hst : opStep cfg s p o = some s') : OpEffect cfg s p o s' := by
  cases o with
  | init =>
      simp only [opStep, Option.ite_none_right_eq_some,
        Option.some.injEq] at hst
      obtain ⟨hoff, rfl⟩ := hst
      unfold initStep tegraIvcInit
      by_cases hparams : checkIvcParams (cfg.base p.peer) (cfg.base p)
          cfg.nframes cfg.frameSize = true
      · rw [if_pos hparams]
        exact .init hoff
      · rw [if_neg hparams]
        exact .none _
  | reset =>
      simp only [opStep, Option.ite_none_right_eq_some,
        Option.some.injEq] at hst
      obtain ⟨⟨hboot, hidle⟩, rfl⟩ := hst
      exact .reset hboot hidle
  | writeGet =>
      simp only [opStep, Option.ite_none_right_eq_some,
        Option.some.injEq] at hst
      obtain ⟨hready, rfl⟩ := hst
      unfold writeGetStep tegraIvcWriteGetNextFrame
      cases hcheck : tegraIvcCheckWrite (s.ep p).ivc (s.chan p) with
      | error e => exact .none _
      | ok u => exact .get hready hcheck
  | fill x =>
      simp only [opStep] at hst
      split at hst
      · next frame hheld =>
        rw [Option.ite_none_right_eq_some, Option.some.injEq] at hst
        obtain ⟨hready, rfl⟩ := hst
        exact .fill x hready hheld
      · cases hst
  | writeAdvance =>
      simp only [opStep, Option.ite_none_right_eq_some,
        Option.some.injEq] at hst
      obtain ⟨hready, rfl⟩ := hst
      unfold writeAdvanceStep tegraIvcWriteAdvance
      cases hcheck : tegraIvcCheckWrite (s.ep p).ivc (s.chan p) with
      | error e => exact .none _
      | ok u => exact .write hready hcheck
  | readGet =>
      simp only [opStep, Option.ite_none_right_eq_some,
        Option.some.injEq] at hst
      obtain ⟨-, rfl⟩ := hst
      exact .none _
  | readAdvance =>
      simp only [opStep, Option.ite_none_right_eq_some,
        Option.some.injEq] at hst
      obtain ⟨hready, rfl⟩ := hst
      unfold readAdvanceStep tegraIvcReadAdvance
      cases hcheck : tegraIvcCheckRead (s.ep p).ivc (s.chan p)
          (s.chan p.peer) with
      | error e => exact .none _
      | ok u => exact .read hready hcheck

/-- A call of the interface is a move of the party that makes it. -/
theorem op_moves {cfg : Config} {s s' : System α} {p : Side} {o : Op α}
    (hok : NoResetInWindow s (p, .op o)) (hst : opStep cfg s p o = some s') :
    s'.party p.peer = s.party p.peer
      ∧ Moves cfg.nframes (s.party p) (s.party p.peer) (s'.party p) := by
  cases opStep_effect hst with
  | none => exact ⟨rfl, Moves.same⟩
  | init hoff =>
      refine ⟨party_setEp_peer s p _, ?_⟩
      have hm : Moves cfg.nframes (s.party p) (s.party p.peer) _ :=
        Moves.init hoff
      convert hm using 1
      simp [System.party, System.setEp]
  | reset hboot hidle =>
      unfold resetStep
      refine ⟨(party_setEp_peer _ p _).trans (party_setTx_peer s p rfl), ?_⟩
      have hm : Moves cfg.nframes (s.party p) (s.party p.peer) _ :=
        Moves.reset hboot hidle hok
      convert hm using 1
      simp [System.party, System.setEp, System.setTx, tegraIvcChannelReset]
  | get hready hcheck =>
      obtain ⟨hest, hroom⟩ := checkWrite_ok hcheck
      refine ⟨party_setEp_peer s p _, ?_⟩
      have hm : Moves cfg.nframes (s.party p) (s.party p.peer) _ :=
        Moves.get (ready_party hready) hest
          (by simpa [System.party, Side.peer_peer] using hroom)
      convert hm using 1
      simp [System.party, System.setEp]
  | fill x hready hheld =>
      refine ⟨party_setTx_peer s p rfl, ?_⟩
      have hm : Moves cfg.nframes (s.party p) (s.party p.peer) _ :=
        Moves.fill x (ready_party hready) hheld
      convert hm using 1
      simp [System.party, fillStep, System.setTx]
  | write hready hcheck =>
      obtain ⟨hest, hroom⟩ := checkWrite_ok hcheck
      refine ⟨(party_setEp_peer _ p _).trans (party_setTx_peer s p rfl), ?_⟩
      have hm : Moves cfg.nframes (s.party p) (s.party p.peer) _ :=
        Moves.write (ready_party hready) hest
          (by simpa [System.party, Side.peer_peer] using hroom)
      convert hm using 1
      simp [System.party, System.setEp, System.setTx, tegraIvcAdvanceTx]
  | read hready hcheck =>
      obtain ⟨hest, hne⟩ := checkRead_ok hcheck
      refine ⟨(party_setEp_peer _ p _).trans (party_setRx_peer s p _), ?_⟩
      have hm : Moves cfg.nframes (s.party p) (s.party p.peer) _ :=
        Moves.read (ready_party hready) hest hne
      convert hm using 1
      simp [System.party, System.setEp, System.setRx, tegraIvcAdvanceRx,
        (Side.peer_ne p).symm]

/-- A step inside `tegra_ivc_channel_notified` is a move of the party
that makes it. -/
theorem proceed_moves {cfg : Config} {s s' : System α} {p : Side}
    (hst : proceedStep s p = some s') :
    s'.party p.peer = s.party p.peer
      ∧ Moves cfg.nframes (s.party p) (s.party p.peer) (s'.party p) := by
  unfold proceedStep at hst
  split at hst
  · cases hst
  · next x hpc =>
    split at hst
    · next t hre =>
      cases hst
      refine ⟨(party_setEp_peer _ p _).trans (party_setTx_peer s p rfl), ?_⟩
      have hm : Moves cfg.nframes (s.party p) (s.party p.peer) _ :=
        Moves.clearW hpc hre
      convert hm using 1
      simp [System.party, clearWStep, System.setEp, System.setTx]
    · next t hre =>
      cases hst
      refine ⟨(party_setEp_peer _ p _).trans (party_setTx_peer s p rfl), ?_⟩
      have hm : Moves cfg.nframes (s.party p) (s.party p.peer) _ :=
        Moves.move hpc hre
      convert hm using 1
      simp [System.party, moveStep, System.setEp, System.setTx]
    · next hre =>
      cases hst
      refine ⟨party_setEp_peer _ p _, ?_⟩
      have hm : Moves cfg.nframes (s.party p) (s.party p.peer) _ :=
        Moves.leave hpc hre
      convert hm using 1
      simp [System.party, System.setEp]
  · next t hpc =>
    cases hst
    refine ⟨(party_setEp_peer _ p _).trans (party_setRx_peer s p _), ?_⟩
    have hm : Moves cfg.nframes (s.party p) (s.party p.peer) _ :=
      Moves.clearR hpc
    convert hm using 1
    simp [System.party, clearRStep, System.setEp, System.setRx,
      (Side.peer_ne p).symm]
  · next t hpc =>
    cases hst
    refine ⟨(party_setEp_peer _ p _).trans (party_setTx_peer s p rfl), ?_⟩
    have hm : Moves cfg.nframes (s.party p) (s.party p.peer) _ :=
      Moves.settle hpc
    convert hm using 1
    simp [System.party, moveStep, System.setEp, System.setTx]

/-- Every step is a move of the party that makes it. -/
theorem step_moves {cfg : Config} {s s' : System α} {p : Side}
    {act : Act α} (hok : NoResetInWindow s (p, act))
    (hst : step cfg s (p, act) = some s') :
    s'.party p.peer = s.party p.peer
      ∧ Moves cfg.nframes (s.party p) (s.party p.peer) (s'.party p) := by
  cases act with
  | op o => exact op_moves hok hst
  | load =>
      simp only [step] at hst
      split at hst
      · next hr =>
        cases hst
        refine ⟨party_setEp_peer _ p _, ?_⟩
        have hm : Moves cfg.nframes (s.party p) (s.party p.peer) _ :=
          Moves.load (ready_party hr)
        convert hm using 1
        simp [System.party, loadStep, System.setEp]
      · cases hst
  | proceed => exact proceed_moves hst

-- ============================================================== the runs

/-- The states of two endpoints under every interleaving in which no
endpoint resets the channel inside its peer's window. -/
def IvcReachable (cfg : Config) : System α → Prop :=
  Reachable Off (step cfg) NoResetInWindow

/-- The invariant of the system. -/
def Inv (cfg : Config) (s : System α) : Prop :=
  Agree cfg.nframes (s.party .a) (s.party .b)

/-- From either end. -/
theorem Inv.agree {cfg : Config} {s : System α} (h : Inv cfg s) (p : Side) :
    Agree cfg.nframes (s.party p) (s.party p.peer) := by
  cases p with
  | a => exact h
  | b => exact Agree.symm h

/-- It is enough to see the invariant from one end. -/
theorem Inv.of_agree {cfg : Config} {s : System α} {p : Side}
    (h : Agree cfg.nframes (s.party p) (s.party p.peer)) : Inv cfg s := by
  cases p with
  | a => exact h
  | b => exact h.symm

/-- Before either endpoint has started nothing is asked. -/
theorem inv_off {cfg : Config} {s : System α} (hoff : Off s) : Inv cfg s := by
  have hlocal : ∀ p, Local cfg.nframes (s.party p) := by
    intro p
    obtain ⟨hb, hpc, -⟩ := hoff p
    have hb' : (s.party p).boot = .off := hb
    refine Local.of_idle hpc (fun hne => absurd hb' hne) ?_ ?_
    · intro hrun
      cases hb'.symm.trans hrun
    · intro hrun
      cases hb'.symm.trans hrun
  refine ⟨hlocal .a, hlocal .b, fun hrun => ?_⟩
  have hb' : (s.party .a).boot = .off := (hoff .a).1
  cases hb'.symm.trans hrun

/-- One step keeps the invariant. -/
theorem inv_step {cfg : Config} (hnf : 0 < cfg.nframes.toNat)
    {s s' : System α} {act : Side × Act α} (h : Inv cfg s)
    (hok : NoResetInWindow s act) (hst : step cfg s act = some s') :
    Inv cfg s' := by
  obtain ⟨p, act⟩ := act
  obtain ⟨hpeer, hm⟩ := step_moves hok hst
  refine Inv.of_agree (p := p) ?_
  rw [hpeer]
  exact (h.agree p).of_moves hnf hm

/-- The invariant holds in every reachable state. -/
theorem inv_reachable {cfg : Config} (hnf : 0 < cfg.nframes.toNat)
    {s : System α} (hs : IvcReachable cfg s) : Inv cfg s := by
  refine Reachable.invariant ?_ ?_ hs
  · intro s hoff
    exact inv_off hoff
  · intro s act s' h hok hst
    exact inv_step hnf h hok hst

/-- Two started and established endpoints are in a session. -/
theorem Inv.session {cfg : Config} {s : System α} (h : Inv cfg s)
    (hboot : ∀ p, (s.ep p).boot = .running)
    (hest : ∀ p, (s.chan p).state = .established) (p : Side) :
    Direction cfg.nframes (s.party p).tx (s.party p.peer).rx := by
  obtain ⟨hp, -⟩ := (h.agree p).pair (hboot p) (hboot p.peer)
  have hne : (s.party p.peer).st ≠ .sync := by
    intro hsync
    cases (hest p.peer).symm.trans hsync
  exact (hp.session (hest p) hne).1

end ProjectsLibs.Ivc
