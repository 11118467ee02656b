/-
Sessions of two IVC endpoints.

- `session_fifo`: with whole calls, in any order and number, two
  established endpoints are in a session whose directions are queues.
- `window_safe`: the same bound when the steps of
  `tegra_ivc_channel_notified` interleave, for runs without a reset in
  the window. `reset_in_window` is a run with one: the peer becomes
  established on the strength of a state that is gone, and reads a frame
  whose counter the endpoint then clears.

Whole calls are runs of the finer steps (`call_run`), so there is one
invariant proof.

# How the bound is used

The counters of a direction are 32 bits wide and are only compared by
their difference, so what is bounded is the difference as the machine
computes it. In a session it is the length of a queue: frames written and
not read, and the frames are those that were written last, in their
order. The invariant is Steps', and all that is done here is to read the
statements off it and to join whole calls to the finer steps.

The sample of a reset in the window is a run of the finer steps, with a
counter that goes below the other one.
-/
import ProjectsLibs.Ivc.Proofs.Steps

namespace ProjectsLibs.Ivc

open Lib

variable {α : Type}

-- ======================================================== whole calls

/-- Neither endpoint is inside a call. -/
def Idle (s : System α) : Prop := ∀ p, (s.ep p).pc = .idle

/-- Two systems with the same channels and endpoints. -/
theorem System.ext_sides {s t : System α} (p : Side)
    (hown : s.chan p = t.chan p) (hpeer : s.chan p.peer = t.chan p.peer)
    (hep : s.ep p = t.ep p) (hep' : s.ep p.peer = t.ep p.peer) : s = t := by
  cases s
  cases t
  congr 1
  · funext q
    cases p <;> cases q <;> assumption
  · funext q
    cases p <;> cases q <;> assumption

/-- `tegra_ivc_channel_notified` as one step is its steps in a row. -/
theorem notified_run (cfg : Config) {s : System α} {p : Side}
    (hr : s.ready p = true) :
    ∃ acts, run (step cfg) s ((p, .load) :: acts) = some (notifiedStep s p)
      ∧ ∀ x ∈ acts, x = (p, .proceed) := by
  have hload : step cfg s (p, .load) = some (loadStep s p) := if_pos hr
  have hpc : (s.ep p).pc = .idle := (ready_party hr).2
  cases hre : reaction (s.chan p).state (s.chan p.peer).state with
  | clear t =>
      have hw : step cfg (loadStep s p) (p, .proceed)
          = some (clearWStep (loadStep s p) p t) := by
        simp [step, proceedStep, loadStep, System.setEp, hre]
      have hrc : step cfg (clearWStep (loadStep s p) p t) (p, .proceed)
          = some (clearRStep (clearWStep (loadStep s p) p t) p t) := by
        simp [step, proceedStep, clearWStep, System.setEp]
      have hm : step cfg (clearRStep (clearWStep (loadStep s p) p t) p t)
            (p, .proceed)
          = some (moveStep (clearRStep (clearWStep (loadStep s p) p t) p t)
            p t) := by
        simp [step, proceedStep, clearRStep, System.setEp]
      refine ⟨[(p, .proceed), (p, .proceed), (p, .proceed)], ?_, by simp⟩
      simp only [run, hload, hw, hrc, hm, Option.some.injEq]
      apply System.ext_sides p
      all_goals
        simp [loadStep, clearWStep, clearRStep, moveStep, notifiedStep,
          tegraIvcChannelNotified, System.setEp, System.setTx, System.setRx,
          hre, hpc, (Side.peer_ne p).symm]
  | move t =>
      have hm : step cfg (loadStep s p) (p, .proceed)
          = some (moveStep (loadStep s p) p t) := by
        simp [step, proceedStep, loadStep, System.setEp, hre]
      refine ⟨[(p, .proceed)], ?_, by simp⟩
      simp only [run, hload, hm, Option.some.injEq]
      apply System.ext_sides p
      all_goals
        simp [loadStep, moveStep, notifiedStep, tegraIvcChannelNotified,
          System.setEp, System.setTx, System.setRx, hre, hpc,
          (Side.peer_ne p).symm]
  | nothing =>
      have hm : step cfg (loadStep s p) (p, .proceed)
          = some ((loadStep s p).setEp p
            { (loadStep s p).ep p with pc := .idle }) := by
        simp [step, proceedStep, loadStep, System.setEp, hre]
      refine ⟨[(p, .proceed)], ?_, by simp⟩
      simp only [run, hload, hm, Option.some.injEq]
      apply System.ext_sides p
      all_goals
        simp [loadStep, notifiedStep, tegraIvcChannelNotified,
          System.setEp, System.setTx, System.setRx, hre, hpc]

/-- Replacing an endpoint by one at the same point. -/
theorem setEp_pc {s : System α} {p : Side} {e : Endpoint α}
    (he : e.pc = (s.ep p).pc) (q : Side) :
    ((s.setEp p e).ep q).pc = (s.ep q).pc := by
  by_cases hq : q = p
  · subst hq
    simpa [System.setEp] using he
  · simp [System.setEp, hq]

/-- The calls other than `tegra_ivc_channel_notified` are over in one
step. -/
theorem opStep_pc {cfg : Config} {s s' : System α} {p : Side} {o : Op α}
    (hst : opStep cfg s p o = some s') (q : Side) :
    (s'.ep q).pc = (s.ep q).pc := by
  cases opStep_effect hst with
  | none | fill => rfl
  | init | get =>
      refine setEp_pc ?_ q
      rfl
  | reset | write =>
      refine setEp_pc (s := s.setTx p _) ?_ q
      rfl
  | read =>
      refine setEp_pc (s := s.setRx p _) ?_ q
      rfl

/-- A whole call between calls of the other end is a run of the finer
steps without a reset in a window, and ends between calls. -/
theorem call_run {cfg : Config} {s s' : System α} {c : Side × Call α}
    (hidle : Idle s) (hst : callStep cfg s c = some s') :
    Idle s' ∧ ∃ acts, run (step cfg) s acts = some s'
      ∧ AllSteps (step cfg) NoResetInWindow s acts := by
  obtain ⟨p, c⟩ := c
  cases c with
  | op o =>
      have hst' : step cfg s (p, .op o) = some s' := hst
      refine ⟨fun q => (opStep_pc hst q).trans (hidle q), [(p, .op o)], ?_,
        ?_⟩
      · simp only [run, hst']
      · refine ⟨?_, fun _ _ => trivial⟩
        cases o with
        | reset =>
            show ¬(s.ep p.peer).pc.establishing _
            rw [hidle p.peer]
            exact id
        | _ => trivial
  | notified =>
      simp only [callStep] at hst
      split at hst
      · next hr =>
        cases hst
        obtain ⟨acts, hrun, hacts⟩ := notified_run cfg hr
        refine ⟨fun q => ?_, _, hrun, allSteps_of_forall ?_⟩
        · refine Eq.trans ?_ (hidle q)
          refine setEp_pc (s := (s.setTx p _).setRx p _) ?_ q
          rfl
        · intro x hx t
          rcases List.mem_cons.1 hx with rfl | hx
          · trivial
          · rw [hacts x hx]
            trivial
      · cases hst

/-- The states of two endpoints under every interleaving of whole
calls. -/
def CallReachable (cfg : Config) : System α → Prop :=
  Reachable Off (callStep cfg) anyStep

/-- Whole calls reach no state that their steps do not reach. -/
theorem CallReachable.steps {cfg : Config} {s : System α}
    (hs : CallReachable cfg s) : Idle s ∧ IvcReachable cfg s := by
  refine Reachable.invariant (I := fun s => Idle s ∧ IvcReachable cfg s)
    ?_ ?_ hs
  · intro s hoff
    exact ⟨fun p => (hoff p).2.1, Reachable.init hoff⟩
  · intro s c s' hinv _ hst
    obtain ⟨hidle, hreach⟩ := hinv
    obtain ⟨hidle', acts, hrun, hall⟩ := call_run hidle hst
    exact ⟨hidle', hreach.run_allSteps hrun hall⟩

-- ============================================================ sessions

/-- Both endpoints have started and are in the established state. -/
def Established (s : System α) : Prop :=
  ∀ p, (s.ep p).boot = .running ∧ (s.chan p).state = .established

/-- The number of unread frames of the channel `p` transmits on, as the
machine computes it. -/
def System.avail (s : System α) (p : Side) : UInt32 :=
  (s.chan p).wCount - (s.chan p).rCount

/-- A session is consistent and its directions are queues: in every
state that whole calls reach, when both endpoints are established, for
each of them as the writer, the counters differ by at most `nframes`, the
reader's position is the writer's less that difference, the frames read
are a prefix of the frames written, and the unread ones are in their
slots. -/
theorem session_fifo {cfg : Config} (hnf : 0 < cfg.nframes.toNat)
    {s : System α} (hs : CallReachable cfg s) (hest : Established s)
    (p : Side) :
    (s.avail p).toNat ≤ cfg.nframes.toNat
      ∧ ((s.ep p.peer).ivc.rPos.toNat : Int)
          = ((s.ep p).ivc.wPos.toNat - (s.avail p).toNat : Int)
            % cfg.nframes.toNat
      ∧ (s.ep p.peer).read <+: (s.ep p).written
      ∧ ∀ n x, (s.ep p.peer).read.length ≤ n →
          (s.ep p).written[n]? = some x →
          (s.chan p).frames (n % cfg.nframes.toNat) = x := by
  have hd := (inv_reachable hnf hs.steps.2).session
    (fun q => (hest q).1) (fun q => (hest q).2) p
  have havail : ((s.party p).tx.count - (s.party p.peer).rx.count)
      = s.avail p := by
    simp [System.party, System.avail]
  refine ⟨?_, ?_, hd.read_prefix, hd.holds.slot_eq⟩
  · rw [← havail]
    exact hd.avail_le
  · rw [← havail]
    exact hd.r_pos_int

/-- The handshake bound at the finer granularity: in every state reached
without a reset in a window, when both endpoints are established, the
counters of each direction differ by at most `nframes`. -/
theorem window_safe {cfg : Config} (hnf : 0 < cfg.nframes.toNat)
    {s : System α} (hs : IvcReachable cfg s) (hest : Established s)
    (p : Side) : (s.avail p).toNat ≤ cfg.nframes.toNat := by
  have hd := (inv_reachable hnf hs).session
    (fun q => (hest q).1) (fun q => (hest q).2) p
  have hle := hd.avail_le
  simpa [System.party, System.avail] using hle

-- ============================================================= samples

/-- One frame in each direction, as the BPMP channel has it. -/
def sampleConfig : Config where
  base
    | .a => 0x1000
    | .b => 0x2000
  nframes := 1
  frameSize := 128

/-- Zeroed memory and two endpoints that have not started. -/
def zeroSystem : System Nat where
  chan := fun _ => ⟨0, .established, 0, fun _ => 0⟩
  ep := fun _ => ⟨.off, ⟨0, 0, 0, 0, 0, 0⟩, .idle, none, [], []⟩

/-- Both start, shake hands, and `a` sends a frame. -/
def sampleCalls : List (Side × Call Nat) :=
  [(.a, .op .init), (.a, .op .reset), (.b, .op .init), (.b, .op .reset),
   (.a, .notified), (.b, .notified), (.a, .notified),
   (.a, .op .writeGet), (.a, .op (.fill 7)), (.a, .op .writeAdvance)]

/-- The state `sampleCalls` ends in. -/
def sampleSession : System Nat :=
  (run (callStep sampleConfig) zeroSystem sampleCalls).getD zeroSystem

/-- Endpoints in zeroed memory have not been reset yet. -/
theorem zeroSystem_off : Off zeroSystem := fun _ => ⟨rfl, rfl, rfl⟩

/-- Two endpoints that have shaken hands, one of which has written a frame. -/
theorem sampleSession_reachable : CallReachable sampleConfig sampleSession := by
  have hrun : run (callStep sampleConfig) zeroSystem sampleCalls
      = some sampleSession := rfl
  exact Reachable.run (Reachable.init zeroSystem_off) hrun

/-- Both of them see the session as established. -/
theorem sampleSession_established : Established sampleSession := by
  intro p
  cases p
  · exact ⟨rfl, rfl⟩
  · exact ⟨rfl, rfl⟩

/-- The frame is in the channel, and there is no more than one. -/
theorem session_fifo_sample :
    CallReachable sampleConfig sampleSession ∧ Established sampleSession
      ∧ (sampleSession.ep .a).written = [7]
      ∧ (sampleSession.avail .a).toNat ≤ 1 :=
  ⟨sampleSession_reachable, sampleSession_established, rfl,
    (session_fifo (by decide) sampleSession_reachable
      sampleSession_established .a).1⟩

/-- The same run, in which the peer's frame is not yet taken. -/
theorem window_safe_sample :
    IvcReachable sampleConfig sampleSession ∧ Established sampleSession
      ∧ (sampleSession.avail .a).toNat ≤ 1 :=
  ⟨sampleSession_reachable.steps.2, sampleSession_established,
    window_safe (by decide) sampleSession_reachable.steps.2
      sampleSession_established .a⟩

/-- `b` writes a frame and resets the channel between the load of `a` and
the store that makes `a` established; `a` reads the frame while `b` still
answers to the ack state `a` was in. -/
def windowRun : List (Side × Act Nat) :=
  [(.a, .op .init), (.a, .op .reset), (.b, .op .init), (.b, .op .reset),
   -- a: sync, sees sync, clears and moves to ack
   (.a, .load), (.a, .proceed), (.a, .proceed), (.a, .proceed),
   -- b: sync, sees ack, clears and moves to established
   (.b, .load), (.b, .proceed), (.b, .proceed), (.b, .proceed),
   -- a: ack, sees established and will move to established
   (.a, .load),
   (.b, .op .writeGet), (.b, .op (.fill 7)), (.b, .op .writeAdvance),
   (.b, .op .reset),
   -- b: sync, sees ack and will clear and move to established
   (.b, .load),
   (.a, .proceed), (.a, .op .readGet), (.a, .op .readAdvance),
   (.b, .proceed), (.b, .proceed), (.b, .proceed)]

/-- With a reset in the window the counters of an established session
are off: `w_count - r_count` is `2 ^ 32 - 1` with one frame. -/
theorem reset_in_window :
    ¬∀ (cfg : Config) (s : System Nat), 0 < cfg.nframes.toNat →
      Reachable Off (step cfg) anyStep s → Established s → Idle s →
      ∀ p, (s.avail p).toNat ≤ cfg.nframes.toNat := by
  intro hall
  have hrun : ∃ s, run (step sampleConfig) zeroSystem windowRun = some s
      ∧ Established s ∧ Idle s ∧ s.avail .b = 0xffffffff := by
    refine ⟨_, rfl, ?_, ?_, rfl⟩
    · intro p
      cases p
      · exact ⟨rfl, rfl⟩
      · exact ⟨rfl, rfl⟩
    · intro p
      cases p
      · rfl
      · rfl
  obtain ⟨s, hs, hest, hidle, havail⟩ := hrun
  have hle := hall sampleConfig s (by decide)
    (Reachable.run (Reachable.init zeroSystem_off) hs) hest hidle .b
  rw [havail] at hle
  exact absurd hle (by decide)

end ProjectsLibs.Ivc
