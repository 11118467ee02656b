/-
Two IVC endpoints in an established session, with the window in which a
notification can go astray open.

`tegra_ivc_read_advance` and `tegra_ivc_write_advance` are three steps
here: the check, the store to the counter, and the `avail_count` test
with its `notify`. The peer may do anything in between. A check looks at
the counters up to twice and goes by what it saw last, so it is one step.

# History

`notifies` counts the calls of `notify` that an endpoint has made.
`emptyAt` is what the peer's count was when the last
`tegra_ivc_check_read` found the channel empty, and none if it did not;
`fullAt` is the same for `tegra_ivc_check_write` and a full channel. No
step looks at them.
-/
import ProjectsLibs.Lib.Run
import ProjectsLibs.Ivc.System

namespace ProjectsLibs.Ivc

open Lib

-- =============================================================== state

/-- Where an endpoint is inside a call. -/
inductive AdvancePc
  | idle
  /-- in `tegra_ivc_read_advance`, the check has passed -/
  | readChecked
  /-- `r_count` is stored -/
  | readStored
  /-- in `tegra_ivc_write_advance`, the check has passed -/
  | writeChecked
  /-- `w_count` is stored -/
  | writeStored
  deriving DecidableEq, Repr

/-- An endpoint, and its history. -/
structure Agent where
  ivc : TegraIvc
  pc : AdvancePc
  notifies : Nat
  emptyAt : Option Nat
  fullAt : Option Nat

/-- `chan p` is the channel `p` transmits on. -/
structure Link (α : Type) where
  chan : Side → Channel α
  agent : Side → Agent

variable {α : Type}

/-- Replace the endpoint `p`. -/
def Link.setAgent (l : Link α) (p : Side) (a : Agent) : Link α :=
  { l with agent := Function.update l.agent p a }

/-- Replace the channel that `p` transmits on. -/
def Link.setChan (l : Link α) (p : Side) (ch : Channel α) : Link α :=
  { l with chan := Function.update l.chan p ch }

-- =============================================================== steps

/-- `tegra_ivc_check_read`, with `pc` where a check that passes leads. -/
def checkReadStep (l : Link α) (p : Side) (pc : AdvancePc) : Link α :=
  match tegraIvcCheckRead (l.agent p).ivc (l.chan p) (l.chan p.peer) with
  | .ok () => l.setAgent p { l.agent p with pc := pc, emptyAt := none }
  | .error .enomem => l.setAgent p { l.agent p with
      emptyAt := some (l.agent p.peer).notifies }
  | .error _ => l.setAgent p { l.agent p with emptyAt := none }

/-- `tegra_ivc_check_write`. -/
def checkWriteStep (l : Link α) (p : Side) (pc : AdvancePc) : Link α :=
  match tegraIvcCheckWrite (l.agent p).ivc (l.chan p) with
  | .ok () => l.setAgent p { l.agent p with pc := pc, fullAt := none }
  | .error .enomem => l.setAgent p { l.agent p with
      fullAt := some (l.agent p.peer).notifies }
  | .error _ => l.setAgent p { l.agent p with fullAt := none }

/-- The return from a call, after a `notify` if `b`. -/
def Agent.return (a : Agent) (b : Bool) : Agent :=
  { a with pc := .idle, notifies := if b then a.notifies + 1 else a.notifies }

/-- The rest of `tegra_ivc_read_advance` and `tegra_ivc_write_advance`,
one store or one test at a time. -/
def advanceStep (l : Link α) (p : Side) : Option (Link α) :=
  match (l.agent p).pc with
  | .idle => none
  | .readChecked =>
      match tegraIvcAdvanceRx (l.agent p).ivc (l.chan p.peer) with
      | (ivc, rx) => some ((l.setChan p.peer rx).setAgent p
          { l.agent p with pc := .readStored, ivc := ivc })
  | .readStored => some (l.setAgent p ((l.agent p).return
      (tegraIvcChannelAvailCount (l.chan p.peer)
        == (l.agent p).ivc.nframes - 1)))
  | .writeChecked =>
      match tegraIvcAdvanceTx (l.agent p).ivc (l.chan p) with
      | (ivc, tx) => some ((l.setChan p tx).setAgent p
          { l.agent p with pc := .writeStored, ivc := ivc })
  | .writeStored => some (l.setAgent p ((l.agent p).return
      (tegraIvcChannelAvailCount (l.chan p) == 1)))

/-- `tegra_ivc_channel_notified`. -/
def linkNotifiedStep (l : Link α) (p : Side) : Link α :=
  match tegraIvcChannelNotified (l.agent p).ivc (l.chan p)
      (l.chan p.peer) with
  | (_, ivc, tx, rx, b) =>
      ((l.setChan p tx).setChan p.peer rx).setAgent p
        { (l.agent p).return b with ivc := ivc }

/-- What an endpoint does next: enter a call, or go on with one. -/
inductive Move
  | readGetNextFrame
  | readAdvance
  | writeGetNextFrame
  | writeAdvance
  | channelNotified
  | proceed

/-- One step of `p`. -/
def linkStep (l : Link α) : Side × Move → Option (Link α)
  | (p, .readGetNextFrame) =>
      if (l.agent p).pc = .idle then some (checkReadStep l p .idle)
      else none
  | (p, .readAdvance) =>
      if (l.agent p).pc = .idle then some (checkReadStep l p .readChecked)
      else none
  | (p, .writeGetNextFrame) =>
      if (l.agent p).pc = .idle then some (checkWriteStep l p .idle)
      else none
  | (p, .writeAdvance) =>
      if (l.agent p).pc = .idle then some (checkWriteStep l p .writeChecked)
      else none
  | (p, .channelNotified) =>
      if (l.agent p).pc = .idle then some (linkNotifiedStep l p) else none
  | (p, .proceed) => advanceStep l p

-- ==================================================== what is to be shown

/-- An established session between calls, with nothing seen yet. -/
structure InSession (nframes : UInt32) (l : Link α) : Prop where
  state : ∀ p, (l.chan p).state = .established
  frames : ∀ p, (l.agent p).ivc.nframes = nframes
  bound : ∀ p, (l.chan p).wCount - (l.chan p).rCount ≤ nframes
  idle : ∀ p, (l.agent p).pc = .idle
  emptyAt : ∀ p, (l.agent p).emptyAt = none
  fullAt : ∀ p, (l.agent p).fullAt = none

/-- The channel of `p` is not empty, and the last check of its reader
said that it was: `p` has called `notify` since, or is about to. -/
def ReaderWoken (l : Link α) (p : Side) : Prop :=
  ∀ n, (l.agent p.peer).emptyAt = some n →
    tegraIvcChannelEmpty (l.agent p.peer).ivc (l.chan p) = false →
    n < (l.agent p).notifies ∨
      ((l.agent p).pc = .writeStored
        ∧ tegraIvcChannelAvailCount (l.chan p) = 1)

/-- The channel of `p` is not full, and the last check of `p` said that
it was: its reader has called `notify` since, or is about to. -/
def WriterWoken (l : Link α) (p : Side) : Prop :=
  ∀ n, (l.agent p).fullAt = some n →
    tegraIvcChannelFull (l.agent p).ivc (l.chan p) = false →
    n < (l.agent p.peer).notifies ∨
      ((l.agent p.peer).pc = .readStored
        ∧ tegraIvcChannelAvailCount (l.chan p)
          = (l.agent p.peer).ivc.nframes - 1)

end ProjectsLibs.Ivc
