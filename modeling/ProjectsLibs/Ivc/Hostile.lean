/-
One IVC endpoint, and a peer that may write to the headers of both
channels between any two loads of the endpoint.

Nothing that is loaded twice need be the same, so the functions of
`ivc.c` are here load by load, on memory addressed as the code addresses
it: the channels may lie anywhere that `tegra_ivc_init` accepts, and
their headers may overlap. `tegra_ivc_frame_addr` is here with its
arithmetic, a 32-bit product in a 64-bit sum.

# What is assumed of the peer

Nothing. An interference is a function of the number of the load and of
all of the memory, and it is applied before the load is made; it may leave
the two headers in any state, again and again within one call. A program
of the endpoint is a function on such a world (`Shared`), and a run is a
list of calls, each with an interference of its own.

One statement needs more: how many frames can be read in a stretch of
calls. There the peer leaves the counters of the receive channel alone
(`LeavesCounters`), and no call stores to them but a read
(`BetweenReads`); a peer that moves its counter can feed the reader for
ever.
-/
import ProjectsLibs.Lib.Run
import ProjectsLibs.Lib.Shared
import ProjectsLibs.Ivc.Basic

namespace ProjectsLibs.Ivc

open Lib

-- ============================================================== headers

/-- A program of the endpoint. -/
abbrev Access (α : Type) : Type := Shared UInt64 UInt32 α

/-- What a peer does before each load of a call. -/
abbrev Interference : Type := Nat → (UInt64 → UInt32) → UInt64 → UInt32

/-- `&ch->w_count`. -/
def wCountAddr (ch : UInt64) : UInt64 := ch

/-- `&ch->state`. -/
def stateAddr (ch : UInt64) : UInt64 := ch + 4

/-- `&ch->r_count`, behind the first `TEGRA_IVC_ALIGN` bytes. -/
def rCountAddr (ch : UInt64) : UInt64 := ch + 64

def ivcStateEstablished : UInt32 := 0
def ivcStateSync : UInt32 := 1
def ivcStateAck : UInt32 := 2

/-- A snapshot of the counters of a channel. -/
def snapshot (w r : UInt32) : Channel Unit := ⟨w, .other, r, fun _ => ()⟩

-- ============================================================ functions

/-- `tegra_ivc_frame_addr`; none if the check for non-existent frames
fires. -/
def tegraIvcFrameAddr (ivc : TegraIvc) (h : UInt64) (frame : UInt32) :
    Option UInt64 :=
  if ivc.nframes ≤ frame then none
  else some (h + 128 + (ivc.frameSize * frame).toUInt64)

/-- `tegra_ivc_channel_empty`. -/
def channelEmpty (ivc : TegraIvc) (ch : UInt64) : Access Bool := do
  let w ← load (wCountAddr ch)
  let r ← load (rCountAddr ch)
  pure (tegraIvcChannelEmpty ivc (snapshot w r))

/-- `tegra_ivc_channel_full`. -/
def channelFull (ivc : TegraIvc) (ch : UInt64) : Access Bool := do
  let w ← load (wCountAddr ch)
  let r ← load (rCountAddr ch)
  pure (tegraIvcChannelFull ivc (snapshot w r))

/-- `tegra_ivc_channel_avail_count`. -/
def channelAvailCount (ch : UInt64) : Access UInt32 := do
  let w ← load (wCountAddr ch)
  let r ← load (rCountAddr ch)
  pure (tegraIvcChannelAvailCount (snapshot w r))

/-- `tegra_ivc_advance_rx`. -/
def advanceRx (ivc : TegraIvc) : Access TegraIvc := do
  let r ← load (rCountAddr ivc.rxBase)
  store (rCountAddr ivc.rxBase) (r + 1)
  pure { ivc with rPos := nextPos ivc.nframes ivc.rPos }

/-- `tegra_ivc_advance_tx`. -/
def advanceTx (ivc : TegraIvc) : Access TegraIvc := do
  let w ← load (wCountAddr ivc.txBase)
  store (wCountAddr ivc.txBase) (w + 1)
  pure { ivc with wPos := nextPos ivc.nframes ivc.wPos }

/-- The two checks: the own state, and twice whether there is nothing to
do. -/
def check (ivc : TegraIvc) (nothing : Access Bool) :
    Access (Except Errno Unit) := do
  let state ← load (stateAddr ivc.txBase)
  if state ≠ ivcStateEstablished then pure (.error .econnreset)
  else do
    let b ← nothing
    if b = false then pure (.ok ())
    else do
      let b ← nothing
      pure (if b then .error .enomem else .ok ())

/-- `tegra_ivc_check_read`. -/
def checkRead (ivc : TegraIvc) : Access (Except Errno Unit) :=
  check ivc (channelEmpty ivc ivc.rxBase)

/-- `tegra_ivc_check_write`. -/
def checkWrite (ivc : TegraIvc) : Access (Except Errno Unit) :=
  check ivc (channelFull ivc ivc.txBase)

/-- What a call returns. -/
inductive Reply
  | failed (e : Errno)
  /-- and whether `notify` was called -/
  | done (notify : Bool)
  | frame (addr : UInt64)
  /-- the check for non-existent frames has fired -/
  | noFrame
  deriving DecidableEq, Repr

/-- The address of a frame, as a reply. -/
def frameReply (ivc : TegraIvc) (h : UInt64) (frame : UInt32) : Reply :=
  match tegraIvcFrameAddr ivc h frame with
  | some addr => .frame addr
  | none => .noFrame

/-- `tegra_ivc_read_get_next_frame`. -/
def readGetNextFrame (ivc : TegraIvc) : Access (Reply × TegraIvc) := do
  match ← checkRead ivc with
  | .error e => pure (.failed e, ivc)
  | .ok () => pure (frameReply ivc ivc.rxBase ivc.rPos, ivc)

/-- `tegra_ivc_read_advance`. -/
def readAdvance (ivc : TegraIvc) : Access (Reply × TegraIvc) := do
  match ← checkRead ivc with
  | .error e => pure (.failed e, ivc)
  | .ok () => do
      let ivc ← advanceRx ivc
      let n ← channelAvailCount ivc.rxBase
      pure (.done (n == ivc.nframes - 1), ivc)

/-- `tegra_ivc_write_get_next_frame`. -/
def writeGetNextFrame (ivc : TegraIvc) : Access (Reply × TegraIvc) := do
  match ← checkWrite ivc with
  | .error e => pure (.failed e, ivc)
  | .ok () => pure (frameReply ivc ivc.txBase ivc.wPos, ivc)

/-- `tegra_ivc_write_advance`. -/
def writeAdvance (ivc : TegraIvc) : Access (Reply × TegraIvc) := do
  match ← checkWrite ivc with
  | .error e => pure (.failed e, ivc)
  | .ok () => do
      let ivc ← advanceTx ivc
      let n ← channelAvailCount ivc.txBase
      pure (.done (n == 1), ivc)

/-- Clear the counters and positions and move to a state. -/
def clearAndMove (ivc : TegraIvc) (state : UInt32) : Access TegraIvc := do
  store (wCountAddr ivc.txBase) 0
  store (rCountAddr ivc.rxBase) 0
  store (stateAddr ivc.txBase) state
  pure { ivc with wPos := 0, rPos := 0 }

/-- The branches of `tegra_ivc_channel_notified`, for the copy of the
peer's state, and whether `notify` was called. -/
def react (ivc : TegraIvc) (peerState : UInt32) :
    Access (Bool × TegraIvc) := do
  if peerState = ivcStateSync then do
    let ivc ← clearAndMove ivc ivcStateAck
    pure (true, ivc)
  else do
    let own ← load (stateAddr ivc.txBase)
    if own = ivcStateSync ∧ peerState = ivcStateAck then do
      let ivc ← clearAndMove ivc ivcStateEstablished
      pure (true, ivc)
    else do
      let own ← load (stateAddr ivc.txBase)
      if own = ivcStateAck then do
        store (stateAddr ivc.txBase) ivcStateEstablished
        pure (true, ivc)
      else pure (false, ivc)

/-- `tegra_ivc_channel_notified`. -/
def channelNotified (ivc : TegraIvc) : Access (Reply × TegraIvc) := do
  let peerState ← load (stateAddr ivc.rxBase)
  let r ← react ivc peerState
  let own ← load (stateAddr ivc.txBase)
  pure (if own ≠ ivcStateEstablished then .failed .eagain else .done r.1,
    r.2)

/-- `tegra_ivc_channel_reset`. -/
def channelReset (ivc : TegraIvc) : Access (Reply × TegraIvc) := do
  store (stateAddr ivc.txBase) ivcStateSync
  pure (.done true, ivc)

-- ================================================================= runs

/-- The functions other than `tegra_ivc_init`. -/
inductive ApiCall
  | readGetNextFrame
  | readAdvance
  | writeGetNextFrame
  | writeAdvance
  | channelNotified
  | channelReset
  deriving DecidableEq, Repr

def ApiCall.perform (ivc : TegraIvc) :
    ApiCall → Access (Reply × TegraIvc)
  | .readGetNextFrame => Ivc.readGetNextFrame ivc
  | .readAdvance => Ivc.readAdvance ivc
  | .writeGetNextFrame => Ivc.writeGetNextFrame ivc
  | .writeAdvance => Ivc.writeAdvance ivc
  | .channelNotified => Ivc.channelNotified ivc
  | .channelReset => Ivc.channelReset ivc

/-- An endpoint and the memory it shares; `reads` counts the calls of
`tegra_ivc_read_advance` that have succeeded. -/
structure Exposed where
  ivc : TegraIvc
  mem : UInt64 → UInt32
  reads : Nat

/-- A call, and what the peer does meanwhile. -/
abbrev Event : Type := ApiCall × Interference

/-- The reply to a call. -/
def Exposed.reply (s : Exposed) (e : Event) : Reply :=
  (e.1.perform s.ivc ⟨s.mem, e.2, 0⟩).1.1

/-- The call advances the reader. -/
def Exposed.advances (s : Exposed) (e : Event) : Bool :=
  e.1 = .readAdvance && match s.reply e with
    | .done _ => true
    | _ => false

/-- One call. -/
def exposedStep (s : Exposed) (e : Event) : Option Exposed :=
  let result := e.1.perform s.ivc ⟨s.mem, e.2, 0⟩
  some {
    ivc := result.1.2
    mem := result.2.mem
    reads := if s.advances e then s.reads + 1 else s.reads }

/-- The peer leaves the counters of the receive channel alone. -/
def LeavesCounters (rxBase : UInt64) (peer : Interference) : Prop :=
  ∀ t m i, i = wCountAddr rxBase ∨ i = rCountAddr rxBase →
    peer t m i = m i

/-- A call between two reads: not `tegra_ivc_channel_notified`, and not a
write that goes to a counter of the receive channel. -/
def BetweenReads (rxBase txBase : UInt64) (c : ApiCall) : Prop :=
  c ≠ .channelNotified ∧ (c = .writeAdvance →
    wCountAddr txBase ≠ wCountAddr rxBase
      ∧ wCountAddr txBase ≠ rCountAddr rxBase)

end ProjectsLibs.Ivc
