/-
The Tegra IVC code of libtx2bpmp (`ivc.c`): the channel header in shared
memory, the local record of an endpoint, and the functions on them.

# Data

- The counters and positions are `uint32_t` and wrap, so they are
  `UInt32` here, and `w_count - r_count` is the machine's subtraction.
- `state` is a word of shared memory. Only three of its values have a
  name; `IvcState.other` stands for the rest, which memory that no
  endpoint has written yet may hold.
- The frames of a channel are a map from the frame number, with contents
  of any type. `tegra_ivc_frame_pointer` is `base + 128 + frame_size *
  frame`, so a frame pointer is its frame number here.

# Calls

A function takes the endpoint's record and the channels it looks at (`tx`
is the channel the endpoint transmits on, `rx` its peer's) and returns
what it may have written. The last component of a result says whether
the `notify` callback was called; what the callback does is up to the
user of the library and touches none of this state.
-/
import Mathlib.Algebra.Ring.Nat
import Mathlib.Logic.Function.Basic

namespace ProjectsLibs.Ivc

-- ================================================================ data

/-- `enum ivc_state`, as the `state` word of a channel header. -/
inductive IvcState
  | established
  | sync
  | ack
  | other
  deriving DecidableEq, Repr

/-- The error codes of the library (the C functions return them
negated). -/
inductive Errno
  | econnreset
  | enomem
  | eagain
  | einval
  deriving DecidableEq, Repr

/-- `struct tegra_ivc_channel_header` and the frames behind it. -/
structure Channel (α : Type) where
  /-- owned by the transmitting end -/
  wCount : UInt32
  /-- owned by the transmitting end -/
  state : IvcState
  /-- owned by the receiving end -/
  rCount : UInt32
  frames : Nat → α

/-- `struct tegra_ivc`, less the callback. -/
structure TegraIvc where
  rxBase : UInt64
  txBase : UInt64
  rPos : UInt32
  wPos : UInt32
  nframes : UInt32
  frameSize : UInt32
  deriving DecidableEq, Repr

variable {α : Type}

-- ============================================================= counters

/-- `tegra_ivc_channel_empty`: an over-full channel counts as empty. -/
def tegraIvcChannelEmpty (ivc : TegraIvc) (ch : Channel α) : Bool :=
  if ivc.nframes < ch.wCount - ch.rCount then true
  else ch.wCount == ch.rCount

/-- `tegra_ivc_channel_full`: an over-full channel counts as full. -/
def tegraIvcChannelFull (ivc : TegraIvc) (ch : Channel α) : Bool :=
  decide (ivc.nframes ≤ ch.wCount - ch.rCount)

/-- `tegra_ivc_channel_avail_count`. -/
def tegraIvcChannelAvailCount (ch : Channel α) : UInt32 :=
  ch.wCount - ch.rCount

/-- The position after `pos` in a list of `nframes` frames. -/
def nextPos (nframes pos : UInt32) : UInt32 :=
  if pos = nframes - 1 then 0 else pos + 1

/-- `tegra_ivc_advance_rx`. -/
def tegraIvcAdvanceRx (ivc : TegraIvc) (rx : Channel α) :
    TegraIvc × Channel α :=
  ({ ivc with rPos := nextPos ivc.nframes ivc.rPos },
   { rx with rCount := rx.rCount + 1 })

/-- `tegra_ivc_advance_tx`. -/
def tegraIvcAdvanceTx (ivc : TegraIvc) (tx : Channel α) :
    TegraIvc × Channel α :=
  ({ ivc with wPos := nextPos ivc.nframes ivc.wPos },
   { tx with wCount := tx.wCount + 1 })

/-- `tegra_ivc_check_read`. -/
def tegraIvcCheckRead (ivc : TegraIvc) (tx rx : Channel α) :
    Except Errno Unit :=
  if tx.state ≠ .established then .error .econnreset
  else if !tegraIvcChannelEmpty ivc rx then .ok ()
  else if tegraIvcChannelEmpty ivc rx then .error .enomem
  else .ok ()

/-- `tegra_ivc_check_write`. -/
def tegraIvcCheckWrite (ivc : TegraIvc) (tx : Channel α) :
    Except Errno Unit :=
  if tx.state ≠ .established then .error .econnreset
  else if !tegraIvcChannelFull ivc tx then .ok ()
  else if tegraIvcChannelFull ivc tx then .error .enomem
  else .ok ()

-- =============================================================== frames

/-- `tegra_ivc_read_get_next_frame`: the frame to read from. -/
def tegraIvcReadGetNextFrame (ivc : TegraIvc) (tx rx : Channel α) :
    Except Errno UInt32 :=
  match tegraIvcCheckRead ivc tx rx with
  | .error e => .error e
  | .ok () => .ok ivc.rPos

/-- `tegra_ivc_read_advance`: the frame read from is free again. -/
def tegraIvcReadAdvance (ivc : TegraIvc) (tx rx : Channel α) :
    Except Errno (TegraIvc × Channel α × Bool) :=
  match tegraIvcCheckRead ivc tx rx with
  | .error e => .error e
  | .ok () =>
      match tegraIvcAdvanceRx ivc rx with
      | (ivc', rx') =>
          .ok (ivc', rx',
            tegraIvcChannelAvailCount rx' == ivc'.nframes - 1)

/-- `tegra_ivc_write_get_next_frame`: the frame to write to. -/
def tegraIvcWriteGetNextFrame (ivc : TegraIvc) (tx : Channel α) :
    Except Errno UInt32 :=
  match tegraIvcCheckWrite ivc tx with
  | .error e => .error e
  | .ok () => .ok ivc.wPos

/-- `tegra_ivc_write_advance`: the frame written to is published. -/
def tegraIvcWriteAdvance (ivc : TegraIvc) (tx : Channel α) :
    Except Errno (TegraIvc × Channel α × Bool) :=
  match tegraIvcCheckWrite ivc tx with
  | .error e => .error e
  | .ok () =>
      match tegraIvcAdvanceTx ivc tx with
      | (ivc', tx') =>
          .ok (ivc', tx', tegraIvcChannelAvailCount tx' == 1)

-- ======================================================= reset protocol

/-- What `tegra_ivc_channel_notified` does, for the own state and the
copy of the peer's: `clear t` clears the own counters and then moves to
state `t`, `move t` only moves. -/
inductive Reaction
  | clear (t : IvcState)
  | move (t : IvcState)
  | nothing
  deriving DecidableEq, Repr

/-- The three branches of `tegra_ivc_channel_notified`. -/
def reaction (own peerState : IvcState) : Reaction :=
  if peerState = .sync then .clear .ack
  else if own = .sync ∧ peerState = .ack then .clear .established
  else if own = .ack then .move .established
  else .nothing

/-- `tegra_ivc_channel_notified`, as one step. The counters an endpoint
clears are the `w_count` of its `tx` and the `r_count` of its `rx`. -/
def tegraIvcChannelNotified (ivc : TegraIvc) (tx rx : Channel α) :
    Except Errno Unit × TegraIvc × Channel α × Channel α × Bool :=
  match reaction tx.state rx.state with
  | .clear t =>
      (if t ≠ .established then .error .eagain else .ok (),
        { ivc with wPos := 0, rPos := 0 },
        { tx with wCount := 0, state := t }, { rx with rCount := 0 }, true)
  | .move t =>
      (if t ≠ .established then .error .eagain else .ok (),
        ivc, { tx with state := t }, rx, true)
  | .nothing =>
      (if tx.state ≠ .established then .error .eagain else .ok (),
        ivc, tx, rx, false)

/-- `tegra_ivc_channel_reset`; it always notifies. -/
def tegraIvcChannelReset (tx : Channel α) : Channel α :=
  { tx with state := .sync }

-- ======================================================= initialisation

/-- `check_ivc_params`: true when the parameters are accepted. The
product in the overlap test is a 32-bit one, the sum a 64-bit one. -/
def checkIvcParams (qbase1 qbase2 : UInt64) (nframes frameSize : UInt32) :
    Bool :=
  if 0x100000000 ≤ nframes.toUInt64 * frameSize.toUInt64 then false
  else if qbase1 &&& 63 ≠ 0 ∨ qbase2 &&& 63 ≠ 0 then false
  else if frameSize &&& 63 ≠ 0 then false
  else if qbase1 < qbase2 then
    decide (qbase1 + (frameSize * nframes).toUInt64 ≤ qbase2)
  else decide (qbase2 + (frameSize * nframes).toUInt64 ≤ qbase1)

/-- `tegra_ivc_init`. It does not touch the channels. -/
def tegraIvcInit (rxBase txBase : UInt64) (nframes frameSize : UInt32) :
    Except Errno TegraIvc :=
  if checkIvcParams rxBase txBase nframes frameSize then
    .ok { rxBase := rxBase, txBase := txBase, rPos := 0, wPos := 0,
          nframes := nframes, frameSize := frameSize }
  else .error .einval

end ProjectsLibs.Ivc
