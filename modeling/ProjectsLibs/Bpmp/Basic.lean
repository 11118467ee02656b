/-
`bpmp_call` of libtx2bpmp: one request frame out, one response frame in,
over an IVC channel of one frame in each direction.

# The parts of a call

The BPMP runs beside the call, so the function is cut where it looks at
the channel again: `bpmpCallSend` is everything before the polling loop,
`bpmpCallPoll` one iteration of the loop, `bpmpCallFinish` everything
after it. The loop's counter is kept by the caller of these parts.

# Bytes

A frame is the bytes from its first one on; what lies behind its end in
memory are the bytes from offset 128 on, since neither copy of the call
stops there. Words are stored with their low byte first. `size_t` values
are naturals: both are compared with 128 before they are used.
-/
import ProjectsLibs.Ivc.Basic

namespace ProjectsLibs.Bpmp

open Ivc

-- ================================================================ bytes

/-- Bytes by offset. -/
abbrev Bytes := Nat → UInt8

/-- Store a 32-bit word at `off`. -/
def storeWord (m : Bytes) (off : Nat) (w : UInt32) : Bytes :=
  fun i =>
    if off ≤ i ∧ i < off + 4 then UInt8.ofNat (w.toNat / 256 ^ (i - off))
    else m i

/-- Load a 32-bit word from `off`. -/
def loadWord (m : Bytes) (off : Nat) : UInt32 :=
  UInt32.ofNat ((m off).toNat + 256 * (m (off + 1)).toNat
    + 256 ^ 2 * (m (off + 2)).toNat + 256 ^ 3 * (m (off + 3)).toNat)

/-- `memcpy` of `n` bytes from `src + srcOff` to `dst + dstOff`. -/
def memcpy (dst : Bytes) (dstOff : Nat) (src : Bytes) (srcOff n : Nat) :
    Bytes :=
  fun i =>
    if dstOff ≤ i ∧ i < dstOff + n then src (srcOff + (i - dstOff))
    else dst i

-- ================================================================= data

/-- `BPMP_IVC_FRAME_SIZE`. -/
def bpmpIvcFrameSize : Nat := 128

/-- `TIMEOUT_THRESHOLD`. -/
def timeoutThreshold : Nat := 2000000

/-- `BPMP_FLAG_DO_ACK | BPMP_FLAG_RING_DOORBELL`. -/
def requestFlags : UInt32 := 3

/-- The size of `struct mrq_request` and of `struct mrq_response`. -/
def mrqHeaderSize : Nat := 8

/-- The arguments of a call; `rxMsg` is `none` for a null pointer. -/
structure Args where
  mrq : UInt32
  txMsg : Bytes
  txSize : Nat
  rxMsg : Option Bytes
  rxSize : Nat

/-- What a call returns: `rx_size`, or a negated error code. -/
inductive Ret
  | size (n : Nat)
  | eio
  | etimedout
  | einval
  | ivc (e : Errno)
  deriving DecidableEq, Repr

-- ================================================================= code

/-- The request a call writes over the frame's old contents. -/
def request (args : Args) (frame : Bytes) : Bytes :=
  memcpy (storeWord (storeWord frame 0 args.mrq) 4 requestFlags)
    mrqHeaderSize args.txMsg 0 args.txSize

/-- `resp->err`. -/
def respErr (frame : Bytes) : UInt32 := loadWord frame 0

/-- The call up to its polling loop, with what it returns when it does
not get there. -/
def bpmpCallSend (ivc : TegraIvc) (tx : Channel Bytes) (args : Args) :
    Option Ret × TegraIvc × Channel Bytes :=
  if bpmpIvcFrameSize < args.txSize ∨ bpmpIvcFrameSize < args.rxSize then
    (some .einval, ivc, tx)
  else
    match tegraIvcWriteGetNextFrame ivc tx with
    | .error e => (some (.ivc e), ivc, tx)
    | .ok frame =>
        let tx' := { tx with
          frames := Function.update tx.frames frame.toNat
            (request args (tx.frames frame.toNat)) }
        match tegraIvcWriteAdvance ivc tx' with
        | .error e => (some (.ivc e), ivc, tx')
        | .ok (ivc', tx'', _) => (none, ivc', tx'')

/-- One iteration of the polling loop: a return value, or the frame that
ends the loop, or no frame yet. -/
def bpmpCallPoll (ivc : TegraIvc) (tx rx : Channel Bytes) :
    Except Ret (Option UInt32) × TegraIvc × Channel Bytes × Channel Bytes :=
  match tegraIvcChannelNotified ivc tx rx with
  | (.error e, ivc', tx', rx', _) => (.error (.ivc e), ivc', tx', rx')
  | (.ok (), ivc', tx', rx', _) =>
      match tegraIvcReadGetNextFrame ivc' tx' rx' with
      | .ok frame => (.ok (some frame), ivc', tx', rx')
      | .error _ => (.ok none, ivc', tx', rx')

/-- The call after its polling loop: what it returns and leaves in
`rx_msg`. -/
def bpmpCallFinish (ivc : TegraIvc) (tx rx : Channel Bytes)
    (frame : UInt32) (args : Args) :
    Ret × Option Bytes × TegraIvc × Channel Bytes :=
  let resp := rx.frames frame.toNat
  let rxMsg :=
    if respErr resp = 0 then
      args.rxMsg.map fun buf => memcpy buf 0 resp mrqHeaderSize args.rxSize
    else args.rxMsg
  match tegraIvcReadAdvance ivc tx rx with
  | .error e => (.ivc e, rxMsg, ivc, rx)
  | .ok (ivc', rx', _) =>
      (if respErr resp ≠ 0 then .eio else .size args.rxSize, rxMsg, ivc',
        rx')

end ProjectsLibs.Bpmp
