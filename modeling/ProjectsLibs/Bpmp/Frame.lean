/-
`bpmp_call` byte by byte: the frames have the `BPMP_IVC_FRAME_SIZE` bytes
that the channel was made with, and a store or a load outside of them is
a fault. `Proofs/Frame` shows that without a fault the request and the
response are those of `Basic`.

A call here is whole: the channels may be in any state when it starts and
each time that it looks at them.

# The call

A request and a response have a header of two words, and a payload behind
it. The sizes of the payloads are arguments of the caller, which the code
compares with nothing but the size of a frame, so the header is left out
of account. What a call does to its own frame is a list of stores
(`storeRequest`), and what it does to the one of the response a list of
loads (`loadResponse`). Both stop at the first access outside.

`StaysInside` is what a call has to do, and `HeaderFits` the condition
under which it does, which looks at the arguments only.
-/
import ProjectsLibs.Bpmp.Basic

namespace ProjectsLibs.Bpmp

open Ivc

-- ================================================================ bytes

/-- An access outside of a frame. -/
inductive Fault
  | outside
  deriving DecidableEq, Repr

/-- Store a byte to a frame. -/
def storeByte (m : Bytes) (off : Nat) (v : UInt8) : Except Fault Bytes :=
  if off < bpmpIvcFrameSize then .ok (Function.update m off v)
  else .error .outside

/-- Load a byte from a frame. -/
def loadByte (m : Bytes) (off : Nat) : Except Fault UInt8 :=
  if off < bpmpIvcFrameSize then .ok (m off) else .error .outside

/-- Store bytes from `off` on. -/
def storeBytes : Bytes → Nat → List UInt8 → Except Fault Bytes
  | m, _, [] => .ok m
  | m, off, v :: vs => do
      let m ← storeByte m off v
      storeBytes m (off + 1) vs

/-- Load `n` bytes from `off` on. -/
def loadBytes (m : Bytes) : Nat → Nat → Except Fault (List UInt8)
  | _, 0 => .ok []
  | off, n + 1 => do
      let v ← loadByte m off
      let vs ← loadBytes m (off + 1) n
      .ok (v :: vs)

/-- The bytes of a word, the low one first. -/
def wordBytes (w : UInt32) : List UInt8 :=
  (List.range 4).map fun i => UInt8.ofNat (w.toNat / 256 ^ i)

/-- The word with these bytes. -/
def wordOf : List UInt8 → UInt32
  | [b₀, b₁, b₂, b₃] => UInt32.ofNat (b₀.toNat + 256 * b₁.toNat
      + 256 ^ 2 * b₂.toNat + 256 ^ 3 * b₃.toNat)
  | _ => 0

-- ================================================================= code

/-- The stores of a request: `req->mrq`, `req->flags`, and the
`memcpy`. -/
def storeRequest (args : Args) (frame : Bytes) : Except Fault Bytes := do
  let frame ← storeBytes frame 0 (wordBytes args.mrq)
  let frame ← storeBytes frame 4 (wordBytes requestFlags)
  storeBytes frame mrqHeaderSize ((List.range args.txSize).map args.txMsg)

/-- The loads of a response: `resp->err`, and the `memcpy` to `rx_msg`. -/
def loadResponse (args : Args) (resp : Bytes) :
    Except Fault (UInt32 × Option Bytes) := do
  let err ← (loadBytes resp 0 4).map wordOf
  match args.rxMsg with
  | some buf =>
      if err = 0 ∧ args.rxSize ≠ 0 then do
        let vs ← loadBytes resp mrqHeaderSize args.rxSize
        .ok (err, some fun i => vs.getD i (buf i))
      else .ok (err, some buf)
  | none => .ok (err, none)

/-- What a call leaves: its return value, the frame that it published, the
frame that it read, and `rx_msg`. -/
structure CallResult where
  ret : Ret
  sent : Option Bytes
  resp : Option Bytes
  rxMsg : Option Bytes

/-- The channels as a call finds them, each time that it looks. -/
abbrev Looks := Nat → Channel Bytes × Channel Bytes

/-- The call behind its polling loop. -/
def finishCall (args : Args) (sent : Bytes) (ivc : TegraIvc)
    (tx rx : Channel Bytes) (frame : UInt32) : Except Fault CallResult := do
  let resp := rx.frames frame.toNat
  let (err, rxMsg) ← loadResponse args resp
  match tegraIvcReadAdvance ivc tx rx with
  | .error e => .ok ⟨.ivc e, some sent, some resp, rxMsg⟩
  | .ok _ =>
      .ok ⟨if err ≠ 0 then .eio else .size args.rxSize, some sent,
        some resp, rxMsg⟩

/-- The polling loop, from the look `n` on. -/
def pollCall (args : Args) (sent : Bytes) (looks : Looks) :
    Nat → Nat → TegraIvc → Except Fault CallResult
  | 0, _, _ => .ok ⟨.etimedout, some sent, none, args.rxMsg⟩
  | timeout + 1, n, ivc =>
      match bpmpCallPoll ivc (looks n).1 (looks n).2 with
      | (.error ret, _) => .ok ⟨ret, some sent, none, args.rxMsg⟩
      | (.ok none, ivc, _) => pollCall args sent looks timeout (n + 1) ivc
      | (.ok (some frame), ivc, _) =>
          finishCall args sent ivc (looks (n + 1)).1 (looks (n + 1)).2 frame

/-- `bpmp_call`. -/
def bpmpCall (args : Args) (ivc : TegraIvc) (looks : Looks) :
    Except Fault CallResult :=
  if bpmpIvcFrameSize < args.txSize ∨ bpmpIvcFrameSize < args.rxSize then
    .ok ⟨.einval, none, none, args.rxMsg⟩
  else
    let tx := (looks 0).1
    match tegraIvcWriteGetNextFrame ivc tx with
    | .error e => .ok ⟨.ivc e, none, none, args.rxMsg⟩
    | .ok frame => do
        let sent ← storeRequest args (tx.frames frame.toNat)
        let tx := { tx with
          frames := Function.update tx.frames frame.toNat sent }
        match tegraIvcWriteAdvance ivc tx with
        | .error e => .ok ⟨.ivc e, none, none, args.rxMsg⟩
        | .ok (ivc, _) =>
            pollCall args sent looks timeoutThreshold 1 ivc

-- ======================================================= what is expected

/-- `rx_msg` holds the payload of the response, and nothing else of it. -/
def Copied (args : Args) (resp : Bytes) (rxMsg : Option Bytes) : Prop :=
  match args.rxMsg, rxMsg with
  | some old, some new =>
      (∀ i < args.rxSize, new i = resp (mrqHeaderSize + i))
        ∧ ∀ i, args.rxSize ≤ i → new i = old i
  | none, none => args.rxSize = 0
  | _, _ => False

/-- A call stays inside its frames; if it returns `rx_size`, then it has
transmitted its message and copied the payload of the response. -/
def StaysInside (args : Args) (ivc : TegraIvc) (looks : Looks) : Prop :=
  ∃ r, bpmpCall args ivc looks = .ok r
    ∧ (r.ret = .size args.rxSize →
      (∃ sent, r.sent = some sent
        ∧ ∀ i < args.txSize, sent (mrqHeaderSize + i) = args.txMsg i)
      ∧ ∃ resp, r.resp = some resp ∧ Copied args resp r.rxMsg)

/-- The condition: the header leaves room for the payloads, and there is
somewhere to copy a response to. -/
structure HeaderFits (args : Args) : Prop where
  tx : mrqHeaderSize + args.txSize ≤ bpmpIvcFrameSize
  rx : mrqHeaderSize + args.rxSize ≤ bpmpIvcFrameSize
  msg : args.rxMsg = none → args.rxSize = 0

end ProjectsLibs.Bpmp
