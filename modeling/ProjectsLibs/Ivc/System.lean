/-
Two IVC endpoints on a crossed pair of channels: what one transmits on
the other receives on.

# Two granularities

- `callStep`: every call is one step.
- `step`: the load of the peer's state, the two clears and the store of
  the own state in `tegra_ivc_channel_notified` are steps of their own,
  in the order the barriers enforce, and the other endpoint may do
  anything in between. The remaining calls store to shared memory at
  most once and are one step here too.

An endpoint is one thread of control: it makes one call at a time, and
the first two are `tegra_ivc_init` and `tegra_ivc_channel_reset`. Until
then the header it transmits on holds whatever the memory held.

# Frames

The client stores to a frame through the pointer it got from
`tegra_ivc_write_get_next_frame`. It may store there until the frame is
published by a successful `tegra_ivc_write_advance`, also after a reset;
`held` is that pointer. What a frame holds when it is published is what
was written, what it holds when it is given back is what was read.

# History

`written` and `read` list these contents since the endpoint last cleared
the counter they go with. No step looks at them.
-/
import ProjectsLibs.Lib.Run
import ProjectsLibs.Ivc.Basic

namespace ProjectsLibs.Ivc

open Lib

-- =============================================================== state

/-- The two ends. -/
inductive Side
  | a
  | b
  deriving DecidableEq, Repr

/-- The other end. -/
def Side.peer : Side → Side
  | .a => .b
  | .b => .a

/-- How far an endpoint has started. -/
inductive Boot
  | off
  /-- `tegra_ivc_init` has returned 0 -/
  | inited
  /-- and `tegra_ivc_channel_reset` was called -/
  | running
  deriving DecidableEq, Repr

/-- Where an endpoint is inside `tegra_ivc_channel_notified`. -/
inductive Pc
  /-- not inside -/
  | idle
  /-- the peer's state is copied -/
  | loaded (peerState : IvcState)
  /-- `w_count` is cleared on the way to state `t` -/
  | clearedW (t : IvcState)
  /-- `r_count` is cleared too -/
  | clearedR (t : IvcState)
  deriving DecidableEq, Repr

/-- What an endpoint has to itself, and its history. -/
structure Endpoint (α : Type) where
  boot : Boot
  ivc : TegraIvc
  pc : Pc
  /-- the frame the client may store to -/
  held : Option Nat
  /-- frames published since the endpoint last cleared its `w_count` -/
  written : List α
  /-- frames given back since it last cleared its `r_count` -/
  read : List α

/-- `chan p` is the channel `p` transmits on. -/
structure System (α : Type) where
  chan : Side → Channel α
  ep : Side → Endpoint α

/-- The parameters both endpoints are initialised with. -/
structure Config where
  base : Side → UInt64
  nframes : UInt32
  frameSize : UInt32

variable {α : Type}

/-- Before either endpoint has started: any memory, any local records. -/
def Off (s : System α) : Prop :=
  ∀ p, (s.ep p).boot = .off ∧ (s.ep p).pc = .idle ∧ (s.ep p).held = none

/-- Between calls of a started endpoint. -/
def System.ready (s : System α) (p : Side) : Bool :=
  (s.ep p).boot == .running && (s.ep p).pc == .idle

/-- Replace the endpoint `p`. -/
def System.setEp (s : System α) (p : Side) (e : Endpoint α) : System α :=
  { s with ep := Function.update s.ep p e }

/-- Replace the channel `p` transmits on. -/
def System.setTx (s : System α) (p : Side) (ch : Channel α) : System α :=
  { s with chan := Function.update s.chan p ch }

/-- Replace the channel `p` receives on. -/
def System.setRx (s : System α) (p : Side) (ch : Channel α) : System α :=
  { s with chan := Function.update s.chan p.peer ch }

-- =============================================================== calls

/-- `tegra_ivc_init`; when it fails the endpoint has not started. -/
def initStep (cfg : Config) (s : System α) (p : Side) : System α :=
  match tegraIvcInit (cfg.base p.peer) (cfg.base p) cfg.nframes
      cfg.frameSize with
  | .error _ => s
  | .ok ivc => s.setEp p { s.ep p with boot := .inited, ivc := ivc }

/-- `tegra_ivc_channel_reset`. -/
def resetStep (s : System α) (p : Side) : System α :=
  (s.setTx p (tegraIvcChannelReset (s.chan p))).setEp p
    { s.ep p with boot := .running }

/-- `tegra_ivc_write_get_next_frame`. -/
def writeGetStep (s : System α) (p : Side) : System α :=
  match tegraIvcWriteGetNextFrame (s.ep p).ivc (s.chan p) with
  | .error _ => s
  | .ok frame => s.setEp p { s.ep p with held := some frame.toNat }

/-- The client stores `x` to the frame it holds. -/
def fillStep (s : System α) (p : Side) (frame : Nat) (x : α) : System α :=
  s.setTx p { s.chan p with
    frames := Function.update (s.chan p).frames frame x }

/-- `tegra_ivc_write_advance`. -/
def writeAdvanceStep (s : System α) (p : Side) : System α :=
  match tegraIvcWriteAdvance (s.ep p).ivc (s.chan p) with
  | .error _ => s
  | .ok (ivc, tx, _) =>
      (s.setTx p tx).setEp p { s.ep p with
        ivc := ivc
        held := none
        written := (s.ep p).written
          ++ [(s.chan p).frames (s.ep p).ivc.wPos.toNat] }

/-- `tegra_ivc_read_advance`. -/
def readAdvanceStep (s : System α) (p : Side) : System α :=
  match tegraIvcReadAdvance (s.ep p).ivc (s.chan p) (s.chan p.peer) with
  | .error _ => s
  | .ok (ivc, rx, _) =>
      (s.setRx p rx).setEp p { s.ep p with
        ivc := ivc
        read := (s.ep p).read
          ++ [(s.chan p.peer).frames (s.ep p).ivc.rPos.toNat] }

/-- The calls and accesses that both granularities share. The frame that
`tegra_ivc_read_get_next_frame` returns is the one `readAdvance` gives
back, so that call leaves no trace here. -/
inductive Op (α : Type)
  | init
  | reset
  | writeGet
  | fill (x : α)
  | writeAdvance
  | readGet
  | readAdvance

/-- One shared operation of `p`; `none` when `p` cannot make it. -/
def opStep (cfg : Config) (s : System α) (p : Side) :
    Op α → Option (System α)
  | .init => if (s.ep p).boot = .off then some (initStep cfg s p) else none
  | .reset =>
      if (s.ep p).boot ≠ .off ∧ (s.ep p).pc = .idle then
        some (resetStep s p)
      else none
  | .writeGet => if s.ready p then some (writeGetStep s p) else none
  | .fill x =>
      match (s.ep p).held with
      | some frame => if s.ready p then some (fillStep s p frame x) else none
      | none => none
  | .writeAdvance => if s.ready p then some (writeAdvanceStep s p) else none
  | .readGet => if s.ready p then some s else none
  | .readAdvance => if s.ready p then some (readAdvanceStep s p) else none

-- ========================================================= whole calls

/-- Whole calls. -/
inductive Call (α : Type)
  | op (o : Op α)
  | notified

/-- `tegra_ivc_channel_notified` as one step. -/
def notifiedStep (s : System α) (p : Side) : System α :=
  match tegraIvcChannelNotified (s.ep p).ivc (s.chan p) (s.chan p.peer) with
  | (_, ivc, tx, rx, _) =>
      ((s.setTx p tx).setRx p rx).setEp p { s.ep p with
        ivc := ivc
        written := match reaction (s.chan p).state (s.chan p.peer).state with
          | .clear _ => []
          | _ => (s.ep p).written
        read := match reaction (s.chan p).state (s.chan p.peer).state with
          | .clear _ => []
          | _ => (s.ep p).read }

/-- One whole call of `p`. -/
def callStep (cfg : Config) (s : System α) :
    Side × Call α → Option (System α)
  | (p, .op o) => opStep cfg s p o
  | (p, .notified) => if s.ready p then some (notifiedStep s p) else none

-- ==================================== the steps of channel_notified

/-- Steps. -/
inductive Act (α : Type)
  | op (o : Op α)
  /-- enter `tegra_ivc_channel_notified` and copy the peer's state -/
  | load
  /-- the next store of `tegra_ivc_channel_notified`, or its return when
  there is none -/
  | proceed

/-- Enter `tegra_ivc_channel_notified`. -/
def loadStep (s : System α) (p : Side) : System α :=
  s.setEp p { s.ep p with pc := .loaded (s.chan p.peer).state }

/-- `tx_channel->w_count = 0`. -/
def clearWStep (s : System α) (p : Side) (t : IvcState) : System α :=
  (s.setTx p { s.chan p with wCount := 0 }).setEp p
    { s.ep p with pc := .clearedW t, written := [] }

/-- `rx_channel->r_count = 0`, and the two local positions. -/
def clearRStep (s : System α) (p : Side) (t : IvcState) : System α :=
  (s.setRx p { s.chan p.peer with rCount := 0 }).setEp p
    { s.ep p with
      pc := .clearedR t
      ivc := { (s.ep p).ivc with wPos := 0, rPos := 0 }
      read := [] }

/-- `tx_channel->state = t`, and return. -/
def moveStep (s : System α) (p : Side) (t : IvcState) : System α :=
  (s.setTx p { s.chan p with state := t }).setEp p
    { s.ep p with pc := .idle }

/-- The step after `pc`. -/
def proceedStep (s : System α) (p : Side) : Option (System α) :=
  match (s.ep p).pc with
  | .idle => none
  | .loaded peerState =>
      match reaction (s.chan p).state peerState with
      | .clear t => some (clearWStep s p t)
      | .move t => some (moveStep s p t)
      | .nothing => some (s.setEp p { s.ep p with pc := .idle })
  | .clearedW t => some (clearRStep s p t)
  | .clearedR t => some (moveStep s p t)

/-- One step of `p`. -/
def step (cfg : Config) (s : System α) :
    Side × Act α → Option (System α)
  | (p, .op o) => opStep cfg s p o
  | (p, .load) => if s.ready p then some (loadStep s p) else none
  | (p, .proceed) => proceedStep s p

end ProjectsLibs.Ivc
