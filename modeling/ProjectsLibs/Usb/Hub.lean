/-
The hub driver (usbhub.c) and one port of a hub, request by request.

A port has a status word and change bits. A request to clear a change bit
clears that bit, and between any two requests the hardware may change the
status and set change bits, but not clear them. A transaction that fails
ends the run, so the requests here all succeed; what a hub answers to
GET_STATUS is its port at that time.

# Time

A call makes one request after the other, and the hardware has its turn
before each (`PortStatus.settle`): it may put anything into the status and
add change bits. What it does is given for every request number ahead, so
that a call is a function of it and all interleavings are covered by
quantifying over it. The log keeps with every request the port that it has
found.

The loop that waits for the end of a reset need not end, so it has fuel
here. A result is only spoken of where the loop has ended. Port number
zero is the hub itself, for which the call makes no request.
-/
import ProjectsLibs.Lib.Bits

namespace ProjectsLibs.Usb

open Lib

/-- `enum port_feature`. -/
inductive PortFeature
  | connection
  | enable
  | suspend
  | overCurrent
  | reset
  | power
  | lowSpeed
  | highSpeed
  | cConnection
  | cEnable
  | cSuspend
  | cOverCurrent
  | cReset
  | test
  | indicator
  deriving DecidableEq, Repr

/-- The selectors of the USB specification. -/
def PortFeature.code : PortFeature → Nat
  | .connection => 0
  | .enable => 1
  | .suspend => 2
  | .overCurrent => 3
  | .reset => 4
  | .power => 8
  | .lowSpeed => 9
  | .highSpeed => 10
  | .cConnection => 16
  | .cEnable => 17
  | .cSuspend => 18
  | .cOverCurrent => 19
  | .cReset => 20
  | .test => 21
  | .indicator => 22

/-- `struct port_status`. The two words have 16 bits. -/
structure PortStatus where
  wPortStatus : UInt32
  wPortChange : UInt32
  deriving DecidableEq, Repr

/-- `word & BIT(feature)`. -/
def hasBit (word : UInt32) (f : PortFeature) : Bool :=
  word &&& mask f.code ≠ 0

-- ============================================================== the port

/-- What the hardware does to a port before a request: the new status, and
the change bits that it sets. -/
structure PortTurn where
  status : UInt32
  raise : UInt32

/-- The bit of the change word that a request to clear a feature names. -/
def PortFeature.named : PortFeature → Option PortFeature
  | .cConnection => some .connection
  | .cEnable => some .enable
  | .cSuspend => some .suspend
  | .cOverCurrent => some .overCurrent
  | .cReset => some .reset
  | _ => none

/-- A request of the driver, about the port. -/
inductive HubReq
  | getStatus
  | setFeature (f : PortFeature)
  | clearFeature (f : PortFeature)
  deriving DecidableEq, Repr

/-- The port after the hardware had its turn. -/
def PortStatus.settle (e : PortTurn) (p : PortStatus) : PortStatus where
  wPortStatus := e.status
  wPortChange := p.wPortChange ||| e.raise

/-- The port after a request. What a request to set a feature does to the
status is the hardware's. -/
def PortStatus.serve (p : PortStatus) : HubReq → PortStatus
  | .clearFeature f =>
      match f.named with
      | some b => { p with wPortChange := p.wPortChange &&& ~~~mask b.code }
      | none => p
  | _ => p

-- ============================================================ the driver

namespace Hub

/-- A call in progress: the port, the number of requests so far, and the
requests, each with the port that it found. -/
structure Progress where
  port : PortStatus
  time : Nat
  log : List (HubReq × PortStatus)

variable (hw : Nat → PortTurn)

/-- The port that the next request finds. -/
def Progress.next (c : Progress) : PortStatus := c.port.settle (hw c.time)

/-- `usbdev_schedule_xact` of one request. -/
def Progress.send (c : Progress) (r : HubReq) : Progress where
  port := (c.next hw).serve r
  time := c.time + 1
  log := c.log ++ [(r, c.next hw)]

/-- The loop that waits for the end of the reset, with the last status. -/
def pollReset : Nat → Progress → Option (Progress × UInt32)
  | 0, _ => none
  | fuel + 1, c =>
      let status := (c.next hw).wPortStatus
      let c := c.send hw .getStatus
      if hasBit status .reset then pollReset fuel c else some (c, status)

/-- A device was attached. `newDevice` is what `usb_new_device` returns for
the speed that the status shows. -/
def attach (newDevice : UInt32 → Int) (fuel : Nat) (c : Progress) :
    Option Progress := do
  let c := c.send hw (.setFeature .reset)
  let (c, status) ← pollReset hw fuel c
  let c := c.send hw (.clearFeature .cReset)
  if newDevice status < 0 then some (c.send hw (.setFeature .reset))
  else some c

/-- A device may have been attached or detached. -/
def connectionChange (newDevice : UInt32 → Int) (fuel : Nat)
    (change status : UInt32) (c : Progress) : Option Progress :=
  if hasBit change .connection then
    let c := c.send hw (.clearFeature .cConnection)
    if hasBit status .connection then attach hw newDevice fuel c
    else some (c.send hw (.setFeature .suspend))
  else some c

/-- A change bit is acknowledged if it is set in the word that was read. -/
def acknowledge (change : UInt32) (b f : PortFeature) (c : Progress) :
    Progress :=
  if hasBit change b then c.send hw (.clearFeature f) else c

/-- `_handle_port_change`, for the requests that it makes. -/
def handlePortChange (newDevice : UInt32 → Int) (fuel : Nat) (port : Nat)
    (c : Progress) : Option Progress :=
  if port = 0 then some c
  else do
    let change := (c.next hw).wPortChange
    let status := (c.next hw).wPortStatus
    let c := c.send hw .getStatus
    let c ← connectionChange hw newDevice fuel change status c
    -- the port was enabled or disabled
    let c := acknowledge hw change .enable .cConnection c
    let c := acknowledge hw change .suspend .cSuspend c
    let c := acknowledge hw change .overCurrent .cOverCurrent c
    some (acknowledge hw change .reset .cReset c)

-- =================================================== what is to be shown

/-- A request to clear a change bit names one that was set at the start, or
the reset change after a reset of its own; or it finds the bit clear. -/
def Spares (start : UInt32) : Bool → List (HubReq × PortStatus) → Prop
  | _, [] => True
  | reset, (.getStatus, _) :: log => Spares start reset log
  | reset, (.setFeature f, _) :: log =>
      Spares start (reset || f == .reset) log
  | reset, (.clearFeature f, found) :: log =>
      (∀ b, f.named = some b → hasBit found.wPortChange b →
        hasBit start b ∨ b = .reset ∧ reset) ∧ Spares start reset log

/-- The changes that were read at the start are acknowledged, and no
others. -/
structure Acknowledged (start : UInt32) (log : List (HubReq × PortStatus)) :
    Prop where
  cleared : ∀ f b, f.named = some b → hasBit start b →
    ∃ found, (.clearFeature f, found) ∈ log
  spared : Spares start false log

end Hub

end ProjectsLibs.Usb
