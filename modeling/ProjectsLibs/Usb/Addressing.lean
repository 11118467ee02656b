/-
The queue head of an endpoint while its device is in use: every call of
`usbdev_schedule_xact` on the endpoint leads to `ehci_schedule_xact` with
the address that the device has then, and other endpoints are scheduled
and cancelled in between. `RightDevice` is what the controller is to read
from the queue head.

# The runs

A device has its address 0 while it is enumerated, and the address it was
given from then on; a hub has its own. The queue head of an endpoint is
made by the first transaction and updated by the others, and between two
calls on the endpoint there are calls on others, which add queue heads to
the same list and take them out. The calls are the steps of a run, with
the fields of the device as they are at the time of the call.

A device that is not high speed is reached through the next high speed
hub above it, at the port of that hub below which it is; the path of
hubs is a list, and the function that looks for the hub goes up along it.
-/
import ProjectsLibs.Lib.Fields
import ProjectsLibs.Usb.Enumerate

namespace ProjectsLibs.Usb

open Lib Ehci

-- ============================================================ the device

namespace EnumHost

/-- The device that `usb_new_device` makes, before its first
transaction. -/
def newborn (s : EnumHost) (hub : DevId) (port : Nat) (speed : Speed) :
    Except Fault EnumHost := do
  let s₁ := s.allocDev (some hub) port speed
  let tt ← s₁.chooseTt (some hub) s.bus.fresh
  .ok (s₁.setTt s.bus.fresh tt)

def hubOf (s : EnumHost) (d : DevId) : Option DevId := (s.bus.devs d).hub

/-- The port of the next hub up at which a device at `port` is reached,
through the hubs `below` that one. -/
def portAbove (s : EnumHost) (port : Nat) (below : List DevId) : Nat :=
  match below.getLast? with
  | none => port
  | some p => (s.bus.devs p).port

end EnumHost

-- =============================================================== the use

/-- An endpoint and the controller's schedule. -/
structure EpHost where
  sched : Sched
  ep : Ep

inductive EpOp
  /-- a transaction on the endpoint -/
  | call (addr : UInt8) (maxPkt : UInt16) (slot : Slot)
  /-- one on another endpoint -/
  | otherCall (ep : Ep) (addr : UInt8) (hubAddr : Int8) (hubPort : UInt8)
      (speed : Speed) (slot : Slot)
  /-- the removal of another queue head -/
  | otherCancel (fuel : Nat) (q : QhId)

/-- One call, for an endpoint of a device at `hub` with the fields `x`. -/
def epStep (hub : Option DevId) (x : Extra) (s : EpHost) :
    EpOp → Option EpHost
  | .call addr maxPkt slot =>
      if addr.toNat < numDevices ∧ maxPkt.toNat < 2048 then
        let (ep, sched) := ehciScheduleXact s.sched slot addr
          (hubAddrArg hub x) x.ttPort x.speed { s.ep with maxPkt := maxPkt }
        some ⟨sched, ep⟩
      else none
  | .otherCall ep addr hubAddr hubPort speed slot =>
      if ∀ q ∈ ep.hcpriv, q < s.sched.fresh ∧ s.ep.hcpriv ≠ some q then
        some { s with sched := (ehciScheduleXact s.sched slot addr hubAddr
          hubPort speed ep).2 }
      else none
  | .otherCancel fuel q =>
      if s.ep.hcpriv ≠ some q then
        match ehciDelQhnAsync fuel s.sched.ring q with
        | .ok ring => some { s with sched := { s.sched with ring := ring } }
        | .error _ => none
      else none

/-- An endpoint that was not used yet. -/
def EpInit (s : EpHost) : Prop :=
  s.ep.hcpriv = none ∧ s.ep.num.toNat < 16

-- ================================================== what is to be shown

/-- A path of hubs with addresses and ports as they are given out. -/
structure HubPath (h : EnumHost) (hub : DevId) (path : List DevId) :
    Prop where
  leads : Leads h.hubOf (some hub) path none
  old : ∀ p ∈ path, p < h.bus.fresh
  addr : ∀ p ∈ path, 1 ≤ (h.bus.devs p).addr.toNat
    ∧ (h.bus.devs p).addr.toNat ≤ 31
  port : ∀ p ∈ path, 1 ≤ (h.bus.devs p).port
    ∧ (h.bus.devs p).port ≤ 127

/-- The words of a queue head lead the controller to an endpoint of a
device at `port`, below the hubs `path`. -/
structure RightDevice (h : EnumHost) (path : List DevId) (port : Nat)
    (speed : Speed) (ep : Ep) (addr : UInt8) (epc0 epc1 : UInt32) :
    Prop where
  num : take 4 8 epc0 = ep.num.toUInt32
  eps : take 2 12 epc0 = speedCode speed
  control : ep.type = .control →
    epc0 &&& ~~~mask qhepc0H = allocEpc0 addr speed ep
      ∧ qhepc0GetAddr epc0 = addr.toUInt32
      ∧ qhepc0GetMaxpkt epc0 = ep.maxPkt.toUInt32
  high : speed = .high → take 7 16 epc1 = 0 ∧ take 7 23 epc1 = 0
  translated : speed ≠ .high → ∀ below hub above,
    path = below ++ hub :: above →
    (∀ p ∈ below, (h.extra p).speed ≠ .high) →
    (h.extra hub).speed = .high →
      take 7 16 epc1 = (h.bus.devs hub).addr.toUInt32
        ∧ (take 7 23 epc1).toNat = h.portAbove port below
  direct : speed ≠ .high → (∀ p ∈ path, (h.extra p).speed ≠ .high) →
    take 7 16 epc1 = 0 ∧ take 7 23 epc1 = 0

end ProjectsLibs.Usb
