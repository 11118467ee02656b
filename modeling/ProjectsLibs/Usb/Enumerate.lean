/-
Enumeration with its failures (usb.c): a device is allocated, scheduled
on the controller, put into the list of devices and given its address,
and each of the calls on the way may fail.

What a call comes to is an input (`Turns`), and so is what is found in
memory that was freed. The drivers' own endpoints are left out: a device
has its control endpoint.

# What can fail

Each call into another component may fail, and the order of the calls
decides what is left behind then: before the first transaction there is a
record in memory only, after it a queue head is in the schedule, and
after `devlist_insert` the device has an address. The error exits free
the record and do nothing else. `NoTrace` is what one would expect of
them, and `EnumOk` says in which cases the driver does it.

The queue heads of other devices are in the same ring, so the schedule of
QueueHead is part of the state, and a run may enumerate and remove
devices in any order.
-/
import ProjectsLibs.Ehci.QueueHead
import ProjectsLibs.Usb.System

namespace ProjectsLibs.Usb

open Lib Ehci

-- ================================================================ state

/-- The fields of `struct usb_dev` that are not in `UsbDev`: its speed,
its transaction translator and its control endpoint. -/
structure Extra where
  speed : Speed
  ttAddr : UInt8
  ttPort : UInt8
  epCtrl : Ep

/-- The devices and the controller's schedule. -/
structure EnumHost where
  bus : Host
  extra : DevId → Extra
  sched : Sched

/-- What the calls that enumeration makes come to: memory for the device
and for its endpoint, memory for the packets, the values that the three
transactions return with what the hardware has to do with them, and what
is read. -/
structure Turns where
  devMem : Bool
  epMem : Bool
  dma : Bool
  firstRead : Int
  maxPkt : UInt8
  setAddress : Int
  secondRead : Int
  cls : UInt8
  slots : Slot × Slot × Slot

/-- The memory of a device that was freed. -/
abbrev Freed := UsbDev × Extra

/-- What `usb_new_device_with_host` returns, the device, and the queue
head that was made for it. -/
structure Enumerated where
  ret : Int
  dev : Option DevId
  hcpriv : Option QhId
  host : EnumHost

/-- `hub_addr` of `usbdev_schedule_xact`, as the controller's driver gets
it: -1 for the root hub. -/
def hubAddrArg (hub : Option DevId) (x : Extra) : Int8 :=
  let hubAddr : UInt8 := if hub.isSome then x.ttAddr else 0xff
  hubAddr.toInt8

namespace EnumHost

def setExtra (s : EnumHost) (d : DevId) (f : Extra → Extra) : EnumHost :=
  { s with extra := Function.update s.extra d (f (s.extra d)) }

/-- `usb_free` of a device. -/
def free (s : EnumHost) (d : DevId) (junk : Freed) : EnumHost :=
  { s with
    bus := s.bus.setDev d fun _ => junk.1
    extra := Function.update s.extra d junk.2 }

-- ========================================================== enumeration

/-- The device as `usb_malloc` and the assignments leave it. -/
def allocDev (s : EnumHost) (hub : Option DevId) (port : Nat)
    (speed : Speed) : EnumHost :=
  let udev := s.bus.fresh
  { s with
    bus := { s.bus with fresh := udev + 1 }.setDev udev fun _ =>
      { hub := hub, port := (UInt8.ofNat port).toNat, cls := 0, addr := 0,
        devData := none }
    extra := Function.update s.extra udev
      { speed := speed, ttAddr := 0, ttPort := 0,
        epCtrl := ⟨.control, 0, 0, none⟩ } }

/-- The search for the transaction translator, from `parent` up. -/
def findTt (s : EnumHost) :
    Nat → Option DevId → DevId → Except Fault (UInt8 × UInt8)
  | _, none, _ => .ok (0, 0)
  | 0, some _, _ => .error .steps
  | fuel + 1, some parent, child =>
      if (s.extra parent).speed = .high then
        .ok ((s.bus.devs parent).addr, UInt8.ofNat (s.bus.devs child).port)
      else findTt s fuel (s.bus.devs parent).hub parent

/-- The transaction translator of a full or low speed device. -/
def chooseTt (s : EnumHost) (hub : Option DevId) (udev : DevId) :
    Except Fault (UInt8 × UInt8) :=
  if (s.extra udev).speed ≠ .high then findTt s s.bus.fresh hub udev
  else .ok (0, 0)

/-- `hub_addr` of `usbdev_schedule_xact`. -/
def hubAddr (s : EnumHost) (udev : DevId) : Int8 :=
  hubAddrArg (s.bus.devs udev).hub (s.extra udev)

/-- The queue head of `usbdev_schedule_xact`, on the control endpoint. -/
def usbdevScheduleXact (s : EnumHost) (udev : DevId) (slot : Slot) :
    EnumHost :=
  let x := s.extra udev
  let (ep, sched) := ehciScheduleXact s.sched slot (s.bus.devs udev).addr
    (s.hubAddr udev) x.ttPort x.speed x.epCtrl
  { s.setExtra udev (fun x => { x with epCtrl := ep }) with sched := sched }

/-- An error exit: the device is freed. -/
def giveUp (s : EnumHost) (udev : DevId) (junk : Freed) : Enumerated where
  ret := -1
  dev := none
  hcpriv := (s.extra udev).epCtrl.hcpriv
  host := s.free udev junk

/-- From the second read on. -/
def readDescriptor (s : EnumHost) (udev : DevId) (t : Turns)
    (junk : Freed) : Enumerated :=
  let s := s.usbdevScheduleXact udev t.slots.2.2
  if t.secondRead < 0 then s.giveUp udev junk
  else {
    ret := 0
    dev := some udev
    hcpriv := (s.extra udev).epCtrl.hcpriv
    host := { s with bus := s.bus.setDev udev fun x =>
      { x with cls := t.cls } } }

/-- From the address request on. -/
def assignAddress (s : EnumHost) (udev : DevId) (addr : Int) (t : Turns)
    (junk : Freed) : Enumerated :=
  let s := s.usbdevScheduleXact udev t.slots.2.1
  if t.setAddress < 0 then s.giveUp udev junk
  else
    let s := { s with bus := s.bus.setAddr udev (UInt8.ofNat addr.toNat) }
    s.readDescriptor udev t junk

/-- From the search for an address on. -/
def registerDev (s : EnumHost) (udev : DevId) (t : Turns) (junk : Freed) :
    Except Fault Enumerated := do
  let (addr, bus) ← devlistInsert s.bus udev
  let s := { s with bus := bus }
  if addr < 0 then .ok (s.giveUp udev junk)
  else .ok (s.assignAddress udev addr t junk)

/-- From the first read on. -/
def readMaxPkt (s : EnumHost) (udev : DevId) (t : Turns) (junk : Freed) :
    Except Fault Enumerated :=
  let s := s.usbdevScheduleXact udev t.slots.1
  if t.firstRead < 0 then .ok (s.giveUp udev junk)
  else
    let s := s.setExtra udev fun x => { x with
      epCtrl := { x.epCtrl with maxPkt := t.maxPkt.toUInt16 } }
    s.registerDev udev t junk

/-- `udev->tt_addr` and `udev->tt_port`, and `max_pkt` of the control
endpoint. -/
def setTt (s : EnumHost) (udev : DevId) (tt : UInt8 × UInt8) : EnumHost :=
  s.setExtra udev fun x => { x with
    ttAddr := tt.1
    ttPort := tt.2
    epCtrl := { x.epCtrl with maxPkt := 8 } }

/-- `usb_new_device_with_host`. -/
def usbNewDeviceWithHost (s : EnumHost) (hub : Option DevId) (port : Nat)
    (speed : Speed) (t : Turns) (junk : Freed) :
    Except Fault Enumerated :=
  if t.devMem = false then .ok ⟨-1, none, none, s⟩
  else
    let udev := s.bus.fresh
    let s := s.allocDev hub port speed
    do
      let tt ← s.chooseTt hub udev
      if t.epMem = false then .ok (s.giveUp udev junk)
      else if t.dma = false then .ok ((s.setTt udev tt).giveUp udev junk)
      else (s.setTt udev tt).readMaxPkt udev t junk

/-- `usb_new_device`. -/
def usbNewDevice (s : EnumHost) (hub : DevId) (port : Nat) (speed : Speed)
    (t : Turns) (junk : Freed) : Except Fault Enumerated :=
  s.usbNewDeviceWithHost (some hub) port speed t junk

-- =========================================================== disconnect

/-- A fault of the controller's driver. -/
def ofEhci {α : Type} : Except Ehci.Fault α → Except Fault α
  | .ok a => .ok a
  | .error .null => .error .null
  | .error .endless => .error .steps

/-- The loop of `usbdev_disconnect` over the ports of a hub from `i`
on. -/
def disconnectPorts
    (disconnect : EnumHost → DevId → Except Fault EnumHost)
    (hub : UsbHub) : Nat → EnumHost → Except Fault EnumHost
  | 0, s => .ok s
  | n + 1, s =>
      match hub.port (hub.nports - (n + 1)) with
      | none => disconnectPorts disconnect hub n s
      | some d => do
          let s ← disconnect s d
          disconnectPorts disconnect hub n s

/-- The end of `usbdev_disconnect`: the control endpoint is cancelled and
the device leaves the list and is freed. -/
def removeDev (s : EnumHost) (udev : DevId) (junk : DevId → Freed) :
    Except Fault EnumHost := do
  let sched ← ofEhci (ehciCancelXact (s.sched.fresh + 1) s.sched
    (s.extra udev).epCtrl)
  let bus ← devlistRemove s.bus udev
  .ok ({ s with sched := sched, bus := bus }.free udev (junk udev))

/-- `usbdev_disconnect`. -/
def usbdevDisconnect (junk : DevId → Freed) :
    Nat → EnumHost → DevId → Except Fault EnumHost
  | 0, _, _ => .error .steps
  | fuel + 1, s, udev => do
      let s ←
        if (s.bus.devs udev).cls = usbClassHub then
          match (s.bus.devs udev).devData with
          | none => .error .null
          | some hub =>
              disconnectPorts (usbdevDisconnect junk fuel) hub hub.nports s
        else .ok s
      s.removeDev udev junk

end EnumHost

-- ================================================================ in use

inductive EnumOp
  | newDevice (hub : DevId) (port : Nat) (speed : Speed) (t : Turns)
      (junk : Freed)
  | disconnect (d : DevId) (junk : DevId → Freed)
  /-- the hub driver's own record of a device -/
  | driver (d : DevId) (data : Option UsbHub)

/-- Every device is at a hub that is in the list. -/
def Rooted (h : Host) : Prop :=
  ∀ d ∈ h.devlist, ∀ p ∈ (h.devs d).hub, p ∈ h.devlist

instance (h : Host) : Decidable (Rooted h) :=
  inferInstanceAs (Decidable (∀ d ∈ h.devlist, _))

/-- One step. A hub is disconnected with the devices at it: the driver
records every device at its port. -/
def enumStep (s : EnumHost) : EnumOp → Option EnumHost
  | .newDevice hub port speed t junk =>
      if hub ∈ s.bus.devlist then
        match s.usbNewDevice hub port speed t junk with
        | .ok r => some r.host
        | .error _ => none
      else none
  | .disconnect d junk =>
      if d ∈ s.bus.devlist then
        match EnumHost.usbdevDisconnect junk s.bus.fresh s d with
        | .ok s' => if Rooted s'.bus then some s' else none
        | .error _ => none
      else none
  | .driver d data => some { s with
      bus := s.bus.setDev d fun x => { x with devData := data } }

/-- The bus as `usb_init` leaves it, with the root hub. -/
def EnumInit (s : EnumHost) : Prop :=
  ∃ (s₀ : EnumHost) (t : Turns) (junk : Freed) (r : Enumerated),
    s₀.sched.ring.alistTail = none
      ∧ EnumHost.usbNewDeviceWithHost
          { s₀ with bus := devlistInit s₀.bus } none 1 .low t junk
        = .ok r
      ∧ r.ret = 0 ∧ s = r.host

-- ================================================== what is to be shown

/-- `devlist_at`. -/
def devlistAt (h : Host) (addr : Int) : Option DevId :=
  h.devlist.find? fun d => ((h.devs d).addr.toNat : Int) = addr

/-- `usb_get_device`. -/
def usbGetDevice (h : Host) (addr : Int) : Option DevId :=
  if addr ≤ 0 ∨ (numDevices : Int) ≤ addr then none else devlistAt h addr

/-- Nothing is left of a device: it is not in the list, it has no address,
no queue head of its own is linked, and the others are found as before. -/
structure NoTrace (s : EnumHost) (r : Enumerated) : Prop where
  devlist : ∀ d, d ∈ r.host.bus.devlist ↔ d ∈ s.bus.devlist
  addrbm : r.host.bus.addrbm = s.bus.addrbm
  unlinked : ∀ q ∈ r.hcpriv, ¬Reaches r.host.sched.ring q
  devices : ∀ addr,
    usbGetDevice r.host.bus addr = usbGetDevice s.bus addr

/-- One of the allocations at the start fails. -/
def Turns.NoMemory (t : Turns) : Prop :=
  t.devMem = false ∨ t.epMem = false ∨ t.dma = false

instance (t : Turns) : Decidable t.NoMemory :=
  inferInstanceAs (Decidable (_ ∨ _ ∨ _))

/-- A device is enumerated to the end, or fails before it is in the list:
for memory, in its first read, or because no address is free. -/
def EnumOk (s : EnumHost) : EnumOp → Prop
  | .newDevice _ _ _ t _ => t.NoMemory ∨ t.firstRead < 0
      ∨ s.bus.addrbm.toNat = 2 ^ numDevices - 1
      ∨ (0 ≤ t.setAddress ∧ 0 ≤ t.secondRead)
  | _ => True

end ProjectsLibs.Usb
