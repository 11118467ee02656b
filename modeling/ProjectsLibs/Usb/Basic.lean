/-
libusbdrivers: the devices of a bus and their addresses (usb.c), and what
the hub driver does when a port changes (usbhub.c).

Pointers to devices are numbers, the heap is a map from them, and an
allocation takes the next number. `devlist` is kept as the list it
represents: sglib's list macros are outside the repository.
Control transactions succeed. What is read off the bus (a port's status, a
device's class and number of ports, whether its configuration has an
endpoint) and whether the hub driver gets its memory come with the event.
A `ZF_LOGF` is not passed: where memory runs out behind one, there is no
event.
-/
import ProjectsLibs.Lib.Bits

namespace ProjectsLibs.Usb

open Lib

-- ================================================================ state

/-- What ends a run that the C code does not define the rest of. -/
inductive Fault
  /-- a shift by the width of the type -/
  | shift
  /-- `SGLIB_LIST_DELETE` of a device that is not in the list -/
  | notMember
  /-- a null pointer, freed memory or an array index out of bounds -/
  | null
  /-- the steps allowed for a loop have been used up -/
  | steps
  deriving DecidableEq, Repr

abbrev DevId := Nat

/-- `struct usb_hub`: the ports and the devices recorded at them. -/
structure UsbHub where
  nports : Nat
  port : Nat → Option DevId

/-- `struct usb_dev`. `devData` is the record that `dev_data` points to;
there is none if it is `NULL` or points to memory that has been freed. -/
structure UsbDev where
  hub : Option DevId
  port : Nat
  cls : UInt8
  addr : UInt8
  devData : Option UsbHub

/-- `struct usb`, with the heap its devices are in. -/
structure Host where
  addrbm : UInt32
  nextAddr : Nat
  devlist : List DevId
  devs : DevId → UsbDev
  /-- the next pointer that an allocation returns -/
  fresh : DevId

def numDevices : Nat := 32

def usbClassHub : UInt8 := 0x09

namespace Host

/-- Change one device. -/
def setDev (h : Host) (d : DevId) (f : UsbDev → UsbDev) : Host :=
  { h with devs := Function.update h.devs d (f (h.devs d)) }

/-- `d->addr = addr`. -/
def setAddr (h : Host) (d : DevId) (addr : UInt8) : Host :=
  h.setDev d fun x => { x with addr := addr }

end Host

-- ============================================================== devlist

/-- `1 << i`. -/
def shl (i : Nat) : Except Fault UInt32 :=
  if i < 32 then .ok (mask i) else .error .shift

/-- `devlist_init`. -/
def devlistInit (h : Host) : Host :=
  { h with devlist := [], addrbm := 1, nextAddr := 1 }

/-- The loop of `devlist_insert`: the first free address from `i` on. -/
def cycleAddr (bm : UInt32) : Nat → Nat → Except Fault Nat
  | 0, _ => .error .steps
  | fuel + 1, i => do
      let b ← shl i
      if bm &&& b ≠ 0 then
        -- address 0 is a special case
        if i = numDevices then cycleAddr bm fuel 1
        else cycleAddr bm fuel (i + 1)
      else .ok i

/-- `devlist_insert`. -/
def devlistInsert (h : Host) (d : DevId) : Except Fault (Int × Host) :=
  if h.addrbm.toNat = 2 ^ numDevices - 1 then .ok (-1, h)
  else do
    let i ← cycleAddr h.addrbm (2 * numDevices) h.nextAddr
    let b ← shl i
    .ok (i, { h with
      devlist := d :: h.devlist
      addrbm := h.addrbm ||| b
      nextAddr := if i + 1 = numDevices then 1 else i + 1 })

/-- `devlist_remove`. -/
def devlistRemove (h : Host) (d : DevId) : Except Fault Host :=
  if d ∉ h.devlist then .error .notMember
  else do
    let b ← shl (h.devs d).addr.toNat
    .ok ({ h with
      devlist := h.devlist.erase d
      addrbm := h.addrbm &&& ~~~b }.setAddr d 0xff)

-- ====================================================== devices and hubs

/-- What is read off a device that has been attached, and what memory
there is for it. -/
structure Descriptor where
  cls : UInt8
  nports : Nat
  /-- the configuration has an endpoint descriptor -/
  endpoint : Bool
  /-- there is memory for the record of a hub -/
  record : Bool
  /-- there is memory to read and parse the configuration -/
  config : Bool

/-- `usb_new_device_with_host`: the device, or null with the return
value -1. -/
def usbNewDeviceWithHost (h : Host) (hub : Option DevId) (port : Nat)
    (desc : Descriptor) : Except Fault (Option DevId × Host) :=
  let udev := h.fresh
  let h := { h with fresh := h.fresh + 1 }.setDev udev fun _ =>
    { hub := hub, port := port, cls := 0, addr := 0, devData := none }
  do
    let (addr, h) ← devlistInsert h udev
    if addr < 0 then .ok (none, h)
    else
      let h := h.setAddr udev (UInt8.ofNat addr.toNat)
      .ok (some udev, h.setDev udev fun x => { x with cls := desc.cls })

/-- `usb_hub_driver_bind`: a device of another class is left alone. Without
memory for the record `dev_data` stays as it is; where the configuration
cannot be parsed or has no endpoint, the record is freed and `dev_data`
keeps pointing to it. -/
def usbHubDriverBind (h : Host) (udev : DevId) (desc : Descriptor) :
    Int × Host :=
  if (h.devs udev).cls ≠ usbClassHub then (-1, h)
  else if desc.record = false then (-2, h)
  else if desc.config = false ∨ desc.endpoint = false then
    (-1, h.setDev udev fun x => { x with devData := none })
  else
    (0, h.setDev udev fun x =>
      { x with devData := some ⟨desc.nports, fun _ => none⟩ })

/-- `usb_init`: the root hub. -/
def usbInit (h : Host) (desc : Descriptor) : Except Fault (Int × Host) := do
  let (udev, h) ← usbNewDeviceWithHost (devlistInit h) none 1 desc
  match udev with
  | none => .ok (-1, h)
  | some udev =>
      let (err, h) := usbHubDriverBind h udev desc
      .ok (if err ≠ 0 then -1 else 0, h)

/-- The loop of `usbdev_disconnect` over the ports of a hub from `i`
on. -/
def disconnectPorts (disconnect : Host → DevId → Except Fault Host)
    (hub : UsbHub) : Nat → Host → Except Fault Host
  | 0, h => .ok h
  | n + 1, h =>
      match hub.port (hub.nports - (n + 1)) with
      | none => disconnectPorts disconnect hub n h
      | some d => do
          let h ← disconnect h d
          disconnectPorts disconnect hub n h

/-- `usbdev_disconnect`. -/
def usbdevDisconnect : Nat → Host → DevId → Except Fault Host
  | 0, _, _ => .error .steps
  | fuel + 1, h, udev => do
      let h ←
        if (h.devs udev).cls = usbClassHub then
          match (h.devs udev).devData with
          | none => .error .null
          | some hub =>
              disconnectPorts (usbdevDisconnect fuel) hub hub.nports h
        else .ok h
      devlistRemove h udev

/-- `h->port[port - 1].udev = d`. -/
def setPort (h : Host) (hub : DevId) (port : Nat) (d : Option DevId) :
    Host :=
  h.setDev hub fun x => { x with
    devData := x.devData.map fun u =>
      { u with port := Function.update u.port (port - 1) d } }

def portConnection : Nat := 0

/-- `_handle_port_change` on the hub bound to `hub`: `change` and
`status` are the words of the port's status, `desc` what enumeration
finds if a device is there. -/
def handlePortChange (fuel : Nat) (h : Host) (hub : DevId) (port : Nat)
    (change status : UInt32) (desc : Descriptor) : Except Fault Host :=
  if port = 0 then .ok h
  else
    match (h.devs hub).devData with
    | none => .error .null
    | some u =>
        if u.nports < port then .error .null
        else if change &&& mask portConnection ≠ 0 then
          if status &&& mask portConnection ≠ 0 then do
            let (newDev, h) ← usbNewDeviceWithHost h (some hub) port desc
            match newDev with
            | none => .ok h
            | some d =>
                let h := setPort h hub port (some d)
                .ok (usbHubDriverBind h d desc).2
          else
            match u.port (port - 1) with
            | none => .ok h
            | some d => do
                let h ← usbdevDisconnect fuel h d
                .ok (setPort h hub port none)
        else .ok h

end ProjectsLibs.Usb
