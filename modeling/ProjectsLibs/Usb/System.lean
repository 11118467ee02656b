/-
The two ways the bus is driven: devices put in and taken out of the list
(`devStep`), and the events of a tree of hubs (`portStep`); with what is
expected of them.

# Reading the statements

The tree is driven by port changes as they are read from a hub: the
change bits, the status and the device descriptor are part of the event,
so a run is any sequence of changes with any contents, at ports that
exist. An operation that fails with a code goes on, as the driver does. A
step in which the code leaves its memory has no outcome, so a run ends in
front of it; that there is such a step is said of `handleEvent` or
`devlistInsert` themselves.

`Topology` is what the tree should be in every state, and says nothing
about addresses; those are `BitmapExact`. The conditions under which both
are kept, `SearchEnds` and `PortOk`, are on the state before the event,
and the modules that prove the statements show for each of them what the
code does where it does not hold.
-/
import ProjectsLibs.Lib.Forest
import ProjectsLibs.Lib.Run
import ProjectsLibs.Usb.Basic

namespace ProjectsLibs.Usb

open Lib

-- ============================================================ addresses

/-- An operation on the list of devices. -/
inductive DevOp
  /-- `devlist_insert`, and the address stored in the device -/
  | insert (d : DevId)
  | remove (d : DevId)

/-- `devlist_insert` as its caller makes it. -/
def insertStored (h : Host) (d : DevId) : Except Fault (Int × Host) := do
  let (addr, h) ← devlistInsert h d
  if addr < 0 then .ok (addr, h)
  else .ok (addr, h.setAddr d (UInt8.ofNat addr.toNat))

/-- A device is inserted when it is not in the list, and removed when it
is. -/
def devStep (h : Host) : DevOp → Option Host
  | .insert d =>
      if d ∈ h.devlist then none
      else
        match insertStored h d with
        | .ok (_, h') => some h'
        | .error _ => none
  | .remove d =>
      match devlistRemove h d with
      | .ok h' => some h'
      | .error _ => none

/-- The bitmap holds address 0 and the addresses of the devices. -/
def BitmapExact (h : Host) : Prop :=
  ∀ a < 32, testBit h.addrbm a = true ↔
    a = 0 ∨ ∃ d ∈ h.devlist, (h.devs d).addr.toNat = a

/-- An insertion comes to its end with an address that is free, or with
-1 when there is none. -/
def InsertMeets (h : Host) (d : DevId) : Prop :=
  ∃ r h', insertStored h d = .ok (r, h')
    ∧ (r = -1 ↔ h.devlist.length = 31)
    ∧ (r ≠ -1 → 1 ≤ r ∧ r ≤ 31
      ∧ ∀ e ∈ h.devlist, ((h.devs e).addr.toNat : Int) ≠ r)
    ∧ BitmapExact h'

/-- All addresses are taken, or one is free that the search comes to
before the end of the bitmap. -/
def SearchEnds (h : Host) : Prop :=
  h.devlist.length = 31
    ∨ ∃ a, h.nextAddr ≤ a ∧ a < 32
      ∧ ∀ e ∈ h.devlist, (h.devs e).addr.toNat ≠ a

/-- The list as `devlist_init` leaves it. -/
def DevlistFresh (h : Host) : Prop := ∃ h₀, h = devlistInit h₀

-- ============================================================= the tree

/-- Port `i + 1` of the hub bound to `x` records `d`. -/
def PortOf (h : Host) (x : DevId) (i : Nat) (d : DevId) : Prop :=
  ∃ u, (h.devs x).devData = some u ∧ i < u.nports ∧ u.port i = some d

/-- A port change, with what is read when it is handled. -/
structure PortEvent where
  hub : DevId
  port : Nat
  change : UInt32
  status : UInt32
  desc : Descriptor

namespace PortEvent

/-- The hub is in the tree and has the port. -/
def allowed (h : Host) (e : PortEvent) : Bool :=
  decide (e.hub ∈ h.devlist)
    && match (h.devs e.hub).devData with
      | some u => decide (1 ≤ e.port ∧ e.port ≤ u.nports)
      | none => false

/-- The connection has changed and a device is there: an attach, or a
detach and an attach that the hub reports as one. -/
def Connects (e : PortEvent) : Prop :=
  testBit e.change portConnection = true
    ∧ testBit e.status portConnection = true

/-- The connection has changed and no device is there. -/
def Disconnects (e : PortEvent) : Prop :=
  testBit e.change portConnection = true
    ∧ testBit e.status portConnection = false

end PortEvent

/-- `_handle_port_change` for an event. A tree is no deeper than there
are devices, so `fresh` steps are enough for a recursion over it. -/
def handleEvent (h : Host) (e : PortEvent) : Except Fault Host :=
  handlePortChange h.fresh h e.hub e.port e.change e.status e.desc

/-- The events of a bus. -/
def portStep (h : Host) (e : PortEvent) : Option Host :=
  if e.allowed h then
    match handleEvent h e with
    | .ok h' => some h'
    | .error _ => none
  else none

/-- The bus as `usb_init` leaves it when it returns 0, with its root
hub. -/
def Started (root : DevId) (h : Host) : Prop :=
  ∃ h₀ desc, root = h₀.fresh ∧ usbInit h₀ desc = .ok (0, h)

/-- The list holds the root hub and the devices that its hubs record,
each at one port. -/
structure Topology (root : DevId) (h : Host) : Prop where
  nodup : h.devlist.Nodup
  mem_iff : ∀ d, d ∈ h.devlist ↔
    d = root ∨ ∃ x ∈ h.devlist, ∃ i, PortOf h x i d
  unique : ∀ x ∈ h.devlist, ∀ y ∈ h.devlist, ∀ i j d,
    PortOf h x i d → PortOf h y j d → x = y ∧ i = j

/-- A device that connects does so at a port that records none, and its
address is found before the end of the bitmap (or there is none, and
nothing is recorded). Below a port that disconnects, every device of the
hub class has been bound. -/
structure PortOk (h : Host) (e : PortEvent) : Prop where
  connects : e.Connects → h.devlist.length = 31
    ∨ SearchEnds h ∧ ∀ d, ¬PortOf h e.hub (e.port - 1) d
  disconnects : e.Disconnects → ∀ d, PortOf h e.hub (e.port - 1) d →
    ∀ f, Below (PortOf h) d f → (h.devs f).cls = usbClassHub →
      (h.devs f).devData.isSome

end ProjectsLibs.Usb
