/-
How a change of a root port gets to the hub driver: the length of the
interrupt buffer comes from the endpoint descriptor that the hub emulation
builds, through the parser of configurations (usb.c) and the hub driver
(usbhub.c), to the controller driver (hcd.c), which writes the bitmap that
the hub driver reads.

The registers do not change while the bitmap is built.

# Which parts are here

The parser of configurations is that of the bus (`parseConfig`), over
descriptors as the root hub builds them. The callback is the one of the
hub driver, which records the packet size of the interrupt endpoint. The
controller driver then fills the buffer in the interrupt, and the hub
driver goes through it bit by bit. What is reported of a port is either a
change bit of its register or a finished reset that is recorded.

A write outside of the buffer is an outcome of its own, as its effect is
not defined.
-/
import ProjectsLibs.Ehci.RootHub
import ProjectsLibs.Usb.Config

namespace ProjectsLibs.Ehci

open Lib Usb

/-- The feature that a request names. One that is unknown is treated as
those that no function handles. -/
def featureOf (code : Nat) : PortFeature :=
  ([.connection, .enable, .suspend, .overCurrent, .reset, .power, .lowSpeed,
    .highSpeed, .cConnection, .cEnable, .cSuspend, .cOverCurrent, .cReset,
    .test, .indicator].find? fun f => f.code = code).getD .test

/-- The hub emulation as `ehci_host_init` registers it. -/
def ehciHubem (hw : Changes) (nports : Nat) : Hubem RootHub where
  hubemNports := nports
  pwrDelayMs := 100
  setPf s port f := setPf hw s port (featureOf f)
  clrPf s port f := clrPf hw s port (featureOf f)
  getPstat s port := (getPstat hw s port).map fun (ps, s) => (0, ps, s)

-- ================================================= the length of the buffer

/-- What `hub_config_cb` sets of `struct usb_hub`. -/
structure HubConfig where
  intEp : Int
  intMaxPkt : Nat
  intRateMs : Nat
  ifno : Int
  cfgno : Int
  deriving DecidableEq, Repr

/-- A byte of a descriptor. -/
def byteAt (d : List UInt8) (i : Nat) : Nat := (d.getD i 0).toNat

/-- A `uint16_t` of a descriptor. -/
def wordAt (d : List UInt8) (i : Nat) : Nat :=
  byteAt d i + 256 * byteAt d (i + 1)

/-- `hub_config_cb`: what it makes of its token. It returns 0. -/
def hubConfigCb (hub : HubConfig) (call : ConfigCall) : HubConfig :=
  match call.desc with
  | none => hub
  | some d =>
      if byteAt d 1 = descEndpoint then
        { intEp := byteAt d 2 % 16
          intMaxPkt := wordAt d 4
          intRateMs := byteAt d 6 * 2
          ifno := call.iface
          cfgno := call.cfg }
      else hub

/-- What the calls of `parse_config` for a table make of the token. -/
def readConfig (start : HubConfig) (table : List UInt8) : HubConfig :=
  match parseConfig (fun _ => true) (some fun _ udev => (0, udev))
    ⟨0, fun _ => none⟩ table with
  | .ok (s, _) => s.calls.foldl hubConfigCb start
  | .error _ => start

/-- `usbdev_parse_config` on the root hub, with memory: the total length is
read first, and then the descriptors are handed over one by one. A hub that
fails keeps what the driver has started with. -/
def usbdevParseConfig {σ : Type} (dev : Hubem σ) (st : HubemState σ) :
    HubConfig :=
  let req := ⟨reqGetDescriptor, descConfiguration * 256, 0⟩
  let start : HubConfig := ⟨-1, 0, 0, 0, 0⟩
  match hubemGetDescriptor dev st req 9 with
  | (none, _) => start
  | (some cd, st) =>
      match hubemGetDescriptor dev st req (wordAt cd 2) with
      | (none, _) => start
      | (some d, _) => readConfig start d

/-- `h->int_xact.len` after `usb_hub_driver_bind`. -/
def intLen {σ : Type} (dev : Hubem σ) (st : HubemState σ) : Nat :=
  (usbdevParseConfig dev st).intMaxPkt

-- ============================================================= the bitmap

/-- `portbm[port / 8] |= BIT(port & 0x7)`, in a buffer of `len` bytes; none
if it is outside. -/
def setPortBit (len : Nat) (portbm : Nat → BitVec 8) (port : Nat) :
    Option (Nat → BitVec 8) :=
  if port / 8 < len then
    some (Function.update portbm (port / 8)
      (portbm (port / 8) ||| BitVec.twoPow 8 (port % 8)))
  else none

/-- The register of a port shows a change. -/
def showsChange (s : RootHub) (port : Nat) : Bool :=
  s.portsc (port - 1) &&& ehciPortChange ≠ 0

/-- A finished reset of a port is recorded. -/
def showsReset (s : RootHub) (port : Nat) : Bool :=
  s.portsc (port - 1) &&& mask ehciPortReset = 0
    ∧ s.bmresetC &&& mask port ≠ 0

/-- One pass of the loop of `_root_irq`. -/
def markPort (s : RootHub) (len : Nat) (portbm : Nat → BitVec 8)
    (port : Nat) : Option (Nat → BitVec 8) := do
  let portbm ← if showsChange s port then setPortBit len portbm port
    else some portbm
  if showsReset s port then setPortBit len portbm port else some portbm

/-- `_root_irq`, up to the call of `irq_cb`: the bitmap, or none if a write
is outside of the buffer of `len` bytes. -/
def rootIrq (s : RootHub) (len : Nat) : Option (Nat → BitVec 8) :=
  let nports := if len * 8 < s.nports then len * 8 else s.nports
  (List.range' 1 nports).foldlM (markPort s len) fun _ => 0

/-- `hub_irq_handler`: the ports that `_handle_port_change` is called for,
in order. -/
def hubIrqHandler (len : Nat) (intbm : Nat → BitVec 8) : List Nat :=
  (List.range len).flatMap fun i =>
    if intbm i = 0 then []
    else ((List.range 8).filter fun j => (intbm i).getLsbD j).map
      fun j => i * 8 + j

-- =================================================== what is to be shown

/-- The ports whose change is to be reported. -/
def changedPorts (s : RootHub) : List Nat :=
  (List.range' 1 s.nports).filter fun port =>
    showsChange s port || showsReset s port

/-- The report is complete: no write outside of the buffer, and the handler
is called for the ports that have changed, in order. -/
def ReportsAll (s : RootHub) (len : Nat) : Prop :=
  (rootIrq s len).map (hubIrqHandler len) = some (changedPorts s)

end ProjectsLibs.Ehci
