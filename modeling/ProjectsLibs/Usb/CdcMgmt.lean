/-
The management requests of the CDC ACM driver (cdc.c): the line coding and
the features of a device are set and read with control requests, which all
go through `usb_cdc_mgmt_msg`.

The device keeps the data of each request that sets something and returns
it to the request that gets it. A request whose direction is not that of
its code is stalled, and the driver does not look at the result of the
transfer. What is returned reaches the memory of the data packet only if
that is a `PID_IN` packet.

# The data packet

A message has a setup packet and a data packet. The data packet gets
memory of its own, the data of the caller is copied into it or out of it,
and the copy is what decides whether a call that gets something gets it:
`memcpy` is here with its destination and its source, as the code has
them. What the memory holds before is an argument of the call, as is what
the variable of the caller holds.

The history is that of the calls that set something (`AcmLatest`). It is
kept apart from the device, so that the device is not compared with
itself.
-/
import Mathlib.Logic.Function.Basic
import ProjectsLibs.Lib.Bytes
import ProjectsLibs.Lib.Run
import ProjectsLibs.Usb.Hubem

namespace ProjectsLibs.Usb

open Lib
open Ehci (XactType)

-- ============================================================= requests

/-- `struct usbreq`. -/
structure UsbRequest extends Usbreq where
  bmRequestType : UInt8
  wLength : Nat
  deriving DecidableEq, Repr

def usbDirOut : UInt8 := 0
def usbDirIn : UInt8 := 0x80
def usbTypeCls : UInt8 := 0x20
def usbRcptInterface : UInt8 := 1

/-- The request codes of the line coding and the features. -/
def setCommFeature : Nat := 0x2
def getCommFeature : Nat := 0x3
def setLineCoding : Nat := 0x20
def getLineCoding : Nat := 0x21

/-- `enum acm_comm_feature`. -/
inductive AcmCommFeature
  | abstractState
  | countrySetting
  deriving DecidableEq, Repr

def AcmCommFeature.code : AcmCommFeature → Nat
  | .abstractState => 1
  | .countrySetting => 2

-- ========================================================= the line coding

/-- `struct acm_line_coding`. -/
structure AcmLineCoding where
  dwDTERate : UInt32
  bCharFormat : UInt8
  bParityType : UInt8
  bDataBits : UInt8
  deriving DecidableEq, Repr

namespace AcmLineCoding

/-- The structure in memory; it is packed. -/
def bytes (c : AcmLineCoding) : List UInt8 :=
  leBytes 4 c.dwDTERate.toNat ++ [c.bCharFormat, c.bParityType, c.bDataBits]

/-- The structure that memory holds. -/
def ofBytes (bs : List UInt8) : AcmLineCoding where
  dwDTERate := UInt32.ofNat (leValue (bs.take 4))
  bCharFormat := bs.getD 4 0
  bParityType := bs.getD 5 0
  bDataBits := bs.getD 6 0

end AcmLineCoding

-- ============================================================= the device

/-- The data that the device keeps. -/
structure CdcDevice where
  lineCoding : List UInt8
  commFeature : Nat → List UInt8

/-- A request at the device, with the data that was sent to it: the device
afterwards, and the data that it returns. -/
def CdcDevice.handle (dev : CdcDevice) (req : UsbRequest)
    (sent : List UInt8) : CdcDevice × List UInt8 :=
  if req.bmRequestType &&& usbDirIn = 0 then
    if req.bRequest = setLineCoding then
      ({ dev with lineCoding := sent }, [])
    else if req.bRequest = setCommFeature then
      ({ dev with
        commFeature := Function.update dev.commFeature req.wValue sent }, [])
    else (dev, [])
  else
    if req.bRequest = getLineCoding then (dev, dev.lineCoding)
    else if req.bRequest = getCommFeature then
      (dev, dev.commFeature req.wValue)
    else (dev, [])

/-- `memcpy`: the destination afterwards. -/
def memcpy (dst src : List UInt8) (len : Nat) : List UInt8 :=
  src.take len ++ dst.drop len

/-- `usbdev_schedule_xact` of a control request with a data packet of `len`
bytes: the device, and the memory of the packet. -/
def controlTransfer (dev : CdcDevice) (req : UsbRequest) (type : XactType)
    (len : Nat) (dma : List UInt8) : CdcDevice × List UInt8 :=
  match type with
  | .pidIn =>
      let (dev, answer) := dev.handle req []
      (dev, memcpy dma answer (min answer.length len))
  | _ => ((dev.handle req (dma.take len)).1, dma)

-- ============================================================= the driver

/-- What a management message leaves: the device, the buffer of the caller,
and the memory of the data packet. -/
structure MgmtMsg where
  dev : CdcDevice
  buf : List UInt8
  dma : List UInt8

/-- `usb_cdc_mgmt_msg`, with the interface `cdc->comm` and the memory that
is allocated for the data packet. -/
def usbCdcMgmtMsg (comm : UInt8) (dev : CdcDevice) (dma : List UInt8)
    (reqType : UInt8) (code value : Nat) (buf : List UInt8) (len : Nat) :
    MgmtMsg :=
  let req : UsbRequest :=
    { bmRequestType := reqType, bRequest := code, wValue := value,
      wIndex := comm.toNat, wLength := len }
  if len > 0 then
    let type := if reqType &&& usbDirIn ≠ 0 then XactType.pidIn else .pidOut
    let dma := memcpy dma buf len
    let (dev, dma) := controlTransfer dev req type len dma
    -- copy out, with the packet as the destination
    let dma := if type = .pidIn then memcpy dma buf len else dma
    ⟨dev, buf, dma⟩
  else ⟨(dev.handle req []).1, buf, dma⟩

section wrappers

variable (comm : UInt8) (dev : CdcDevice) (dma : List UInt8)

/-- `acm_set_comm_feature`. -/
def acmSetCommFeature (f : AcmCommFeature) (state : UInt16) : CdcDevice :=
  (usbCdcMgmtMsg comm dev dma (usbDirOut ||| usbTypeCls ||| usbRcptInterface)
    setCommFeature f.code (leBytes 2 state.toNat) 2).dev

/-- `acm_get_comm_feature`, with what is in its variable `state`, which is
not initialised. -/
def acmGetCommFeature (f : AcmCommFeature) (state : UInt16) :
    CdcDevice × UInt16 :=
  let msg := usbCdcMgmtMsg comm dev dma
    (usbDirOut ||| usbTypeCls ||| usbRcptInterface) getCommFeature f.code
    (leBytes 2 state.toNat) 2
  (msg.dev, UInt16.ofNat (leValue msg.buf))

/-- `acm_set_line_coding`. -/
def acmSetLineCoding (coding : AcmLineCoding) : CdcDevice :=
  (usbCdcMgmtMsg comm dev dma (usbDirOut ||| usbTypeCls ||| usbRcptInterface)
    setLineCoding 0 coding.bytes 7).dev

/-- `acm_get_line_coding`, with what the caller has in `*coding`. -/
def acmGetLineCoding (coding : AcmLineCoding) : CdcDevice × AcmLineCoding :=
  let msg := usbCdcMgmtMsg comm dev dma
    (usbDirIn ||| usbTypeCls ||| usbRcptInterface) getLineCoding 0
    coding.bytes 7
  (msg.dev, .ofBytes msg.buf)

end wrappers

-- ============================================================== the calls

inductive AcmCall
  | setLineCoding (coding : AcmLineCoding)
  | getLineCoding (coding : AcmLineCoding)
  | setCommFeature (f : AcmCommFeature) (state : UInt16)
  | getCommFeature (f : AcmCommFeature) (state : UInt16)
  deriving DecidableEq, Repr

/-- A call, and the memory that it gets for the data packet. -/
structure AcmAction where
  call : AcmCall
  dma : List UInt8
  deriving DecidableEq, Repr

/-- What a call gives back. -/
inductive AcmResult
  | nothing
  | lineCoding (coding : AcmLineCoding)
  | commFeature (state : UInt16)
  deriving DecidableEq, Repr

/-- The values of the latest calls that set something. -/
structure AcmLatest where
  lineCoding : Option AcmLineCoding
  commFeature : AcmCommFeature → Option UInt16

/-- The device, the history, and the result of the last call. -/
structure Acm where
  dev : CdcDevice
  latest : AcmLatest
  result : AcmResult

/-- A device, before the first call. -/
def Acm.start (dev : CdcDevice) : Acm :=
  ⟨dev, ⟨none, fun _ => none⟩, .nothing⟩

def acmStep (comm : UInt8) (s : Acm) (a : AcmAction) : Option Acm :=
  match a.call with
  | .setLineCoding coding =>
      some { s with
        dev := acmSetLineCoding comm s.dev a.dma coding
        latest := { s.latest with lineCoding := some coding }
        result := .nothing }
  | .getLineCoding coding =>
      let (dev, coding) := acmGetLineCoding comm s.dev a.dma coding
      some { s with dev := dev, result := .lineCoding coding }
  | .setCommFeature f state =>
      some { s with
        dev := acmSetCommFeature comm s.dev a.dma f state
        latest := { s.latest with
          commFeature := Function.update s.latest.commFeature f (some state) }
        result := .nothing }
  | .getCommFeature f state =>
      let (dev, state) := acmGetCommFeature comm s.dev a.dma f state
      some { s with dev := dev, result := .commFeature state }

-- ==================================================== the specification

/-- A call that gets something yields the value of the latest call that set
it, and leaves the device as it is. -/
def GetsLatest (s : Acm) (a : AcmAction) (s' : Acm) : Prop :=
  match a.call with
  | .getLineCoding _ => s'.dev = s.dev
      ∧ ∀ c, s.latest.lineCoding = some c → s'.result = .lineCoding c
  | .getCommFeature f _ => s'.dev = s.dev
      ∧ ∀ v, s.latest.commFeature f = some v → s'.result = .commFeature v
  | _ => True

/-- The condition: a call that gets something finds the value in its buffer
already. -/
def AlreadyThere (s : Acm) (a : AcmAction) : Prop :=
  match a.call with
  | .getLineCoding coding => ∀ c, s.latest.lineCoding = some c → coding = c
  | .getCommFeature f state => ∀ v, s.latest.commFeature f = some v →
      state = v
  | _ => True

/-- The device has what the latest calls set. -/
structure Acm.Kept (s : Acm) : Prop where
  lineCoding : ∀ c, s.latest.lineCoding = some c →
    s.dev.lineCoding = c.bytes
  commFeature : ∀ f v, s.latest.commFeature f = some v →
    s.dev.commFeature f.code = leBytes 2 v.toNat

end ProjectsLibs.Usb
