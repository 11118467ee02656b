/-
The hub emulation of the hub driver (usbhub.c): what the root hub answers
to control requests, since it is no device on the bus.

The functions that the host controller driver registers are parameters.
Descriptors are bytes, and a request returns the bytes that it copies. The
maximum packet size of the endpoint descriptor is a static variable, so it
is part of the state.

`ZF_LOGF` ends the run, unless a `return` stands behind it. None does
here: a setup packet that is too short and a buffer that is too short for
the status of a port have no reply, and neither has a function of the
driver that fails so.
-/
import ProjectsLibs.Ehci.Transfers
import ProjectsLibs.Usb.Hub

namespace ProjectsLibs.Usb

open Ehci (XactType XactStat)

-- =========================================================== descriptors

def descDevice : Nat := 0x01
def descConfiguration : Nat := 0x02
def descInterface : Nat := 0x04
def descEndpoint : Nat := 0x05
def descHub : Nat := 0x29

/-- A `uint16_t` in memory. -/
def le16 (n : Nat) : List UInt8 :=
  [UInt8.ofNat (n % 256), UInt8.ofNat (n / 256 % 256)]

/-- `_hub_device_desc`. -/
def hubDeviceDesc : List UInt8 :=
  [18, 1] ++ le16 0x200 ++ [9, 0, 2, 64] ++ le16 0xFEED ++ le16 0xBEEF
    ++ le16 1234 ++ [0, 0, 0, 1]

/-- `_hub_iface_desc`. -/
def hubIfaceDesc : List UInt8 := [9, 4, 0, 0, 1, 9, 0, 1, 0]

/-- `_hub_endpoint_desc`. -/
def hubEndpointDesc (wMaxPacketSize : Nat) : List UInt8 :=
  [7, 5, 0x81, 0x3] ++ le16 wMaxPacketSize ++ [0xc]

/-- `_hub_config_desc`. -/
def hubConfigDesc : List UInt8 :=
  [9, 2] ++ le16 (9 + 9 + 7) ++ [1, 1, 0, 0x80, 50]

/-- `_hub_hub_desc` as it is filled in. -/
def hubHubDesc (nports pwrDelayMs : Nat) : List UInt8 :=
  let nregs := (nports + 7) / 8
  [UInt8.ofNat (7 + nregs * 2), 0x29, UInt8.ofNat nports] ++ le16 0
    ++ [UInt8.ofNat (pwrDelayMs / 2), 0] ++ List.replicate 64 0

-- =========================================================== the emulation

/-- `struct usb_hubem`. -/
structure Hubem (σ : Type) where
  hubemNports : Nat
  pwrDelayMs : Nat
  setPf : σ → Nat → Nat → Option (Int × σ)
  clrPf : σ → Nat → Nat → Option (Int × σ)
  getPstat : σ → Nat → Option (Int × PortStatus × σ)

/-- What the functions were registered with, and the static variable. -/
structure HubemState (σ : Type) where
  token : σ
  wMaxPacketSize : Nat

/-- `struct usbreq`, less the type and the length. -/
structure Usbreq where
  bRequest : Nat
  wValue : Nat
  wIndex : Nat
  deriving DecidableEq, Repr

def reqGetStatus : Nat := 0
def reqClrFeature : Nat := 1
def reqSetFeature : Nat := 3
def reqSetAddress : Nat := 5
def reqGetDescriptor : Nat := 6
def reqSetConfiguration : Nat := 9
def reqSetInterface : Nat := 11

/-- `struct xact`, with the request that a setup packet holds. -/
structure HubXact where
  type : XactType
  len : Nat
  req : Usbreq
  deriving DecidableEq, Repr

/-- The bytes that a copy of several pieces writes: each is cut to the
length that is left. -/
def copyPieces (actLen : Nat) : Nat → List (List UInt8) → List UInt8
  | _, [] => []
  | pos, piece :: pieces =>
      let copied := piece.take (min (actLen - pos) piece.length)
      copied ++ copyPieces actLen (pos + copied.length) pieces

variable {σ : Type}

/-- `hubem_get_descriptor`: the bytes that are copied, or none if it
fails. -/
def hubemGetDescriptor (dev : Hubem σ) (st : HubemState σ) (req : Usbreq)
    (len : Nat) : Option (List UInt8) × HubemState σ :=
  let dtype := req.wValue / 256
  if dtype = descDevice then
    (some (hubDeviceDesc.take (min len 18)), st)
  else if dtype = descHub then
    let nregs := (dev.hubemNports + 7) / 8
    (some ((hubHubDesc dev.hubemNports dev.pwrDelayMs).take
      (min ((7 + nregs * 2) % 256) len)), st)
  else if dtype = descConfiguration then
    let maxPkt := (dev.hubemNports + 7) / 8
    (some (copyPieces (min 25 len) 0
      [hubConfigDesc, hubIfaceDesc, hubEndpointDesc maxPkt]),
      { st with wMaxPacketSize := maxPkt })
  else if dtype = descInterface then
    (some (hubIfaceDesc.take (min 9 len)), st)
  else if dtype = descEndpoint then
    (some ((hubEndpointDesc st.wMaxPacketSize).take (min 7 len)), st)
  else (none, st)

/-- `hubem_feature`. -/
def hubemFeature (dev : Hubem σ) (st : HubemState σ) (req : Usbreq) :
    Option (Int × HubemState σ) :=
  if req.bRequest = reqSetFeature then
    (dev.setPf st.token req.wIndex req.wValue).map
      fun (ret, token) => (ret, { st with token := token })
  else if req.bRequest = reqClrFeature then
    (dev.clrPf st.token req.wIndex req.wValue).map
      fun (ret, token) => (ret, { st with token := token })
  else some (-1, st)

/-- The bytes of `struct port_status`. -/
def PortStatus.bytes (p : PortStatus) : List UInt8 :=
  le16 p.wPortStatus.toNat ++ le16 p.wPortChange.toNat

/-- `hubem_get_status`: the bytes that are copied, or none if it fails. -/
def hubemGetStatus (dev : Hubem σ) (st : HubemState σ) (req : Usbreq)
    (len : Nat) : Option (Option (List UInt8) × HubemState σ) :=
  let port := req.wIndex
  if port = 0 then some (some ((le16 0).take (min len 2)), st)
  else if port ≤ dev.hubemNports then
    if len < 4 then none
    else
      match dev.getPstat st.token port with
      | none => none
      | some (ret, psts, token) =>
          let st := { st with token := token }
          if ret ≠ 0 then some (none, st)
          else some (some psts.bytes, st)
  else some (none, st)

/-- What a transaction leaves: the return value, the bytes that were
written to the data buffer, the calls of the callback, and the state. -/
structure HubemReply (σ : Type) where
  ret : Int
  data : List UInt8
  calls : List (XactStat × Int)
  st : HubemState σ

/-- What a request that returns data returns: the number of bytes, without
a call of the callback. -/
def dataReply (data : Option (List UInt8)) (st : HubemState σ) :
    HubemReply σ :=
  match data with
  | some bytes => ⟨bytes.length, bytes, [], st⟩
  | none => ⟨-1, [], [], st⟩

/-- The end of `hubem_process_xact`. -/
def finishXact (cb : Bool) (err : Int) (st : HubemState σ) : HubemReply σ :=
  ⟨err, [], if cb then
      [(if 0 ≤ err then XactStat.success else .error, err)] else [], st⟩

/-- The length of the data buffer: the packet behind the setup packet, if
that is none itself. -/
def dataLen : List HubXact → Nat
  | [] => 0
  | x :: _ => if x.type ≠ .pidSetup then x.len else 0

/-- `hubem_process_xact`, with whether there is a callback. -/
def hubemProcessXact (dev : Hubem σ) (cb : Bool) (st : HubemState σ) :
    List HubXact → Option (HubemReply σ)
  | [] => some (finishXact cb 0 st)
  | x :: rest =>
      if x.type ≠ .pidSetup then hubemProcessXact dev cb st rest
      else if x.len < 8 then none
      else if x.req.bRequest = reqGetStatus then
        (hubemGetStatus dev st x.req (dataLen rest)).map
          fun (data, st) => dataReply data st
      else if x.req.bRequest = reqGetDescriptor then
        let (data, st) := hubemGetDescriptor dev st x.req (dataLen rest)
        some (dataReply data st)
      else if x.req.bRequest = reqClrFeature
          ∨ x.req.bRequest = reqSetFeature then do
        let (err, st) ← hubemFeature dev st x.req
        if err ≠ 0 then some (finishXact cb err st)
        else hubemProcessXact dev cb st rest
      else
        -- SET_CONFIGURATION, SET_INTERFACE, SET_ADDRESS and all others
        hubemProcessXact dev cb st rest

end ProjectsLibs.Usb
