/-
The parser of configurations (usb.c): `parse_config` walks over the
descriptors that a device has delivered, hands a copy of each to a
callback, and stores the class and the endpoints of the device.

The table is the list of its `tot_len` bytes, and `d` is what is left of
it. Each allocation may fail; which ones do is a parameter, and so is the
callback, a function of the calls up to the one it answers and of the
device. It reads no more of the copy than the descriptor; what it writes
of the device is up to it: those of the CDC driver and of the storage
driver store the class of every interface. What is read of the copy is
kept (`fieldReads`), since the buffer may be longer than the descriptor in
it.
`tot_len` is a 16-bit number, so that no counter overflows, and multi-byte
fields are in the byte order of the machine, little endian. What is freed
is left out.

`ZF_LOGF` ends the run, unless a `return` stands behind it; the one for
the memory of an endpoint has none, and is `Flow.fatal`.
-/
import ProjectsLibs.Usb.Hubem
import Mathlib.Logic.Function.Basic

namespace ProjectsLibs.Usb

-- ================================================================= data

/-- `USB_MAX_EPS`. -/
def usbMaxEps : Nat := 32

/-- An access out of bounds, behind which C does not define the run; or no
end of the loop within the steps allowed for it. -/
inductive Overrun
  /-- a read behind the table -/
  | table
  /-- a read behind the buffer of the copy -/
  | copy
  /-- a write behind `udev->ep` -/
  | eps
  | steps
  deriving DecidableEq, Repr

/-- How a part of the loop ends. -/
inductive Flow
  | next
  /-- `break` -/
  | leave
  /-- `ZF_LOGF` -/
  | fatal
  deriving DecidableEq, Repr

/-- What `parse_config` sets of `struct endpoint`. -/
structure ConfigEp where
  type : UInt8
  dir : UInt8
  num : UInt8
  maxPkt : UInt16
  interval : UInt8
  deriving DecidableEq, Repr

/-- A call of the callback, with the descriptor or `NULL`. -/
structure ConfigCall where
  cfg : Int
  iface : Int
  desc : Option (List UInt8)
  deriving DecidableEq, Repr

/-- What `parse_config` writes of `struct usb_dev`. -/
structure ConfigDev where
  cls : UInt8
  ep : Nat → Option ConfigEp

/-- The variables of `parse_config`. The length of `usrd`, the buffer, is
`buf_len`. -/
structure Parser where
  udev : ConfigDev
  d : List UInt8
  cfg : Int
  iface : Int
  usrd : List UInt8
  curLen : Nat
  err : Int
  cnt : Nat
  /-- the allocations asked for -/
  allocs : Nat
  calls : List ConfigCall
  /-- the offsets read of the copy, each with the length of the
  descriptor -/
  fieldReads : List (Nat × Nat)

def Parser.start (udev : ConfigDev) (table : List UInt8) : Parser :=
  { udev, d := table, cfg := -1, iface := -1, usrd := [], curLen := 0,
    err := 0, cnt := 0, allocs := 0, calls := [], fieldReads := [] }

abbrev ConfigStep := Except Overrun (Parser × Flow)

/-- The code behind a part of the loop. -/
def ConfigStep.andThen (x : ConfigStep) (f : Parser → ConfigStep) :
    ConfigStep :=
  match x with
  | .ok (s, .next) => f s
  | .ok (s, .leave) => .ok (s, .leave)
  | .ok (s, .fatal) => .ok (s, .fatal)
  | .error e => .error e

/-- The callback: what it returns after the calls up to this one, and what
it leaves of the device that it finds. -/
abbrev ConfigCb := List ConfigCall → ConfigDev → Int × ConfigDev

-- ========================================================= one descriptor

section
variable (alloc : Nat → Bool) (cb : Option ConfigCb)

/-- The buffer is made as long as the descriptor. -/
def fitBuffer (n : Nat) (s : Parser) : ConfigStep :=
  if s.usrd.length < n then
    if alloc s.allocs then
      .ok ({ s with
        usrd := List.replicate n 0
        allocs := s.allocs + 1 }, .next)
    else
      .ok ({ s with usrd := [], allocs := s.allocs + 1, err := 1 }, .leave)
  else .ok (s, .next)

/-- `memcpy(usrd, d, d->bLength)`. -/
def copyDesc (n : Nat) (s : Parser) : ConfigStep :=
  if n ≤ s.d.length then
    .ok ({ s with usrd := s.d.take n ++ s.usrd.drop n }, .next)
  else .error .table

/-- A byte of the copy of a descriptor of `n` bytes. -/
def readField (n off : Nat) (s : Parser) : Except Overrun (UInt8 × Parser) :=
  match s.usrd[off]? with
  | some b => .ok (b, { s with fieldReads := s.fieldReads ++ [(off, n)] })
  | none => .error .copy

def onConfiguration (n : Nat) (s : Parser) : ConfigStep := do
  let (bConfigurationValue, s) ← readField n 5 s
  return ({ s with cfg := bConfigurationValue.toNat, iface := -1 }, .next)

def onInterface (n : Nat) (s : Parser) : ConfigStep := do
  let (bInterfaceNumber, s) ← readField n 2 s
  let s := { s with iface := bInterfaceNumber.toNat }
  if s.udev.cls = 0 then
    let (bInterfaceClass, s) ← readField n 5 s
    return ({ s with udev := { s.udev with cls := bInterfaceClass } }, .next)
  else return (s, .next)

/-- A `uint16_t` of two bytes. -/
def le16Of (lo hi : UInt8) : UInt16 := lo.toUInt16 ||| hi.toUInt16 <<< 8

/-- The endpoint of the fields of `struct endpoint_desc`. -/
def endpointOf (bEndpointAddress bmAttributes lo hi bInterval : UInt8) :
    ConfigEp :=
  { type := bmAttributes &&& 0x3
    dir := bEndpointAddress >>> 0x7
    num := bEndpointAddress &&& 0xF
    maxPkt := le16Of lo hi
    interval := bInterval }

/-- `udev->ep[cnt++] = ep`. -/
def storeEp (ep : ConfigEp) (s : Parser) : ConfigStep :=
  if s.cnt < usbMaxEps then
    .ok ({ s with
      udev := { s.udev with ep := Function.update s.udev.ep s.cnt (some ep) }
      cnt := s.cnt + 1 }, .next)
  else .error .eps

def onEndpoint (n : Nat) (s : Parser) : ConfigStep :=
  if alloc s.allocs then do
    let s := { s with allocs := s.allocs + 1 }
    let (bmAttributes, s) ← readField n 3 s
    let (bEndpointAddress, s) ← readField n 2 s
    let (lo, s) ← readField n 4 s
    let (hi, s) ← readField n 5 s
    let (bInterval, s) ← readField n 6 s
    storeEp (endpointOf bEndpointAddress bmAttributes lo hi bInterval) s
  else .ok ({ s with allocs := s.allocs + 1 }, .fatal)

/-- The update of the state by the type of the descriptor. -/
def decodeDesc (n : Nat) (s : Parser) : ConfigStep :=
  match s.d[1]? with
  | none => .error .table
  | some bDescriptorType =>
      if bDescriptorType.toNat = descConfiguration then onConfiguration n s
      else if bDescriptorType.toNat = descInterface then onInterface n s
      else if bDescriptorType.toNat = descEndpoint then onEndpoint alloc n s
      else .ok (s, .next)

/-- The call for a descriptor. -/
def sendDesc (n : Nat) (s : Parser) : ConfigStep :=
  match cb with
  | none => .ok (s, .next)
  | some f =>
      let calls := s.calls ++ [⟨s.cfg, s.iface, some (s.usrd.take n)⟩]
      let (ret, udev) := f calls s.udev
      .ok ({ s with calls, udev }, if ret = 0 then .next else .leave)

def nextDesc (n : Nat) (s : Parser) : ConfigStep :=
  .ok ({ s with d := s.d.drop n, curLen := s.curLen + n }, .next)

/-- The body of the loop. -/
def parseDesc (s : Parser) : ConfigStep :=
  match s.d with
  | [] => .error .table
  | bLength :: _ =>
      let n := bLength.toNat
      if n = 0 then .ok (s, .leave)
      else
        (((fitBuffer alloc n s).andThen (copyDesc n)).andThen
          (decodeDesc alloc n)).andThen (sendDesc cb n) |>.andThen
          (nextDesc n)

-- =========================================================== the function

/-- The loop, for as many steps as are given. -/
def parseLoop (totLen : Nat) : Nat → Parser → ConfigStep
  | 0, _ => .error .steps
  | fuel + 1, s =>
      if s.curLen < totLen then
        (parseDesc alloc cb s).andThen (parseLoop totLen fuel)
      else .ok (s, .leave)

/-- The call for the end of the list. -/
def reportEnd (totLen : Nat) (s : Parser) : Parser :=
  match cb with
  | none => s
  | some f =>
      if s.curLen = totLen then
        let calls := s.calls ++ [⟨s.cfg, s.iface, none⟩]
        { s with calls, udev := (f calls s.udev).2 }
      else s

/-- `parse_config`; the result is `err`. With `fatal` it does not
return. -/
def parseConfig (udev : ConfigDev) (table : List UInt8) : ConfigStep :=
  match parseLoop alloc cb table.length (table.length + 1)
    (.start udev table) with
  | .ok (s, .fatal) => .ok (s, .fatal)
  | .ok (s, flow) => .ok (reportEnd cb table.length s, flow)
  | .error e => .error e

end

end ProjectsLibs.Usb
