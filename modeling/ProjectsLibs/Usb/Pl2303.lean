/-
The line setting of the PL2303 driver (pl2303.c). The payload is written
byte by byte; what it should be is the line coding of the CDC class with
the same values, as it lies in memory.

# The two encodings

The CDC class defines the line coding as a packed structure: the rate in
four bytes with the lowest first, then the stop bits, the parity and the
size of a character. The PL2303 takes the same seven bytes, and the
driver fills a DMA buffer with them. It writes the lowest byte of the
rate where the highest belongs, and in the place of the lowest the
highest, masked but not moved down. The buffer is modelled with what it
held before, since the switch over the parity leaves its byte alone for a
parity that it does not know, and the function goes on then.

The specification takes the payload that is sent and compares it with the
structure in three ways, as bytes, by decoding the rate, and by asking
that different settings are sent as different bytes.
-/
import Mathlib.Data.Set.Function
import ProjectsLibs.Usb.CdcMgmt

namespace ProjectsLibs.Usb

open Lib

-- ============================================================= the driver

/-- `enum serial_parity`; the driver handles the first three. -/
inductive SerialParity
  | none
  | odd
  | even
  | other
  deriving DecidableEq, Repr

def pl2303SetReqType : UInt8 := 0x21
def pl2303SetLineReq : Nat := 0x20
def pl2303SetCtrlReq : Nat := 0x22
def pl2303CtrlDtr : Nat := 0x01
def pl2303CtrlRts : Nat := 0x01

/-- The arguments of `usb_pl2303_configure`. -/
structure LineSetting where
  bps : UInt32
  charSize : UInt8
  parity : SerialParity
  stop : UInt8
  deriving DecidableEq, Repr

/-- The switch over `parity`, from the byte that is there before. -/
def pl2303Parity (parity : SerialParity) (before : UInt8) : UInt8 :=
  match parity with
  | .none => 0
  | .odd => 1
  | .even => 2
  | .other => before

/-- `buf` when the driver has written it, over memory `dma`. -/
def pl2303Buf (dma : Nat → UInt8) (s : LineSetting) : Nat → UInt8
  | 6 => s.charSize
  | 5 => pl2303Parity s.parity (dma 5)
  | 4 => s.stop
  | 3 => (s.bps &&& 0xff).toUInt8
  | 2 => ((s.bps >>> 16) &&& 0xff).toUInt8
  | 1 => ((s.bps >>> 8) &&& 0xff).toUInt8
  | 0 => (s.bps &&& 0xff000000).toUInt8
  | i => dma i

/-- `usb_pl2303_configure`: the requests that it schedules, each with the
data that it sends, and the result. -/
def usbPl2303Configure (dma : Nat → UInt8) (s : LineSetting) :
    List (UsbRequest × List UInt8) × Int :=
  ([({ bmRequestType := pl2303SetReqType, bRequest := pl2303SetLineReq,
       wValue := 0, wIndex := 0, wLength := 7 },
      (List.range 7).map (pl2303Buf dma s)),
    ({ bmRequestType := pl2303SetReqType, bRequest := pl2303SetCtrlReq,
       wValue := pl2303CtrlDtr ||| pl2303CtrlRts, wIndex := 0,
       wLength := 0 }, [])], 0)

-- ==================================================== the specification

/-- A setting with a parity that the driver accepts. -/
structure Accepted where
  setting : LineSetting
  accepted : setting.parity ≠ .other

/-- The payload that is sent for a setting. -/
def payload (dma : Nat → UInt8) (r : Accepted) : List UInt8 :=
  ((usbPl2303Configure dma r.setting).1.map Prod.snd).flatten

/-- The parities of a line coding. -/
def SerialParity.acm : SerialParity → UInt8
  | .none => 0
  | .odd => 1
  | .even => 2
  | .other => 0

/-- The line coding with the values of a setting. -/
def LineSetting.coding (s : LineSetting) : AcmLineCoding :=
  ⟨s.bps, s.stop, s.parity.acm, s.charSize⟩

/-- The encoders agree on a set of settings: the payload is the line coding
in memory, the line coding that it is decoded to has the rate that was
requested, and settings are told apart by their payloads. -/
structure EncodersAgree (dma : Nat → UInt8) (settings : Set Accepted) :
    Prop where
  bytes : ∀ r ∈ settings, payload dma r = r.setting.coding.bytes
  rate : ∀ r ∈ settings,
    (AcmLineCoding.ofBytes (payload dma r)).dwDTERate = r.setting.bps
  injective : settings.InjOn (payload dma)

/-- The condition: a rate of at most three bytes, the lowest of them
zero. -/
def RateFits (r : Accepted) : Prop :=
  r.setting.bps.toNat < 2 ^ 24 ∧ r.setting.bps.toNat % 256 = 0

end ProjectsLibs.Usb
