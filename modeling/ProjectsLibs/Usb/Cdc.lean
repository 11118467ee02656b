/-
The read path of the CDC ACM driver (cdc.c): `usb_cdc_read` schedules a
transfer when none is in progress and drains the read buffer, and the
completion of the transfer, `usb_cdc_read_cb`, fills it.

A completion is one step and comes between any two steps of a read: the
check with the scheduling, the increment of `read_in_progress`, and each
round of the draining loop. A transfer that cannot be scheduled ends the
run, since no `return` stands behind that `ZF_LOGF`.

The circular buffer is the one of the utils library (`CircBuf`), and what
the driver relies on is that it is a queue (`Fifo`).
-/
import ProjectsLibs.Ehci.Transfers

namespace ProjectsLibs.Usb

open Ehci (XactStat)

-- ================================================== the circular buffer

/-- The operations of `circ_buf_t`. -/
structure CircBuf (β : Type) where
  new : β
  isFull : β → Bool
  isEmpty : β → Bool
  put : β → UInt8 → β
  get : β → UInt8 × β

/-- The buffer is a queue of at most `cap` bytes, and `view` are the bytes
in it. -/
structure Fifo {β : Type} (C : CircBuf β) (cap : Nat)
    (view : β → List UInt8) : Prop where
  new : view C.new = []
  isFull : ∀ b, C.isFull b = true ↔ cap ≤ (view b).length
  isEmpty : ∀ b, C.isEmpty b = true ↔ view b = []
  put : ∀ b c, C.isFull b = false → view (C.put b c) = view b ++ [c]
  get : ∀ b, C.isEmpty b = false →
    view b = (C.get b).1 :: view (C.get b).2

-- ================================================================= data

/-- `CDC_READ_XACT_SIZE`. -/
def cdcReadXactSize : Nat := 128

/-- `CDC_READ_BUFFER_SIZE`. -/
def cdcReadBufferSize : Nat := 4096

/-- Where a `usb_cdc_read` is: behind the scheduling of a transfer, or in
its loop, with what is left of `len`. -/
inductive Reader
  | idle
  | scheduled (len : Nat)
  | draining (len : Nat)
  deriving DecidableEq, Repr

/-- A completion: the bytes that the device delivered, and how many the
buffer had room for. -/
structure Completed where
  bytes : List UInt8
  room : Nat
  deriving DecidableEq, Repr

/-- `struct usb_cdc_device` as far as reads use it, the transfers into
`read_xact` that are outstanding, the completions, and the bytes that the
reads have returned. -/
structure Cdc (β : Type) where
  readBuf : β
  readInProgress : Int
  reader : Reader
  outstanding : Nat
  completed : List Completed
  returned : List UInt8

variable {β : Type}

/-- After `usb_cdc_bind`. -/
def Cdc.start (C : CircBuf β) : Cdc β :=
  { readBuf := C.new, readInProgress := 0, reader := .idle,
    outstanding := 0, completed := [], returned := [] }

-- ================================================================= code

/-- The loop of `usb_cdc_read_cb` over the bytes of the transfer. -/
def fillBuf (C : CircBuf β) : β → List UInt8 → β
  | b, [] => b
  | b, c :: cs => if !C.isFull b then fillBuf C (C.put b c) cs else b

/-- `usb_cdc_read_cb`; `rbytes` of the transfer are left. -/
def usbCdcReadCb (C : CircBuf β) (stat : XactStat) (buf : Nat → UInt8)
    (rbytes : Nat) (s : Cdc β) : Cdc β :=
  let s :=
    if stat = .success then
      let bytes := (List.range (cdcReadXactSize - rbytes)).map buf
      { s with readBuf := fillBuf C s.readBuf bytes }
    else s
  { s with readInProgress := s.readInProgress - 1 }

/-- `usb_cdc_read` up to the scheduling. -/
def readCall (len : UInt32) (s : Cdc β) : Cdc β :=
  if s.readInProgress = 0 then
    { s with outstanding := s.outstanding + 1
             reader := .scheduled len.toNat }
  else { s with reader := .draining len.toNat }

/-- The increment. -/
def readMark (len : Nat) (s : Cdc β) : Cdc β :=
  { s with readInProgress := s.readInProgress + 1
           reader := .draining len }

/-- A round of the loop, which ends the call when `len` is used up or the
buffer is empty. -/
def readRound (C : CircBuf β) (len : Nat) (s : Cdc β) : Cdc β :=
  match len with
  | 0 => { s with reader := .idle }
  | len + 1 =>
      if !C.isEmpty s.readBuf then
        let (c, readBuf) := C.get s.readBuf
        { s with readBuf := readBuf, returned := s.returned ++ [c]
                 reader := .draining len }
      else { s with reader := .idle }

-- ================================================================= runs

/-- What happens. The length of a call is the word of its `int`, since
`len--` counts a negative one down as a word. -/
inductive CdcAct
  | call (len : UInt32)
  | resume
  | complete (stat : XactStat) (buf : Nat → UInt8) (rbytes : Nat)

/-- The bytes that a completion delivers. -/
def deliveredBytes (stat : XactStat) (buf : Nat → UInt8) (rbytes : Nat) :
    List UInt8 :=
  if stat = .success then (List.range (cdcReadXactSize - rbytes)).map buf
  else []

/-- One step, over a buffer of `cap` bytes. -/
def cdcStep (C : CircBuf β) (cap : Nat) (view : β → List UInt8)
    (s : Cdc β) : CdcAct → Option (Cdc β)
  | .call len => if s.reader = .idle then some (readCall len s) else none
  | .resume =>
      match s.reader with
      | .idle => none
      | .scheduled len => some (readMark len s)
      | .draining len => some (readRound C len s)
  | .complete stat buf rbytes =>
      if 0 < s.outstanding ∧ rbytes ≤ cdcReadXactSize then
        some { usbCdcReadCb C stat buf rbytes s with
          outstanding := s.outstanding - 1
          completed := s.completed ++
            [⟨deliveredBytes stat buf rbytes,
              cap - (view s.readBuf).length⟩] }
      else none

/-- All bytes that the device has delivered. -/
def Cdc.delivered (s : Cdc β) : List UInt8 :=
  s.completed.flatMap Completed.bytes

/-- The bytes of each completion that the buffer had room for. -/
def Cdc.stored (s : Cdc β) : List UInt8 :=
  s.completed.flatMap fun c => c.bytes.take c.room

end ProjectsLibs.Usb
