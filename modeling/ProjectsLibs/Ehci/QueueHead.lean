/-
The queue head of an endpoint (async.c, hcd.c): the two words that say
which endpoint the controller talks to (`epc[0]` and `epc[1]`), filled in
by `qhn_alloc` and kept up to date by `qhn_update`, and the part of
`ehci_schedule_xact` that finds or makes the queue head.

The transfer descriptors of the call are in `Transfers`, the list that
the queue head of a periodic endpoint is put into is in `Periodic`. An
allocation returns the next number; without memory the call does not
return.

# Two words

The first word has the address and the packet size of the endpoint besides
its number and speed, and these two may change between calls: a device is
enumerated at address zero and gets its own address afterwards. So a call
for a control endpoint compares them with what the word has and fills them
in again (`updateEpc0`), by clearing the fields and putting the values in.
The second word is filled in once.

The words are those of the macros, with their masks and shifts, since the
mask decides what becomes of a value that does not fit. For which
endpoints the result is right is shown in the proofs about it.
-/
import ProjectsLibs.Ehci.Transfers

namespace ProjectsLibs.Ehci

open Lib

-- ================================================================ state

/-- `struct endpoint`, but for its direction and its interval. -/
structure Ep where
  type : EpType
  num : UInt8
  maxPkt : UInt16
  hcpriv : Option QhId
  deriving DecidableEq, Repr

/-- The asynchronous schedule, the second word of every queue head, and
the next pointer that an allocation returns. -/
structure Sched where
  ring : AsyncHost
  epc1 : QhId → UInt32
  fresh : QhId

/-- What the hardware has to do with a call: the physical address of a
queue head that is allocated, and whether the asynchronous schedule does
not run. -/
structure Slot where
  pqh : UInt32
  idle : Bool
  deriving DecidableEq, Repr

-- ================================================================ words

def qhepc0NakcntRl (x : UInt32) : UInt32 := (x &&& 0xf) * mask 28
def qhepc0C : Nat := 27
def qhepc0Maxpktlen (x : UInt32) : UInt32 := (x &&& 0x7ff) * mask 16
def qhepc0MaxpktMask : UInt32 := qhepc0Maxpktlen 0x7ff
def qhepc0GetMaxpkt (x : UInt32) : UInt32 := (x &&& qhepc0MaxpktMask) >>> 16
def qhepc0Dtc : Nat := 14
def qhepc0Ep (x : UInt32) : UInt32 := (x &&& 0xf) * mask 8
def qhepc0Addr (x : UInt32) : UInt32 := (x &&& 0x7f) * mask 0
def qhepc0AddrMask : UInt32 := qhepc0Addr 0x7f
def qhepc0GetAddr (x : UInt32) : UInt32 := x &&& qhepc0AddrMask

def qhepc1Mult (x : UInt32) : UInt32 := (x &&& 0x3) * mask 30
def qhepc1Port (x : UInt32) : UInt32 := (x &&& 0x7f) * mask 23
def qhepc1HubAddr (x : UInt32) : UInt32 := (x &&& 0x7f) * mask 16
def qhepc1UframeCmask (x : UInt32) : UInt32 := (x &&& 0xff) * mask 8
def qhepc1UframeSmask (x : UInt32) : UInt32 := (x &&& 0xff) * mask 0

/-- `QHEPC0_HSPEED`, `QHEPC0_FSPEED` and `QHEPC0_LSPEED`. -/
def qhepc0Speed : Speed → UInt32
  | .high => 2 * mask 12
  | .full => 0 * mask 12
  | .low => 1 * mask 12

/-- The first word as `qhn_alloc` fills it in. -/
def allocEpc0 (address : UInt8) (speed : Speed) (ep : Ep) : UInt32 :=
  let epc0 := qhepc0Speed speed
  let epc0 := epc0 ||| (qhepc0Maxpktlen ep.maxPkt.toUInt32
    ||| qhepc0Addr address.toUInt32 ||| qhepc0Ep ep.num.toUInt32)
  -- the counter is not used for an interrupt endpoint
  let epc0 :=
    if ep.type = .interrupt then epc0 ||| qhepc0NakcntRl 0
    else epc0 ||| qhepc0NakcntRl 0x8
  if ep.type = .control then
    let epc0 := epc0 ||| mask qhepc0Dtc
    if speed ≠ .high then epc0 ||| mask qhepc0C else epc0
  else epc0

/-- The second word as `qhn_alloc` fills it in. -/
def allocEpc1 (hubAddr hubPort : UInt8) (speed : Speed) (ep : Ep) :
    UInt32 :=
  let epc1 := qhepc1Mult 1
  let epc1 :=
    if speed ≠ .high then
      epc1 ||| (qhepc1HubAddr hubAddr.toUInt32 ||| qhepc1Port hubPort.toUInt32)
    else epc1
  let epc1 :=
    if (ep.type = .interrupt ∨ ep.type = .isochronous)
      ∧ speed ≠ .high then
      epc1 ||| qhepc1UframeCmask 0x1c
    else epc1
  if ep.type = .interrupt then epc1 ||| qhepc1UframeSmask 1 else epc1

/-- `qhn_alloc`. -/
def qhnAlloc (pqh : UInt32) (address : UInt8) (speed : Speed) (ep : Ep) :
    QHn where
  pqh := pqh
  qhlptr := linkInvalid
  epc0 := allocEpc0 address speed ep
  tdCur := 0
  overlayNext := linkInvalid
  tdns := none
  rate := 0
  wasCancelled := 0
  next := none

/-- `qhn_update`: the first word for another address or packet size. -/
def updateEpc0 (epc0 : UInt32) (address : UInt8) (ep : Ep) : UInt32 :=
  if ep.type ≠ .control then epc0
  else
    let epc0 :=
      if qhepc0GetMaxpkt epc0 ≠ ep.maxPkt.toUInt32 then
        epc0 &&& ~~~qhepc0MaxpktMask ||| qhepc0Maxpktlen ep.maxPkt.toUInt32
      else epc0
    if qhepc0GetAddr epc0 ≠ address.toUInt32 then
      epc0 &&& ~~~qhepc0AddrMask ||| qhepc0Addr address.toUInt32
    else epc0

/-- What the controller takes the field of two bits at bit 12 for. -/
def speedCode : Speed → UInt32
  | .high => 2
  | .full => 0
  | .low => 1

-- =========================================================== scheduling

/-- A queue head for an endpoint that has none. -/
def createQh (s : Sched) (slot : Slot) (addr hubAddr hubPort : UInt8)
    (speed : Speed) (ep : Ep) : Sched :=
  let q := s.fresh
  let ring := s.ring.setQh q fun _ => qhnAlloc slot.pqh addr speed ep
  { ring :=
      if ep.type = .control ∨ ep.type = .bulk then ehciAddQhnAsync ring q
      else ring
    epc1 := Function.update s.epc1 q (allocEpc1 hubAddr hubPort speed ep)
    fresh := q + 1 }

/-- `qhn_update`. -/
def qhnUpdate (s : Sched) (q : QhId) (address : UInt8) (ep : Ep) : Sched :=
  { s with ring := s.ring.setQh q fun qhn => { qhn with
    epc0 := updateEpc0 qhn.epc0 address ep } }

/-- `ehci_schedule_async`: the schedule is started with the queue head. -/
def ehciScheduleAsync (s : Sched) (slot : Slot) (q : QhId) : Sched :=
  if slot.idle then
    { s with ring := s.ring.setQh q fun qhn => { qhn with
      epc0 := qhn.epc0 ||| mask qhepc0H } }
  else s

/-- The call of `ehci_schedule_async`. -/
def sendOff (s : Sched) (slot : Slot) (ep : Ep) (q : QhId) : Sched :=
  if ep.type = .bulk ∨ ep.type = .control then ehciScheduleAsync s slot q
  else s

/-- `ehci_schedule_xact`, up to the transfer descriptors. The root hub has
no queue head. -/
def ehciScheduleXact (s : Sched) (slot : Slot) (addr : UInt8)
    (hubAddr : Int8) (hubPort : UInt8) (speed : Speed) (ep : Ep) :
    Ep × Sched :=
  if hubAddr = -1 then (ep, s)
  else
    match ep.hcpriv with
    | none =>
        ({ ep with hcpriv := some s.fresh }, sendOff
          (createQh s slot addr hubAddr.toUInt8 hubPort speed ep) slot ep
          s.fresh)
    | some q => (ep, sendOff (qhnUpdate s q addr ep) slot ep q)

/-- `ehci_cancel_xact`, of a control or bulk endpoint. -/
def ehciCancelXact (fuel : Nat) (s : Sched) (ep : Ep) :
    Except Fault Sched :=
  match ep.hcpriv with
  | none => .ok s
  | some q => (ehciDelQhnAsync fuel s.ring q).map fun ring =>
      { s with ring := ring }

end ProjectsLibs.Ehci
