/-
Control requests (hcd.c, async.c, usbhub.c): `ehci_schedule_xact` hands
those for the root hub to the hub emulation and sends the others over the
bus, and the drivers above do not know which. `Contract` is what they
rely on, as usb_host.h documents it for `usb_hcd_schedule`.

# A request on the bus

It is enqueued behind those that its endpoint has. One of these may be a
request that somebody waited for in vain: `ehci_wait_for_completion` gave
it up, but its descriptors are still on the queue head, without a
callback. The controller works through the queue in order until it halts
on a descriptor. Passes of the driver come in between, whenever the
controller interrupts, and one follows in the end; a call without a
callback has the interrupts disabled and waits instead.

Freed memory is not used again during the passes (what happens if it is,
is in `System`).

# Fatal messages

`ZF_LOGF` ends the run, unless a `return` stands behind it: there the
call returns that value. So a timeout of `ehci_wait_for_completion`
returns -1, and a buffer with too many pages, a null device or a failed
allocation in `qtd_alloc` ends the run. The other modules about this
driver have the same convention.
-/
import Mathlib.Data.List.DropRight
import ProjectsLibs.Ehci.StatusChange
import ProjectsLibs.Ehci.System

namespace ProjectsLibs.Ehci

open Lib Usb

-- ============================================================= requests

/-- A data packet. -/
structure DataXact where
  type : XactType
  len : Nat
  notSetup : type ≠ .pidSetup

/-- A control request: what its setup packet holds, and the data packet
behind it. -/
structure Control where
  req : Usbreq
  data : Option DataXact

namespace Control

/-- The data bytes that are requested. -/
def len (c : Control) : Nat := (c.data.map DataXact.len).getD 0

/-- The packets as the hub emulation reads them. -/
def hubXacts (c : Control) : List HubXact :=
  ⟨.pidSetup, 8, c.req⟩
    :: (c.data.map fun d => ⟨d.type, d.len, c.req⟩).toList

/-- The packets as `qtd_alloc` reads them. -/
def xacts (c : Control) : List Xact :=
  ⟨.pidSetup, 8⟩ :: (c.data.map fun d =>
    ⟨d.type, UInt32.ofNat d.len⟩).toList

end Control

/-- What comes of a request: the return value, the calls of its callback,
the data bytes that were transferred, and whether it succeeded. -/
structure Outcome where
  ret : Int
  calls : List (XactStat × Int)
  moved : Nat
  succeeded : Bool
  deriving DecidableEq, Repr

/-- The contract: a call without a callback that does not fail returns the
data bytes that were not transferred; a callback is called once, with that
number and as a success exactly if the request succeeded. -/
def Contract (len : Nat) (cb : Bool) (o : Outcome) : Prop :=
  if cb then ∃ stat rbytes, o.calls = [(stat, rbytes)]
    ∧ (stat = .success ↔ o.succeeded = true)
    ∧ (o.succeeded = true → rbytes = (len : Int) - o.moved)
  else 0 ≤ o.ret → o.succeeded = true ∧ o.ret = (len : Int) - o.moved

-- ========================================================= the root hub

/-- A request for the root hub. -/
structure RootCall where
  hw : Changes
  st : HubemState RootHub
  control : Control
  cb : Bool

/-- The length of the answer to a request for data, if there is one. -/
def replySize (nports : Nat) (req : Usbreq) : Option Nat :=
  if req.bRequest = reqGetStatus then
    if req.wIndex = 0 then some 2
    else if req.wIndex ≤ nports then some 4
    else none
  else
    let dtype := req.wValue / 256
    if dtype = descDevice then some 18
    else if dtype = descHub then some (7 + (nports + 7) / 8 * 2)
    else if dtype = descConfiguration then some 25
    else if dtype = descInterface then some 9
    else if dtype = descEndpoint then some 7
    else none

/-- The features that `_set_pf` and `_clr_pf` handle. -/
def handlesFeature (req : Usbreq) : Bool :=
  if req.bRequest = reqSetFeature then
    featureOf req.wValue ∈ [.enable, .power, .reset, .suspend]
  else featureOf req.wValue ∈ [.enable, .overCurrent, .cEnable, .cConnection,
    .cOverCurrent, .cReset, .power, .suspend]

/-- The requests that the root hub carries out: those for data that it
has, those for features that it handles, and the three that need nothing
of a hub that is not on the bus. Any other request code is not supported,
and the request fails whatever is returned. -/
def carriesOut (nports : Nat) (req : Usbreq) : Bool :=
  if req.bRequest = reqGetStatus ∨ req.bRequest = reqGetDescriptor then
    (replySize nports req).isSome
  else if req.bRequest = reqClrFeature ∨ req.bRequest = reqSetFeature then
    handlesFeature req
  else req.bRequest ∈ [reqSetAddress, reqSetConfiguration, reqSetInterface]

/-- `hubem_process_xact`, with the functions of the EHCI root hub. -/
def rootOutcome (i : RootCall) : Option Outcome :=
  (hubemProcessXact (ehciHubem i.hw i.st.token.nports) i.cb i.st
    i.control.hubXacts).map fun r =>
      ⟨r.ret, r.calls, r.data.length,
        carriesOut i.st.token.nports i.control.req⟩

-- =============================================================== the bus

/-- What a pass of the driver finds: the tokens of the descriptors, and the
fields of the queue head that the controller writes. -/
structure Turn where
  token : TdId → UInt32
  tdCur : UInt32
  overlayNext : UInt32

/-- All descriptors of a group are finished. -/
def Turn.finished (w : Turn) (g : CbGrp) : Bool :=
  g.2.all fun t => qtdGetStatus (w.token t) = .success

/-- What the controller does: what the passes find that come before the
request is over, what the controller leaves in the end, and the tokens
that the reads of a descriptor find, one after the other. -/
structure Completion where
  passes : List Turn
  last : Turn
  reads : TdId → Nat → UInt32

/-- The tokens in the end. -/
abbrev Completion.final (c : Completion) : TdId → UInt32 := c.last.token

/-- A request for a device on the bus, on the control endpoint with the
queue head `q`: `front` has the requests that the queue head has already,
`blocks` the memory for the descriptors of this one, and `offset` is that
of the data buffer in its page. -/
structure BusCall where
  host : AsyncHost
  q : QhId
  front : List CbGrp
  id : Nat
  maxPkt : UInt32
  speed : Speed
  control : Control
  offset : Nat
  blocks : List (TdId × UInt32)
  cb : Bool
  hw : Completion

/-- The loop of `qtd_alloc` over the pages of a buffer. Each pass adds a
page, so it ends within the length. -/
def bufCount (len : Nat) : Nat → Nat → Nat → Nat
  | 0, _, cnt => cnt
  | fuel + 1, filled, cnt =>
      if filled < len then bufCount len fuel (filled + 0x1000) (cnt + 1)
      else cnt

/-- A descriptor has room for the pages of a buffer. -/
def buffersFit (offset len : Nat) : Bool :=
  bufCount len len (0x1000 - offset % 0x1000) 0 ≤ 4

/-- The polls of a descriptor: the bytes that are left, or none after the
last. The token is read again for the bytes. -/
def waitTd (reads : Nat → UInt32) : Nat → Nat → Option UInt32
  | cnt, i =>
      let status := reads i &&& 0xff
      if status = 0 ∨ status = 1 then some (tdtokGetBytes (reads (i + 1)))
      else
        match cnt with
        | 0 => none
        | cnt + 1 => waitTd reads cnt (i + 1)

/-- `ehci_wait_for_completion`. -/
def ehciWaitForCompletion (host : AsyncHost) (reads : TdId → Nat → UInt32) :
    Nat → Option TdId → UInt32 → Except Fault Int
  | _, none, sum => .ok (cInt sum)
  | 0, some _, _ => .error .endless
  | fuel + 1, some t, sum =>
      if (host.tdns t).td = false then .error .null
      else
        match waitTd (reads t) 3000 0 with
        | none => .ok (-1)
        | some bytes => ehciWaitForCompletion host reads fuel
            (host.nextTd t) (sum + bytes)

namespace BusCall

variable (i : BusCall)

/-- The endpoint. -/
def ep : Endpoint := ⟨.control, i.maxPkt⟩

/-- The descriptors of the request. -/
def tds : List TdId := i.blocks.map Prod.fst

/-- The request as a group. -/
def own : CbGrp := (if i.cb then some i.id else none, i.tds)

/-- All descriptors of the queue head. -/
def queue : List TdId := flat (i.front ++ [i.own])

/-- The length of the walks that are looked at. -/
def fuel : Nat := (flat i.front).length + i.blocks.length + 2

/-- `qtd_alloc` and `qtd_enqueue`. -/
def enqueue : Except Fault AsyncHost :=
  let host := { i.host with
    tdns := qtdAlloc i.ep i.speed i.control.xacts i.own.1 i.blocks
      i.host.tdns }
  match i.tds.head? with
  | none => .error .null
  | some t => qtdEnqueue i.fuel host i.q t

/-- The queue head with what the controller leaves. -/
def leave (w : Turn) (host : AsyncHost) : AsyncHost :=
  let tds := follow host.nextTd i.fuel (host.qhns i.q).tdns
  let host := host.setQh i.q fun qhn => { qhn with
    tdCur := w.tdCur
    overlayNext := w.overlayNext }
  { host with tdns := fun t =>
      if t ∈ tds then { host.tdns t with token := w.token t }
      else host.tdns t }

/-- The pass of the driver over the queue head. -/
def pass (x : Xfer) : Except Fault Xfer :=
  collectTds ⟨x.host.tdns, x.host.qhns⟩ i.fuel i.q i.fuel x
    (x.host.qhns i.q).tdns (x.host.qhns i.q).tdns 0

/-- The passes, one after the other. -/
def passes : List Turn → Xfer → Except Fault Xfer
  | [], x => .ok x
  | w :: ws, x => do
      let x ← i.pass { x with host := i.leave w x.host }
      passes ws x

/-- The data bytes that were transferred: the controller counts the field
of the token down. -/
def moved (host : AsyncHost) : Nat :=
  match i.control.data, i.tds with
  | some _, _ :: t :: _ => (tdtokGetBytes (host.tdns t).token).toNat
      - (tdtokGetBytes (i.hw.final t)).toNat
  | _, _ => 0

/-- The controller finished all descriptors of the request. -/
def succeeded : Bool := i.hw.last.finished i.own

/-- The return value: a call with a callback does not wait. -/
def ret (host : AsyncHost) : Except Fault Int :=
  if i.cb then .ok 0
  else ehciWaitForCompletion host i.hw.reads i.fuel i.tds.head? 0

/-- The calls of the callback of the request. -/
def callsIn (log : List Call) : List (XactStat × Int) :=
  (log.filter fun c => c.xact = i.id).map fun c => (c.status, c.rbytes)

/-- `ehci_schedule_xact` and the completion. -/
def run : Except Fault Outcome := do
  let host ← i.enqueue
  let ret ← i.ret host
  let x ← i.passes (i.hw.passes ++ [i.hw.last]) ⟨host, [], []⟩
  .ok ⟨ret, i.callsIn x.log, i.moved host, i.succeeded⟩

/-- The outcome, if the buffer fits. A call without a callback starts when
the queue head has no descriptors. -/
def outcome : Option Outcome :=
  if buffersFit i.offset i.control.len = true
      ∧ (i.cb = false → (i.host.qhns i.q).tdns = none) then i.run.toOption
  else none

end BusCall

/-- A descriptor that is finished: neither active nor halted, with the
interrupt bit as it was and no more bytes left than there were. -/
def Retired (old token : UInt32) : Prop :=
  qtdGetStatus token = .success
    ∧ testBit token tdtokIoc = testBit old tdtokIoc
    ∧ (tdtokGetBytes token).toNat ≤ (tdtokGetBytes old).toNat

/-- A descriptor that is halted on. -/
def Halted (old token : UInt32) : Prop :=
  testBit token tdtokShalted = true
    ∧ testBit token tdtokIoc = testBit old tdtokIoc

/-- The controller works through descriptors in order, up to one that it
halts on. -/
def Completes (old final : TdId → UInt32) : List TdId → Prop
  | [] => True
  | t :: tds => (Retired (old t) (final t) ∧ Completes old final tds)
      ∨ (Halted (old t) (final t) ∧ ∀ u ∈ tds, final u = old u)

instance (old token : UInt32) : Decidable (Retired old token) :=
  inferInstanceAs (Decidable (_ ∧ _ ∧ _))

instance (old token : UInt32) : Decidable (Halted old token) :=
  inferInstanceAs (Decidable (_ ∧ _))

instance decidableCompletes (old final : TdId → UInt32) :
    ∀ tds, Decidable (Completes old final tds)
  | [] => isTrue trivial
  | t :: tds =>
      have : Decidable (Completes old final tds) :=
        decidableCompletes old final tds
      inferInstanceAs (Decidable
        ((Retired (old t) (final t) ∧ Completes old final tds)
          ∨ (Halted (old t) (final t) ∧ ∀ u ∈ tds, final u = old u)))

/-- What a pass finds that comes before the end: a descriptor that is
finished then is as it will be in the end. -/
def Underway (old token final : UInt32) : Prop :=
  testBit token tdtokIoc = testBit old tdtokIoc
    ∧ (qtdGetStatus token = .success → token = final)

instance (old token final : UInt32) : Decidable (Underway old token final) :=
  inferInstanceAs (Decidable (_ ∧ _))

/-- Reads find an active descriptor, and then what the controller
leaves. -/
def Settles (reads : Nat → UInt32) (final : UInt32) : Prop :=
  ∀ i, testBit (reads i) tdtokSactive = true ∨ ∀ j, i ≤ j →
    reads j = final

/-- A request that the driver can get, and a completion of it: the queue
head has the requests in front, the descriptors are in new blocks of
memory, each pass but the last finds the request unfinished, and a setup
packet is sent whole. -/
structure BusCall.Ok (i : BusCall) : Prop where
  queued : Queued i.host i.q i.front
  others : ∀ g ∈ i.front, g.1 ≠ some i.id
  blocks : i.blocks.length = (groupTokens i.ep i.speed i.control.xacts).length
  distinct : i.tds.Nodup
  fresh : ∀ t ∈ i.tds, t ∉ flat i.front
  completes : ∀ host, i.enqueue = .ok host →
    Completes (fun t => (host.tdns t).token) i.hw.final i.queue
  underway : ∀ host, i.enqueue = .ok host → ∀ w ∈ i.hw.passes,
    ∀ t ∈ i.queue, Underway (host.tdns t).token (w.token t) (i.hw.final t)
  unfinished : ∀ w ∈ i.hw.passes, w.finished i.own = false
  waits : i.cb = false → i.hw.passes = []
  setup : ∀ t ∈ i.tds.head?, qtdGetStatus (i.hw.final t) = .success →
    tdtokGetBytes (i.hw.final t) = 0
  settles : ∀ t ∈ i.tds, Settles (i.hw.reads t) (i.hw.final t)

/-- The requests in front that the earlier passes leave. -/
def leftBy : List Turn → List CbGrp → List CbGrp
  | [], gs => gs
  | w :: ws, gs => leftBy ws (gs.dropWhile w.finished)

/-- The bytes that requests leave which have no callback, and behind which
none of them has one. -/
def uncalledBytes (token : TdId → UInt32) (gs : List CbGrp) : Nat :=
  ((flat (gs.rtakeWhile fun g => g.1 = none)).map fun t =>
    (tdtokGetBytes (token t)).toNat).sum

-- =================================================== what is to be shown

/-- A call of `ehci_schedule_xact` with a control request. -/
inductive ControlCall
  | root (i : RootCall)
  | bus (i : BusCall)

namespace ControlCall

def control : ControlCall → Control
  | root i => i.control
  | bus i => i.control

def cb : ControlCall → Bool
  | root i => i.cb
  | bus i => i.cb

def outcome : ControlCall → Option Outcome
  | root i => rootOutcome i
  | bus i => i.outcome

def Ok : ControlCall → Prop
  | root _ => True
  | bus i => i.Ok

/-- The condition under which a call meets the contract.

On the bus: it waits, or the controller halts on no descriptor, and the
requests without a callback that the last pass finds directly in front
leave no bytes.

On the root hub: a request for data has no callback and is not answered,
or asks for no data or for twice what it gets; one for a feature asks for
no data, or the feature is not handled; any other asks for no data, and
its code is supported. -/
def Meets : ControlCall → Prop
  | bus i => i.cb = true →
      (∀ t ∈ i.queue, testBit (i.hw.final t) tdtokShalted = false)
        ∧ 2 ^ 32 ∣ uncalledBytes i.hw.final (leftBy i.hw.passes i.front)
  | root i =>
      if i.control.req.bRequest = reqGetStatus
          ∨ i.control.req.bRequest = reqGetDescriptor then
        i.cb = false
          ∧ ∀ size ∈ replySize i.st.token.nports i.control.req,
            i.control.len = 0 ∨ i.control.len = 2 * size
      else if i.control.req.bRequest = reqClrFeature
          ∨ i.control.req.bRequest = reqSetFeature then
        handlesFeature i.control.req = true → i.control.len = 0
      else carriesOut i.st.token.nports i.control.req = true
        ∧ i.control.len = 0

end ControlCall

end ProjectsLibs.Ehci
