/-
Transfers on the asynchronous schedule of the EHCI driver (async.c): a
transaction is a group of transfer descriptors, of which the last has the
callback and interrupts on completion.

A call is one step, and so is the controller finishing a descriptor. The
memory of a descriptor that is freed is another program's: what is read
from it afterwards (`Junk`) is an input. A block that is allocated again
gets a new number. The buffers of the descriptors are left out, as is the
periodic schedule.

# What happens to a request

A request is a list of transactions. `qtd_alloc` makes a descriptor for
each, and one more for the status of a control transfer; only the last
has the callback and interrupts. `qtd_enqueue` puts them behind those
that are there, and the controller works through them. A pass takes the
finished requests off the front and makes their callbacks, with the bytes
that are left of them summed up. Memory that is freed is still read by
the driver, for the link to the next descriptor, so what it reads as is
an input (`Junk`).

The sum of the bytes is an unsigned word that is passed on as an `int`,
and it is put back to zero only after a callback was made.
-/
import ProjectsLibs.Ehci.Async

namespace ProjectsLibs.Ehci

open Lib

-- =============================================================== tokens

/-- `enum usb_xact_status`. -/
inductive XactStat
  | success
  | pending
  | cancelled
  | error
  | hosterror
  deriving DecidableEq, Repr

/-- `TDTOK_SXACTERR`. -/
def tdtokSxacterr : Nat := 3

/-- `TDTOK_ERROR`: halted, buffer, babble and transaction errors, and a
missed microframe. -/
def tdtokError : UInt32 :=
  mask tdtokShalted ||| mask 5 ||| mask 4 ||| mask tdtokSxacterr ||| mask 2

/-- `TDTOK_BYTES`. -/
def tdtokBytes (len : UInt32) : UInt32 := (len &&& 0x7fff) <<< 16

/-- `TDTOK_GET_BYTES`. -/
def tdtokGetBytes (token : UInt32) : UInt32 :=
  (token &&& tdtokBytes 0x7fff) >>> 16

/-- `qtd_get_status`. -/
def qtdGetStatus (token : UInt32) : XactStat :=
  if token &&& mask tdtokSactive ≠ 0 then .pending
  else if token &&& mask tdtokShalted ≠ 0 then
    if token &&& mask tdtokSxacterr ≠ 0 then .error
    else if token &&& tdtokError ≠ 0 then .hosterror
    else .hosterror
  else .success

-- ============================================================ allocation

/-- `enum usb_xact_type`. -/
inductive XactType
  | pidIn
  | pidOut
  | pidSetup
  deriving DecidableEq, Repr

/-- `TDTOK_PID_IN`, `TDTOK_PID_OUT` and `TDTOK_PID_SETUP`. -/
def pidBits : XactType → UInt32
  | .pidIn => 1 * mask 8
  | .pidOut => 0 * mask 8
  | .pidSetup => 2 * mask 8

inductive EpType
  | control
  | isochronous
  | bulk
  | interrupt
  deriving DecidableEq, Repr

inductive Speed
  | high
  | full
  | low
  deriving DecidableEq, Repr

/-- What `qtd_alloc` reads of `struct endpoint`. -/
structure Endpoint where
  type : EpType
  maxPkt : UInt32
  deriving DecidableEq, Repr

/-- What `qtd_alloc` reads of `struct xact`, but for its buffer. -/
structure Xact where
  type : XactType
  len : UInt32
  deriving DecidableEq, Repr

/-- `TDTOK_DT`. -/
def tdtokDt : Nat := 31

/-- `TDTOK_PINGSTATE`. -/
def tdtokPingstate : Nat := 0

/-- `TDTOK_C_ERR(0x3)`. -/
def tdtokCErr : UInt32 := 0x3 * mask 10

/-- The token of the descriptor of a packet, after packets of `total`
bytes. -/
def xactToken (ep : Endpoint) (speed : Speed) (total : UInt32) (x : Xact) :
    UInt32 :=
  let token : UInt32 :=
    if ep.type = .control ∧ ep.maxPkt &&& (ep.maxPkt + total - 1) ≠ 0
    then mask tdtokDt else 0
  let token := token ||| tdtokBytes x.len
  let token := token ||| tdtokCErr
  let token := token ||| pidBits x.type
  let token := token ||| mask tdtokShalted
  if speed = .high ∧ x.type = .pidOut then token ||| mask tdtokPingstate
  else token

/-- The loop over the packets. -/
def xactTokens (ep : Endpoint) (speed : Speed) :
    UInt32 → List Xact → List UInt32
  | _, [] => []
  | total, x :: xact =>
      xactToken ep speed total x
        :: xactTokens ep speed (total + x.len) xact

/-- `xact_stage` after the loop. -/
def xactStage (xact : List Xact) : UInt32 :=
  xact.foldl (fun stage x => stage ||| pidBits x.type) 0

/-- `total_bytes` after the loop. -/
def totalBytes (xact : List Xact) : UInt32 :=
  xact.foldl (fun total x => total + x.len) 0

/-- The token of the descriptor of a zero length packet. -/
def zlpToken (stage prev : UInt32) : UInt32 :=
  let token := tdtokCErr ||| mask tdtokShalted
  if stage &&& pidBits .pidSetup ≠ 0 then
    let token :=
      if stage &&& pidBits .pidIn ≠ 0 then token ||| pidBits .pidOut
      else token ||| pidBits .pidIn
    token ||| mask tdtokDt
  else
    let token := token ||| pidBits .pidOut
    if prev &&& mask tdtokDt = 0 then token ||| mask tdtokDt else token

/-- The tokens of the descriptors of a transaction, but for the interrupt
bit of the last. -/
def groupTokens (ep : Endpoint) (speed : Speed) (xact : List Xact) :
    List UInt32 :=
  let tokens := xactTokens ep speed 0 xact
  if (xactStage xact &&& pidBits .pidOut ≠ 0
      ∧ totalBytes xact % ep.maxPkt = 0) ∨ ep.type = .control then
    tokens ++ [zlpToken (xactStage xact) (tokens.getLastD 0)]
  else tokens

/-- The descriptors are filled in and linked, each with its number, its
physical address and its token. The last gets the interrupt bit, the
callback, which may be null, and the terminate bit. -/
def fillTds (cb : Option Nat) :
    List (TdId × UInt32 × UInt32) → (TdId → TDn) → TdId → TDn
  | [], tdns => tdns
  | [(t, ptd, token)], tdns => Function.update tdns t {
      td := true
      ptd := ptd
      tdNext := 0 ||| linkInvalid
      token := token ||| mask tdtokIoc
      cb := cb
      next := none }
  | (t, ptd, token) :: (t', ptd', token') :: tds, tdns =>
      fillTds cb ((t', ptd', token') :: tds) (Function.update tdns t {
        td := true
        ptd := ptd
        tdNext := ptd'
        token := token
        cb := none
        next := some t' })

/-- `qtd_alloc`, with the descriptors that it allocates. -/
def qtdAlloc (ep : Endpoint) (speed : Speed) (xact : List Xact)
    (cb : Option Nat) (blocks : List (TdId × UInt32)) (tdns : TdId → TDn) :
    TdId → TDn :=
  fillTds cb (List.zipWith (fun block token => (block.1, block.2, token))
    blocks (groupTokens ep speed xact)) tdns

-- =============================================================== enqueue

/-- `token &= ~TDTOK_SHALTED; token |= TDTOK_SACTIVE`. -/
def TDn.enable (tdn : TDn) : TDn :=
  { tdn with
    token := tdn.token &&& ~~~(mask tdtokShalted) ||| mask tdtokSactive }

/-- The loop that enables the descriptors. -/
def enableTds : Nat → Option TdId → (TdId → TDn) →
    Except Fault (TdId → TDn)
  | _, none, tdns => .ok tdns
  | 0, some _, _ => .error .endless
  | fuel + 1, some t, tdns =>
      if (tdns t).td = false then .error .null
      else enableTds fuel (tdns t).next
        (Function.update tdns t (tdns t).enable)

/-- The new descriptors are linked behind those of the queue head. -/
def linkTds (fuel : Nat) (s : AsyncHost) (q : QhId) (t : TdId) :
    Except Fault AsyncHost :=
  match (s.qhns q).tdns with
  | none =>
      .ok (s.setQh q fun qhn => { qhn with
        overlayNext := (s.tdns t).ptd
        tdns := some t })
  | some first =>
      match walkWhile s.nextTd (fun _ => true) fuel first with
      | none => .error .endless
      | some last =>
          let s :=
            if (s.qhns q).tdCur = (s.tdns last).ptd
                ∧ (s.qhns q).overlayNext = linkInvalid then
              s.setQh q fun qhn => { qhn with
                overlayNext := (s.tdns t).ptd }
            else s
          if (s.tdns last).td = false then .error .null
          else .ok { s with tdns := Function.update s.tdns last {
            s.tdns last with
            next := some t
            tdNext := (s.tdns t).ptd &&& ~~~linkInvalid } }

/-- `qtd_enqueue`. -/
def qtdEnqueue (fuel : Nat) (s : AsyncHost) (q : QhId) (t : TdId) :
    Except Fault AsyncHost := do
  let s ← linkTds fuel s q t
  let tdns ← enableTds fuel (some t) s.tdns
  .ok { s with tdns := tdns }

-- ============================================================ completion

/-- A callback that was called: the transaction that it is for, the status
and the remaining bytes. The queue head is not among its arguments. -/
structure Call where
  qhn : QhId
  xact : Nat
  status : XactStat
  rbytes : Int
  deriving DecidableEq, Repr

/-- The driver's memory, the callbacks that were called and the queue
heads that were destroyed. -/
structure Xfer where
  host : AsyncHost
  log : List Call
  destroyed : List QhId

/-- What is found in memory that was freed. -/
structure Junk where
  td : TdId → TDn
  qh : QhId → QHn

/-- The value of a C `int`. -/
def cInt (w : UInt32) : Int := w.toBitVec.toInt

/-- `usb_free` of a descriptor. -/
def freeTd (junk : Junk) (s : AsyncHost) (t : TdId) : AsyncHost :=
  { s with tdns := Function.update s.tdns t (junk.td t) }

/-- `while (head != tdn->next)`: the descriptors up to `tdn` are freed.
The link of `tdn` is read again after `tdn` was freed. -/
def freeTds (junk : Junk) (tdn : TdId) :
    Nat → AsyncHost → Option TdId →
      Except Fault (AsyncHost × Option TdId)
  | 0, _, _ => .error .endless
  | fuel + 1, s, head =>
      if head = s.nextTd tdn then .ok (s, head)
      else
        match head with
        | none => .error .null
        | some tmp =>
            let head := s.nextTd tmp
            freeTds junk tdn fuel (freeTd junk s tmp) head

/-- The queue head skips the descriptor `tdn`: it is the last one that the
controller had when others were linked behind it. -/
def advanceOverlay (s : AsyncHost) (q : QhId) (tdn : TdId) : AsyncHost :=
  match s.nextTd tdn with
  | none => s
  | some n =>
      if (s.qhns q).tdCur = (s.tdns tdn).ptd
          ∧ (s.qhns q).overlayNext = linkInvalid then
        s.setQh q fun qhn => { qhn with overlayNext := (s.tdns n).ptd }
      else s

/-- The end of a group: its callback is called and it is freed. -/
def completeGroup (junk : Junk) (fuel : Nat) (q : QhId) (x : Xfer)
    (tdn : TdId) (head : Option TdId) (sum : UInt32) :
    Except Fault (Xfer × Option TdId × UInt32) := do
  let (log, sum) := match (x.host.tdns tdn).cb with
    | some cb => (x.log ++ [⟨q, cb, .success, cInt sum⟩], 0)
    | none => (x.log, sum)
  let host := x.host.setQh q fun qhn => { qhn with
    tdns := x.host.nextTd tdn }
  let host := advanceOverlay host q tdn
  let (host, head) ← freeTds junk tdn fuel host head
  .ok ({ x with host := host, log := log }, head, sum)

/-- The loop over the descriptors of a queue head. The link of `tdn` is
read after its group was freed. -/
def collectTds (junk : Junk) (free : Nat) (q : QhId) :
    Nat → Xfer → Option TdId → Option TdId → UInt32 →
      Except Fault Xfer
  | _, x, none, _, _ => .ok x
  | 0, _, some _, _, _ => .error .endless
  | fuel + 1, x, some tdn, head, sum =>
      if (x.host.tdns tdn).td = false then .error .null
      else if qtdGetStatus (x.host.tdns tdn).token = .success then
        let sum := sum + tdtokGetBytes (x.host.tdns tdn).token
        if (x.host.tdns tdn).token &&& mask tdtokIoc ≠ 0 then do
          let (x, head, sum) ← completeGroup junk free q x tdn head sum
          collectTds junk free q fuel x (x.host.nextTd tdn) head sum
        else collectTds junk free q fuel x (x.host.nextTd tdn) head sum
      else .ok x

/-- `do { … } while (qhn != edev->alist_tail)`. -/
def collectRing (junk : Junk) (free : Nat) :
    Nat → Xfer → QhId → Except Fault Xfer
  | 0, _, _ => .error .endless
  | fuel + 1, x, q => do
      let tdn := (x.host.qhns q).tdns
      let x ← collectTds junk free q free x tdn tdn 0
      match x.host.nextOf q with
      | none => .error .null
      | some n =>
          if some n = x.host.alistTail then .ok x
          else collectRing junk free fuel x n

/-- `ehci_async_complete`. -/
def ehciAsyncComplete (junk : Junk) (fuel : Nat) (x : Xfer) :
    Except Fault Xfer :=
  match x.host.alistTail with
  | none => .ok x
  | some q => collectRing junk fuel fuel x q

-- ========================================================== cancellation

/-- The loop over the descriptors of a queue head that is destroyed. The
link is read before the descriptor is freed. -/
def destroyTds (junk : Junk) (q : QhId) :
    Nat → Xfer → Option TdId → Except Fault Xfer
  | _, x, none => .ok x
  | 0, _, some _ => .error .endless
  | fuel + 1, x, some tmp =>
      let tdn := x.host.nextTd tmp
      let log := match (x.host.tdns tmp).cb with
        | some cb => x.log ++ [⟨q, cb, .cancelled, 0⟩]
        | none => x.log
      destroyTds junk q fuel { x with
        host := freeTd junk x.host tmp
        log := log } tdn

/-- `qhn_destroy`. -/
def qhnDestroy (junk : Junk) (fuel : Nat) (x : Xfer) (q : QhId) :
    Except Fault Xfer := do
  let x ← destroyTds junk q fuel x (x.host.qhns q).tdns
  .ok { x with
    host := x.host.setQh q fun _ => junk.qh q
    destroyed := x.destroyed ++ [q] }

/-- The queue head stays in `db_pending`. -/
def keepPending (x : Xfer) (q : QhId) (tail : Option QhId) :
    Except Fault Xfer :=
  let host := x.host.setQh q fun qhn => { qhn with
    wasCancelled := qhn.wasCancelled + 1 }
  match host.dbPending with
  | none => .ok { x with host := { host with dbPending := some q } }
  | some _ =>
      match tail with
      | none => .error .null
      | some t => .ok { x with
          host := host.setQh t fun qhn => { qhn with next := some q } }

/-- The loop over the queue heads that were removed. -/
def doorbellLoop (junk : Junk) (free : Nat) :
    Nat → Xfer → Option QhId → Option QhId → Bool →
      Except Fault (Xfer × Bool)
  | _, x, none, _, again => .ok (x, again)
  | 0, _, some _, _, _ => .error .endless
  | fuel + 1, x, some tmp, tail, again =>
      let qhn := x.host.nextOf tmp
      if 1 < (x.host.qhns tmp).wasCancelled then do
        let x ← qhnDestroy junk free x tmp
        doorbellLoop junk free fuel x qhn tail again
      else do
        let x ← keepPending x tmp tail
        doorbellLoop junk free fuel x qhn (some tmp) true

/-- `check_doorbell`. -/
def checkDoorbell (junk : Junk) (fuel : Nat) (x : Xfer) :
    Except Fault Xfer := do
  let qhn := x.host.dbPending
  let x := { x with host := { x.host with dbPending := none } }
  let (x, again) ← doorbellLoop junk fuel fuel x qhn none false
  if again then
    .ok { x with host := { x.host with
      usbcmd := x.host.usbcmd ||| mask ehcicmdAsyncDb } }
  else .ok x

-- ================================================================ groups

/-- The descriptor is finished. -/
def isDone (tdn : TDn) : Bool := qtdGetStatus tdn.token = .success

/-- The descriptor interrupts on completion. -/
def hasIoc (tdn : TDn) : Bool := testBit tdn.token tdtokIoc

/-- The remaining bytes of a descriptor. -/
def bytesLeft (tdn : TDn) : Nat := (tdtokGetBytes tdn.token).toNat

/-- The descriptors of a transaction: the last interrupts and has the
callback, if there is one. -/
def IsGroup (tdns : TdId → TDn) (cb : Option Nat) : List TdId → Prop
  | [] => False
  | [t] => (tdns t).cb = cb ∧ hasIoc (tdns t) = true
  | t :: u :: tds => (tdns t).cb = none ∧ hasIoc (tdns t) = false
      ∧ IsGroup tdns cb (u :: tds)

/-- A group: the callback of the transaction, if it has one, and its
descriptors. -/
abbrev CbGrp := Option Nat × List TdId

/-- The descriptors of groups. -/
def flat {α : Type} (gs : List (α × List TdId)) : List TdId :=
  gs.flatMap Prod.snd

/-- The descriptors of a queue head are groups, one behind the other, of
the transactions that were enqueued on it and are not completed. A request
whose caller gave up waiting for it is among them, without a callback. -/
structure Queued (s : AsyncHost) (q : QhId) (gs : List CbGrp) : Prop where
  leads : Leads s.nextTd (s.qhns q).tdns (flat gs) none
  mapped : Mapped s.tdns (flat gs)
  groups : ∀ g ∈ gs, IsGroup s.tdns g.1 g.2

end ProjectsLibs.Ehci
