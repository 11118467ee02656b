/-
The asynchronous schedule in use: queue heads are added, transactions are
enqueued, the controller finishes descriptors, and the driver completes
and cancels. `CompletedOnce` is what this is for: the callbacks of a queue
head are called once for each of its transactions, in their order.

The state has the driver's memory and its callbacks, and the history of
what was asked for and of what the controller did.

# Steps and histories

A step of the driver is one call, which is made if its arguments are such
as the callers pass them (`Enqueues`), and a step of the controller
finishes the descriptor that it works on (`current`). It leaves a
token that is neither active nor halted, with the interrupt bit as it was
(`Finishes`), and any words in the queue head. The answer to the doorbell
is a step of its own, since it may come at any time.

The history is not looked at by the driver. It says which transaction was
enqueued with which descriptors, how many bytes the controller has left in
each of these, and which callbacks were called. `CompletedOnce` compares
the three, and `XferOk` is the condition on the steps.
-/
import ProjectsLibs.Ehci.Transfers

namespace ProjectsLibs.Ehci

open Lib

-- ================================================================ state

/-- A transaction: its number, and how many descriptors it has. -/
structure Request where
  id : Nat
  size : Nat
  deriving DecidableEq, Repr

/-- The driver and the history of its use: the queue heads that are linked
and that wait in `db_pending`, the transactions that were enqueued on
each, the descriptors that were used with the transaction that each is
for, and the remaining bytes of those that the controller finished. -/
structure XferHost where
  xfer : Xfer
  linked : List QhId
  waiting : List QhId
  enqueued : QhId → List Request
  requests : List Nat
  used : List TdId
  owner : TdId → Nat
  finished : List (Nat × Nat)
  crashed : Bool

/-- What happens. -/
inductive XferOp
  | add (q : QhId)
  | enqueue (q : QhId) (id : Nat) (ep : Endpoint) (speed : Speed)
      (xact : List Xact) (blocks : List (TdId × UInt32))
  | finish (q : QhId) (token tdCur overlayNext : UInt32)
  | complete (junk : Junk)
  | del (q : QhId)
  | doorbell (junk : Junk)

/-- The length of the walks that are looked at: one that goes on for
longer goes on for ever. -/
def xferFuel (s : XferHost) : Nat :=
  s.used.length + s.linked.length + s.waiting.length + 1

/-- The outcome of a call. -/
def xferOutcome (s : XferHost) (ok : XferHost → XferHost) :
    Except Fault Xfer → XferHost
  | .ok xfer => ok { s with xfer := xfer }
  | .error _ => { s with crashed := true }

-- ======================================================= the controller

/-- The first descriptor that is not finished. -/
def firstOpen (s : AsyncHost) : Nat → Option TdId → Option TdId
  | _, none => none
  | 0, some _ => none
  | fuel + 1, some t =>
      if qtdGetStatus (s.tdns t).token = .success
      then firstOpen s fuel (s.nextTd t) else some t

/-- The descriptor that the controller works on. -/
def current (s : XferHost) (q : QhId) : Option TdId :=
  firstOpen s.xfer.host (xferFuel s) (s.xfer.host.qhns q).tdns

/-- The controller finishes a descriptor, with another token and with
other contents of the queue head's overlay. -/
def finishTd (s : XferHost) (q : QhId) (t : TdId)
    (token tdCur overlayNext : UInt32) : XferHost :=
  let host := s.xfer.host.setQh q fun qhn => { qhn with
    tdCur := tdCur
    overlayNext := overlayNext }
  { s with
    xfer := { s.xfer with host := { host with
      tdns := Function.update host.tdns t { host.tdns t with
        token := token } } }
    finished := s.finished ++ [(s.owner t, (tdtokGetBytes token).toNat)] }

/-- The token of an active descriptor that is finished without an error:
neither active nor halted, with the interrupt bit as it was. -/
def Finishes (old token : UInt32) : Prop :=
  qtdGetStatus old = .pending ∧ qtdGetStatus token = .success
    ∧ testBit token tdtokIoc = testBit old tdtokIoc

instance (old token : UInt32) : Decidable (Finishes old token) :=
  inferInstanceAs (Decidable (_ ∧ _ ∧ _))

-- ================================================================ steps

/-- A transaction that can be enqueued: it is new, it has packets, and its
descriptors are in blocks of their own. -/
def Enqueues (s : XferHost) (q : QhId) (id : Nat) (ep : Endpoint)
    (speed : Speed) (xact : List Xact) (blocks : List (TdId × UInt32)) :
    Prop :=
  q ∈ s.linked ∧ id ∉ s.requests ∧ xact ≠ []
    ∧ blocks.length = (groupTokens ep speed xact).length
    ∧ (blocks.map Prod.fst).Nodup
    ∧ ∀ t ∈ blocks.map Prod.fst, t ∉ s.used

instance (s : XferHost) (q : QhId) (id : Nat) (ep : Endpoint)
    (speed : Speed) (xact : List Xact) (blocks : List (TdId × UInt32)) :
    Decidable (Enqueues s q id ep speed xact blocks) :=
  inferInstanceAs (Decidable (_ ∧ _ ∧ _ ∧ _ ∧ _ ∧ _))

/-- `qtd_alloc` and `qtd_enqueue`. -/
def allocEnqueue (s : XferHost) (q : QhId) (id : Nat) (ep : Endpoint)
    (speed : Speed) (xact : List Xact) (blocks : List (TdId × UInt32)) :
    Except Fault Xfer := do
  let host := { s.xfer.host with
    tdns := qtdAlloc ep speed xact (some id) blocks s.xfer.host.tdns }
  match (blocks.map Prod.fst).head? with
  | none => .error .null
  | some t =>
      let host ← qtdEnqueue (xferFuel s + blocks.length) host q t
      .ok { s.xfer with host := host }

/-- The history with a transaction. -/
def record (q : QhId) (id : Nat) (tds : List TdId) (s : XferHost) :
    XferHost :=
  { s with
    enqueued := Function.update s.enqueued q
      (s.enqueued q ++ [⟨id, tds.length⟩])
    requests := id :: s.requests
    used := tds ++ s.used
    owner := fun t => if t ∈ tds then id else s.owner t }

/-- The queue head waits for the doorbell. -/
def moveToWaiting (q : QhId) (s : XferHost) : XferHost :=
  { s with
    linked := s.linked.erase q
    waiting := s.waiting ++ [q] }

/-- The queue head has waited for two answers to the doorbell. -/
def isDue (s : XferHost) (q : QhId) : Bool :=
  1 < (s.xfer.host.qhns q).wasCancelled

/-- The queue heads that are due do not wait any more. -/
def leaveWaiting (old s : XferHost) : XferHost :=
  { s with waiting := old.waiting.filter fun q => !isDue old q }

/-- One step. A queue head that is added is fresh, and one that is removed
is linked. -/
def xferStep (s : XferHost) : XferOp → Option XferHost
  | .add q =>
      if s.crashed = false ∧ q ∉ s.linked ∧ q ∉ s.waiting
          ∧ q ∉ s.xfer.destroyed ∧ (s.xfer.host.qhns q).tdns = none then
        some { s with
          xfer := { s.xfer with host := ehciAddQhnAsync s.xfer.host q }
          linked := q :: s.linked }
      else none
  | .enqueue q id ep speed xact blocks =>
      if s.crashed = false ∧ Enqueues s q id ep speed xact blocks then
        some (xferOutcome s (record q id (blocks.map Prod.fst))
          (allocEnqueue s q id ep speed xact blocks))
      else none
  | .finish q token tdCur overlayNext =>
      match current s q with
      | none => none
      | some t =>
          if s.crashed = false ∧ q ∈ s.linked
              ∧ Finishes (s.xfer.host.tdns t).token token then
            some (finishTd s q t token tdCur overlayNext)
          else none
  | .complete junk =>
      if s.crashed = false then
        some (xferOutcome s id
          (ehciAsyncComplete junk (xferFuel s) s.xfer))
      else none
  | .del q =>
      if s.crashed = false ∧ q ∈ s.linked then
        some (xferOutcome s (moveToWaiting q)
          ((ehciDelQhnAsync (xferFuel s) s.xfer.host q).map
            fun host => { s.xfer with host := host }))
      else none
  | .doorbell junk =>
      if s.crashed = false then
        some (xferOutcome s (leaveWaiting s)
          (checkDoorbell junk (xferFuel s) s.xfer))
      else none

/-- The host as `ehci_host_init` leaves it. -/
structure XferInit (s : XferHost) : Prop where
  alistTail : s.xfer.host.alistTail = none
  dbPending : s.xfer.host.dbPending = none
  log : s.xfer.log = []
  linked : s.linked = []
  waiting : s.waiting = []
  destroyed : s.xfer.destroyed = []
  enqueued : ∀ q, s.enqueued q = []
  requests : s.requests = []
  used : s.used = []
  finished : s.finished = []
  crashed : s.crashed = false

-- ================================================== what is to be shown

/-- The callbacks that were called for a queue head. -/
def callsOf (s : XferHost) (q : QhId) : List Call :=
  s.xfer.log.filter fun c => c.qhn = q

/-- The remaining bytes of the descriptors of a transaction that the
controller finished. -/
def bytesOf (s : XferHost) (id : Nat) : List Nat :=
  (s.finished.filter fun f => f.1 = id).map Prod.snd

/-- The descriptors of a queue head. -/
def tdsOf (s : XferHost) (q : QhId) : List TdId :=
  follow s.xfer.host.nextTd (xferFuel s) (s.xfer.host.qhns q).tdns

/-- A transaction that is completed: with what its descriptors left. -/
def completed (s : XferHost) (q : QhId) (r : Request) : Call :=
  ⟨q, r.id, .success, ((bytesOf s r.id).sum : Nat)⟩

/-- A transaction that is cancelled. -/
def cancelled (q : QhId) (r : Request) : Call := ⟨q, r.id, .cancelled, 0⟩

/-- The condition under which a step completes transactions once: another
queue head stays linked when one is removed, the remaining bytes of a
transaction are an `int`, and freeing leaves the link of the last
descriptor of a group, which is read again. -/
def XferOk (s : XferHost) : XferOp → Prop
  | .del q => ∃ m ∈ s.linked, m ≠ q
  | .finish q token _ _ => ∀ t ∈ current s q,
      (bytesOf s (s.owner t)).sum + (tdtokGetBytes token).toNat < 2 ^ 31
  | .complete junk => ∀ q ∈ s.linked, ∀ t ∈ tdsOf s q,
      (s.xfer.host.tdns t).cb ≠ none →
        (junk.td t).next = s.xfer.host.nextTd t
  | _ => True

instance : ∀ (s : XferHost) (op : XferOp), Decidable (XferOk s op)
  | s, .del q => inferInstanceAs (Decidable (∃ m ∈ s.linked, m ≠ q))
  | s, .finish q token _ _ => inferInstanceAs (Decidable (∀ t ∈ current s q,
      (bytesOf s (s.owner t)).sum + (tdtokGetBytes token).toNat < 2 ^ 31))
  | s, .complete junk => inferInstanceAs (Decidable (∀ q ∈ s.linked,
      ∀ t ∈ tdsOf s q, (s.xfer.host.tdns t).cb ≠ none →
        (junk.td t).next = s.xfer.host.nextTd t))
  | _, .add _ => inferInstanceAs (Decidable True)
  | _, .enqueue .. => inferInstanceAs (Decidable True)
  | _, .doorbell _ => inferInstanceAs (Decidable True)

/-- The callbacks of every queue head have been called for its first
transactions, in their order and all of whose descriptors were finished;
and, once it is destroyed, for the others, as cancelled. A pass of the
driver leaves no transaction at the front that is finished, and a queue
head that waits is destroyed by the second doorbell. -/
structure CompletedOnce (s : XferHost) : Prop where
  running : s.crashed = false
  distinct : ∀ q, ((s.enqueued q).map Request.id).Nodup
  apart : ∀ q m, q ≠ m → ∀ r ∈ s.enqueued q, ∀ r' ∈ s.enqueued m,
    r.id ≠ r'.id
  calls : ∀ q, ∃ done rest, s.enqueued q = done ++ rest
    ∧ callsOf s q = done.map (completed s q)
      ++ (if q ∈ s.xfer.destroyed then rest.map (cancelled q) else [])
    ∧ ∀ r ∈ done, (bytesOf s r.id).length = r.size
  collects : ∀ junk s', XferOk s (.complete junk) →
    xferStep s (.complete junk) = some s' →
      ∀ q ∈ s'.linked, ∃ done rest, s'.enqueued q = done ++ rest
        ∧ callsOf s' q = done.map (completed s' q)
        ∧ ∀ r ∈ rest.head?, (bytesOf s' r.id).length < r.size
  cancels : ∀ junk s', xferStep s (.doorbell junk) = some s' →
    ∀ q ∈ s.waiting, q ∈ s'.xfer.destroyed ∨ (q ∈ s'.waiting
      ∧ (s.xfer.host.qhns q).wasCancelled = 1
      ∧ (s'.xfer.host.qhns q).wasCancelled = 2)

end ProjectsLibs.Ehci
