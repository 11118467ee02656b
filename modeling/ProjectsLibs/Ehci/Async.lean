/-
The asynchronous schedule of the EHCI driver (async.c): a ring of queue
heads that `alist_tail` points into. The software links of the ring are
mirrored by the link words that the controller follows. A queue head that
is removed goes to the list `db_pending`, where it waits for the
controller to answer the doorbell.

# The ring in use

`alist_tail` points at the tail, and the link of the tail at the head.
The list of the controller has the same order; one queue head in it is
marked as its head by the H-bit. The run of the ring alone is in this
module: queue heads are added and removed, and the transfer descriptors
they have may change in between, in any way that leaves each queue head
with a list. What the driver does when the last one is removed is not
what it should, which is why a condition comes with the statement
(`RingOk`).

Walks over lists are bounded by fuel, and a run counts one that would go
on for longer as one that does not end.
-/
import ProjectsLibs.Lib.Run
import ProjectsLibs.Ehci.Basic

namespace ProjectsLibs.Ehci

open Lib

-- ================================================================ state

/-- The part of `struct ehci_host` that the asynchronous schedule uses,
the queue heads and the transfer descriptors. -/
structure AsyncHost where
  qhns : QhId → QHn
  tdns : TdId → TDn
  alistTail : Option QhId
  dbPending : Option QhId
  usbcmd : UInt32

/-- `EHCICMD_ASYNC_DB`. -/
def ehcicmdAsyncDb : Nat := 6

/-- `QHEPC0_H`. -/
def qhepc0H : Nat := 15

namespace AsyncHost

def setQh (s : AsyncHost) (q : QhId) (f : QHn → QHn) : AsyncHost :=
  { s with qhns := Function.update s.qhns q (f (s.qhns q)) }

section setQh

variable (s : AsyncHost) (q : QhId) (f : QHn → QHn)

@[simp] theorem setQh_self : (s.setQh q f).qhns q = f (s.qhns q) :=
  Function.update_self ..

@[simp] theorem setQh_ne {m : QhId} (h : m ≠ q) :
    (s.setQh q f).qhns m = s.qhns m :=
  Function.update_of_ne h ..

@[simp] theorem setQh_alistTail : (s.setQh q f).alistTail = s.alistTail :=
  rfl

@[simp] theorem setQh_dbPending : (s.setQh q f).dbPending = s.dbPending :=
  rfl

end setQh

/-- The software links of the queue heads. -/
def nextOf (s : AsyncHost) (q : QhId) : Option QhId := (s.qhns q).next

/-- The links of the transfer descriptors. -/
def nextTd (s : AsyncHost) (t : TdId) : Option TdId := (s.tdns t).next

end AsyncHost

-- =============================================================== adding

/-- `ehci_add_qhn_async`. -/
def ehciAddQhnAsync (s : AsyncHost) (q : QhId) : AsyncHost :=
  match s.alistTail with
  | some tail =>
      -- the hardware queue
      let s := s.setQh q fun qhn => { qhn with
        qhlptr := (s.qhns tail).qhlptr }
      let s := s.setQh tail fun qhn => { qhn with
        qhlptr := qhLink (s.qhns q) }
      -- the software queue
      let s := s.setQh q fun qhn => { qhn with next := s.nextOf tail }
      let s := s.setQh tail fun qhn => { qhn with next := some q }
      { s with alistTail := some q }
  | none =>
      let s := { s with alistTail := some q }
      let s := s.setQh q fun qhn => { qhn with next := some q }
      s.setQh q fun qhn => { qhn with qhlptr := qhLink qhn }

-- ============================================================= removing

/-- `token &= ~TDTOK_SACTIVE; token |= TDTOK_SHALTED`, of an active
descriptor. -/
def TDn.halt (tdn : TDn) : TDn :=
  if tdn.token &&& mask tdtokSactive ≠ 0 then
    { tdn.clearActive with
      token := tdn.clearActive.token ||| mask tdtokShalted }
  else tdn

/-- The loop that deactivates the descriptors. -/
def haltTds : Nat → Option TdId → (TdId → TDn) →
    Except Fault (TdId → TDn)
  | _, none, tdns => .ok tdns
  | 0, some _, _ => .error .endless
  | fuel + 1, some t, tdns =>
      if (tdns t).td = false then .error .null
      else haltTds fuel (tdns t).next (Function.update tdns t (tdns t).halt)

/-- Another queue head gets the H-bit. -/
def moveHBit (s : AsyncHost) (q : QhId) : AsyncHost :=
  if (s.qhns q).epc0 &&& mask qhepc0H ≠ 0 then
    match s.nextOf q with
    | none => s
    | some n => s.setQh n fun qhn => { qhn with
        epc0 := qhn.epc0 ||| mask qhepc0H }
  else s

/-- The queue head leaves the ring. The search follows a null pointer if
it comes to one. -/
def unlinkAsync (fuel : Nat) (s : AsyncHost) (q : QhId) :
    Except Fault AsyncHost :=
  match s.alistTail with
  | none => .error .null
  | some tail =>
      match walkWhile s.nextOf (fun m => m ≠ q) fuel tail with
      | none => .error .endless
      | some prev =>
          if s.nextOf prev = none then .error .null
          else
            let s := s.setQh prev fun qhn => { qhn with
              qhlptr := (s.qhns q).qhlptr }
            let s := s.setQh prev fun qhn => { qhn with
              next := s.nextOf q }
            .ok (if s.alistTail = some q
              then { s with alistTail := s.nextOf q } else s)

/-- The queue head goes to the end of `db_pending`. -/
def appendPending (fuel : Nat) (s : AsyncHost) (q : QhId) :
    Except Fault AsyncHost :=
  match s.dbPending with
  | none => .ok { s with dbPending := some q }
  | some first =>
      match walkWhile s.nextOf (fun _ => true) fuel first with
      | none => .error .endless
      | some prev => .ok (s.setQh prev fun qhn => { qhn with
          next := some q })

/-- `ehci_del_qhn_async`. -/
def ehciDelQhnAsync (fuel : Nat) (s : AsyncHost) (q : QhId) :
    Except Fault AsyncHost := do
  let tdns ← haltTds fuel (s.qhns q).tdns s.tdns
  let s := moveHBit { s with tdns := tdns } q
  let s ← unlinkAsync fuel s q
  let s ← appendPending fuel s q
  let s := s.setQh q fun qhn => { qhn with next := none }
  let s := s.setQh q fun qhn => { qhn with wasCancelled := 1 }
  .ok { s with usbcmd := s.usbcmd ||| mask ehcicmdAsyncDb }

-- =============================================================== in use

/-- The ring in use. `linked` has the queue heads that were added and not
removed, `removed` those that were, and `tds` the descriptors of each; the
code has neither, nor `crashed`. -/
structure RingHost where
  host : AsyncHost
  linked : List QhId
  removed : List QhId
  tds : QhId → List TdId
  crashed : Bool

/-- What happens to the ring: calls, and traffic that gives a queue head
other descriptors. -/
inductive RingOp
  | add (q : QhId)
  | del (q : QhId)
  | traffic (q : QhId) (first : Option TdId) (tdns : TdId → TDn)
      (l : List TdId)

/-- The descriptors have their `struct TD`, as `qtd_alloc` leaves them. -/
def Mapped (tdns : TdId → TDn) (l : List TdId) : Prop :=
  ∀ t ∈ l, (tdns t).td = true

instance (tdns : TdId → TDn) (l : List TdId) : Decidable (Mapped tdns l) :=
  inferInstanceAs (Decidable (∀ t ∈ l, (tdns t).td = true))

/-- The descriptors of a queue head are those of `tds`. -/
def HasTds (s : RingHost) (q : QhId) : Prop :=
  Leads s.host.nextTd (s.host.qhns q).tdns (s.tds q) none
    ∧ Mapped s.host.tdns (s.tds q)

instance (s : RingHost) (q : QhId) : Decidable (HasTds s q) :=
  inferInstanceAs (Decidable (_ ∧ _))

/-- The host after traffic. -/
def changeTds (s : RingHost) (q : QhId) (first : Option TdId)
    (tdns : TdId → TDn) (l : List TdId) : RingHost :=
  { s with
    host := { s.host.setQh q (fun qhn => { qhn with tdns := first }) with
      tdns := tdns }
    tds := Function.update s.tds q l }

/-- The length of the walks that are looked at: one that goes on for
longer goes on for ever. -/
def ringFuel (s : RingHost) (q : QhId) : Nat :=
  s.linked.length + s.removed.length + (s.tds q).length + 1

/-- The ring after a call of `ehci_del_qhn_async`. -/
def delOutcome (s : RingHost) (q : QhId) :
    Except Fault AsyncHost → RingHost
  | .ok host => { s with
      host := host
      linked := s.linked.erase q
      removed := s.removed ++ [q] }
  | .error _ => { s with crashed := true }

/-- One call, of a fresh queue head or of one that is linked, or traffic
that leaves every queue head with a list of descriptors. -/
def ringStep (s : RingHost) : RingOp → Option RingHost
  | .add q =>
      if s.crashed = false ∧ q ∉ s.linked ∧ q ∉ s.removed
        ∧ HasTds s q then
        some { s with
          host := ehciAddQhnAsync s.host q
          linked := q :: s.linked }
      else none
  | .del q =>
      if s.crashed = false ∧ q ∈ s.linked then
        some (delOutcome s q (ehciDelQhnAsync (ringFuel s q) s.host q))
      else none
  | .traffic q first tdns l =>
      if ∀ m ∈ s.linked, HasTds (changeTds s q first tdns l) m then
        some (changeTds s q first tdns l)
      else none

/-- The host as `ehci_host_init` leaves it. -/
structure RingInit (s : RingHost) : Prop where
  alistTail : s.host.alistTail = none
  dbPending : s.host.dbPending = none
  linked : s.linked = []
  removed : s.removed = []
  crashed : s.crashed = false

-- ================================================== what is to be shown

/-- The queue heads that are reached from `alist_tail`. -/
inductive Reaches (s : AsyncHost) : QhId → Prop
  | tail {q : QhId} : s.alistTail = some q → Reaches s q
  | next {m q : QhId} : Reaches s m → s.nextOf m = some q → Reaches s q

/-- The ring is exact. -/
structure RingExact (s : RingHost) : Prop where
  running : s.crashed = false
  empty : s.host.alistTail = none ↔ s.linked = []
  around : ∀ t, s.host.alistTail = some t →
    ∃ l, Leads s.host.nextOf (some t) (t :: l) (some t)
      ∧ (t :: l).Nodup ∧ ∀ q, q ∈ t :: l ↔ q ∈ s.linked
  links : ∀ q ∈ s.linked, ∃ n, s.host.nextOf q = some n
    ∧ (s.host.qhns q).qhlptr = qhLink (s.host.qhns n)
  gone : ∀ q ∈ s.removed, ¬Reaches s.host q

/-- The condition under which a call keeps the ring exact: a queue head
that is removed is not the only one. -/
def RingOk (s : RingHost) : RingOp → Prop
  | .del q => ∃ m ∈ s.linked, m ≠ q
  | _ => True

instance : ∀ (s : RingHost) (op : RingOp), Decidable (RingOk s op)
  | s, .del q => inferInstanceAs (Decidable (∃ m ∈ s.linked, m ≠ q))
  | _, .add _ => inferInstanceAs (Decidable True)
  | _, .traffic .. => inferInstanceAs (Decidable True)

end ProjectsLibs.Ehci
