/-
The doorbell in use: queue heads are added and removed, the controller
answers the doorbell, and the driver's handler calls `check_doorbell`.
`RecycledOnce` is what the recycling is for.

A queue head is added with the descriptors that it is removed with: what
happens to them in between is not looked at here.

# What is counted

A queue head that is removed may still be in use by the controller. The
driver rings the doorbell, and only the second answer after the removal
says that the controller is done with it: the first may belong to a
doorbell that was rung before. The state of a run therefore has, for each
queue head that was removed, how many calls of `check_doorbell` there
have been since, and `RecycledOnce` compares this number with the list,
the memory and the callbacks. What is left in memory that is freed is
given with each step, since the driver reads links that are in such
memory.
-/
import ProjectsLibs.Ehci.Transfers

namespace ProjectsLibs.Ehci

open Lib

/-- The driver, the queue heads that are linked, those that were removed
with the number of calls of `check_doorbell` since then, the descriptors
of each, and whether the controller has answered. -/
structure BellHost where
  xfer : Xfer
  linked : List QhId
  cancelled : List (QhId × Nat)
  tds : QhId → List TdId
  answered : Bool
  crashed : Bool

inductive BellOp
  | add (q : QhId)
  | del (q : QhId)
  | answer
  | doorbell (junk : Junk)

/-- The queue heads that wait: fewer than two calls were made. -/
def pendingOf (s : BellHost) : List QhId :=
  (s.cancelled.filter fun c => c.2 < 2).map Prod.fst

/-- All queue heads there have been. -/
def everOf (s : BellHost) : List QhId :=
  s.linked ++ s.cancelled.map Prod.fst

/-- The length of the walks that are looked at: one that goes on for
longer goes on for ever. -/
def bellFuel (s : BellHost) : Nat :=
  (everOf s).length + ((everOf s).flatMap s.tds).length + 1

/-- The doorbell is rung. -/
def isRung (host : AsyncHost) : Bool := testBit host.usbcmd ehcicmdAsyncDb

def bellOutcome (s : BellHost) (ok : BellHost → BellHost) :
    Except Fault Xfer → BellHost
  | .ok xfer => ok { s with xfer := xfer }
  | .error _ => { s with crashed := true }

/-- A queue head that can be added: it is new, `alist_tail` points to no
queue head that was removed, and it has descriptors of its own. -/
def Addable (s : BellHost) (q : QhId) : Prop :=
  q ∉ everOf s ∧ (∀ t ∈ s.xfer.host.alistTail, t ∈ s.linked)
    ∧ Leads s.xfer.host.nextTd (s.xfer.host.qhns q).tdns (s.tds q) none
    ∧ Mapped s.xfer.host.tdns (s.tds q)
    ∧ ∀ m ∈ everOf s, ∀ t ∈ s.tds q, t ∉ s.tds m

instance (s : BellHost) (q : QhId) : Decidable (Addable s q) :=
  inferInstanceAs (Decidable (_ ∧ _ ∧ _ ∧ _ ∧ _))

/-- One step. The handler is called once for each answer. -/
def bellStep (s : BellHost) : BellOp → Option BellHost
  | .add q =>
      if s.crashed = false ∧ Addable s q then
        some { s with
          xfer := { s.xfer with host := ehciAddQhnAsync s.xfer.host q }
          linked := q :: s.linked }
      else none
  | .del q =>
      if s.crashed = false ∧ q ∈ s.linked then
        some (bellOutcome s
          (fun s => { s with
            linked := s.linked.erase q
            cancelled := s.cancelled ++ [(q, 0)] })
          ((ehciDelQhnAsync (bellFuel s) s.xfer.host q).map
            fun host => { s.xfer with host := host }))
      else none
  | .answer =>
      if isRung s.xfer.host = true then
        some { s with
          xfer := { s.xfer with host := { s.xfer.host with
            usbcmd := s.xfer.host.usbcmd &&& ~~~mask ehcicmdAsyncDb } }
          answered := true }
      else none
  | .doorbell junk =>
      if s.crashed = false ∧ s.answered = true then
        some (bellOutcome s
          (fun s => { s with
            cancelled := s.cancelled.map fun c => (c.1, c.2 + 1)
            answered := false })
          (checkDoorbell junk (bellFuel s) s.xfer))
      else none

structure BellInit (s : BellHost) : Prop where
  alistTail : s.xfer.host.alistTail = none
  dbPending : s.xfer.host.dbPending = none
  destroyed : s.xfer.destroyed = []
  linked : s.linked = []
  cancelled : s.cancelled = []
  answered : s.answered = false
  crashed : s.crashed = false

/-- A queue head that was removed is destroyed once, by the second call
after that; until then it is on the list from `db_pending`, which has no
others. The doorbell is rung again exactly if one still waits. -/
structure RecycledOnce (s : BellHost) : Prop where
  running : s.crashed = false
  distinct : (s.cancelled.map Prod.fst).Nodup
  destroyed : s.xfer.destroyed
    = (s.cancelled.filter fun c => 2 ≤ c.2).map Prod.fst
  pending : Leads s.xfer.host.nextOf s.xfer.host.dbPending (pendingOf s) none
  apart : ∀ q ∈ pendingOf s, q ∉ s.xfer.destroyed
  rings : ∀ junk s', bellStep s (.doorbell junk) = some s' →
    (isRung s'.xfer.host = true ↔ pendingOf s' ≠ [])

end ProjectsLibs.Ehci
