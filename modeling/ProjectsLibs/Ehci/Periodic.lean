/-
The periodic schedule of the EHCI driver (periodic.c): one list of queue
heads, shared by the 1024 entries of the frame list. An entry leads the
controller into the list, and from there on it follows the list to its
end.

`shadow_flist` has the queue heads that the entries of `flist` lead to.
It is allocated zeroed. The memory of a queue head that is removed is
freed and not looked at again.

# Two lists of links

The driver follows its own pointers when it looks for the place of a queue
head, and it updates two things besides: the word in each queue head that
leads the controller on, and the entry of each frame that the new queue
head is to be reached from. The frames are every `rate`-th one
(`frameIndices`). What is to be shown is stated of the words alone
(`HwLeads`): in each frame the controller gets to the queue heads that are
due there, and to the end of the list.

A walk has fuel of one more than the queue heads that are scheduled, so
one that goes on for longer is in a circle, and is a fault.
-/
import ProjectsLibs.Lib.Run
import ProjectsLibs.Ehci.Basic

namespace ProjectsLibs.Ehci

open Lib

-- =============================================================== state

/-- The part of `struct ehci_host` that the periodic schedule uses, and
the queue heads. `scheduled` is what was added and not removed, and
`crashed` is set when a null pointer was followed; the code has neither. -/
structure PeriodicHost where
  qhns : QhId → QHn
  tdns : TdId → TDn
  flist : Option (Nat → UInt32)
  shadowFlist : Nat → Option QhId
  intnList : Option QhId
  scheduled : List QhId
  crashed : Bool

/-- `edev->flist_size`. -/
def flistSize : Nat := 1024

namespace PeriodicHost

def setQh (s : PeriodicHost) (q : QhId) (f : QHn → QHn) : PeriodicHost :=
  { s with qhns := Function.update s.qhns q (f (s.qhns q)) }

section setQh

variable (s : PeriodicHost) (q : QhId) (f : QHn → QHn)

@[simp] theorem setQh_self : (s.setQh q f).qhns q = f (s.qhns q) :=
  Function.update_self ..

@[simp] theorem setQh_ne {m : QhId} (h : m ≠ q) :
    (s.setQh q f).qhns m = s.qhns m :=
  Function.update_of_ne h ..

@[simp] theorem setQh_intnList : (s.setQh q f).intnList = s.intnList := rfl

end setQh

/-- The software links. -/
def nextOf (s : PeriodicHost) (q : QhId) : Option QhId := (s.qhns q).next

/-- The link word for a pointer to a queue head. -/
def linkTo (s : PeriodicHost) : Option QhId → UInt32
  | none => linkInvalid
  | some q => qhLink (s.qhns q)

end PeriodicHost

-- =============================================================== adding

/-- The frame list, allocated with all frames disabled. -/
def allocFlist (s : PeriodicHost) : PeriodicHost :=
  match s.flist with
  | some _ => s
  | none => { s with
      flist := some fun _ => linkInvalid
      shadowFlist := fun _ => none }

/-- `while (cur) { if (cur == qhn) return; cur = cur->next; }`. -/
def isListed (next : QhId → Option QhId) (q : QhId) :
    Nat → Option QhId → Except Fault Bool
  | _, none => .ok false
  | 0, some _ => .error .endless
  | fuel + 1, some cur =>
      if cur = q then .ok true else isListed next q fuel (next cur)

/-- The loop that looks for the place of a queue head behind `cur`. -/
def findPlace (s : PeriodicHost) (fuel : Nat) (rate : Nat) (cur : QhId) :
    Except Fault QhId :=
  match walkWhile s.nextOf (fun m => rate ≤ (s.qhns m).rate) fuel cur with
  | none => .error .endless
  | some cur => .ok cur

/-- The queue head goes into the list. -/
def insertQhn (s : PeriodicHost) (fuel : Nat) (q : QhId) :
    Except Fault PeriodicHost :=
  let s := s.setQh q fun qhn => { qhn with qhlptr := linkInvalid }
  match s.intnList with
  | none =>
      .ok { s.setQh q (fun qhn => { qhn with next := none }) with
        intnList := some q }
  | some head => do
      let cur ← findPlace s fuel (s.qhns q).rate head
      let s := s.setQh q fun qhn => { qhn with next := s.nextOf cur }
      let s := s.setQh cur fun qhn => { qhn with next := some q }
      let s := s.setQh cur fun qhn => { qhn with qhlptr := qhLink (s.qhns q) }
      match s.nextOf q with
      | none => .ok s
      | some n => .ok (s.setQh q fun qhn => { qhn with
          qhlptr := qhLink (s.qhns n) })

/-- The frames `rate - 1`, `2 * rate - 1`, and so on. -/
def frameIndices (rate : Nat) : List Nat :=
  (List.range (flistSize / rate)).map fun k => rate - 1 + k * rate

/-- One frame of the loop that updates the frame list. -/
def addFrame (q : QhId) (s : PeriodicHost) (i : Nat) : PeriodicHost :=
  let replace := match s.shadowFlist i with
    | none => true
    | some cur => (s.qhns cur).rate < (s.qhns q).rate
  if replace then { s with
    shadowFlist := Function.update s.shadowFlist i (some q)
    flist := s.flist.map fun f => Function.update f i (qhLink (s.qhns q)) }
  else s

/-- `ehci_add_qhn_periodic`. -/
def ehciAddQhnPeriodic (fuel : Nat) (s : PeriodicHost) (q : QhId) :
    Except Fault PeriodicHost := do
  let s := allocFlist s
  if ← isListed s.nextOf q fuel s.intnList then .ok s
  else do
    let s ← insertQhn s fuel q
    .ok ((frameIndices (s.qhns q).rate).foldl (addFrame q) s)

-- ============================================================= removing

/-- The active bit is taken off the first descriptor. -/
def deactivate (s : PeriodicHost) (q : QhId) : Except Fault PeriodicHost :=
  match (s.qhns q).tdns with
  | none => .error .null
  | some t =>
      if (s.tdns t).td = false then .error .null
      else .ok { s with
        tdns := Function.update s.tdns t (s.tdns t).clearActive }

/-- The queue head leaves the list. -/
def unlinkQhn (s : PeriodicHost) (fuel : Nat) (q : QhId) :
    Except Fault PeriodicHost :=
  if s.intnList = some q then .ok { s with intnList := s.nextOf q }
  else
    match s.intnList with
    | none => .error .null
    | some head =>
        match walkWhile s.nextOf (fun m => m ≠ q) fuel head with
        | none => .error .endless
        | some cur =>
            let s := s.setQh cur fun qhn => { qhn with next := s.nextOf q }
            .ok (s.setQh cur fun qhn => { qhn with
              qhlptr := s.linkTo (s.nextOf q) })

/-- One frame of the loop that updates the frame list. -/
def delFrame (q : QhId) (s : PeriodicHost) (i : Nat) : PeriodicHost :=
  if s.shadowFlist i = some q then { s with
    shadowFlist := Function.update s.shadowFlist i (s.nextOf q)
    flist := s.flist.map fun f => Function.update f i (s.qhns q).qhlptr }
  else s

/-- `ehci_del_qhn_periodic`. -/
def ehciDelQhnPeriodic (fuel : Nat) (s : PeriodicHost) (q : QhId) :
    Except Fault PeriodicHost := do
  let s ← deactivate s q
  let s ← unlinkQhn s fuel q
  .ok ((frameIndices (s.qhns q).rate).foldl (delFrame q) s)

-- =============================================================== in use

/-- What happens to the schedule. -/
inductive PeriodicOp
  | add (q : QhId)
  | del (q : QhId)
  deriving DecidableEq, Repr

/-- A queue head as `qhn_alloc` and `ehci_schedule_xact` leave it: its
descriptor is aligned and no other's, and the rate is a power of two. -/
structure Allocated (s : PeriodicHost) (q : QhId) : Prop where
  aligned : (s.qhns q).pqh &&& 31 = 0
  own : ∀ m ∈ s.scheduled, (s.qhns m).pqh ≠ (s.qhns q).pqh
  rate : (s.qhns q).rate ∈ (List.range 11).map (2 ^ ·)

instance (s : PeriodicHost) (q : QhId) : Decidable (Allocated s q) :=
  decidable_of_iff ((s.qhns q).pqh &&& 31 = 0
      ∧ (∀ m ∈ s.scheduled, (s.qhns m).pqh ≠ (s.qhns q).pqh)
      ∧ (s.qhns q).rate ∈ (List.range 11).map (2 ^ ·))
    ⟨fun h => ⟨h.1, h.2.1, h.2.2⟩, fun h => ⟨h.1, h.2, h.3⟩⟩

/-- The outcome of a call, with what is scheduled after it. -/
def outcome (s : PeriodicHost) (scheduled : List QhId) :
    Except Fault PeriodicHost → PeriodicHost
  | .ok s' => { s' with scheduled := scheduled }
  | .error _ => { s with crashed := true }

/-- The length of the walks that are looked at: one that goes on for more
queue heads than there are goes on for ever. -/
def fuelOf (s : PeriodicHost) : Nat := s.scheduled.length + 1

/-- One call: of a queue head that is scheduled, or of a new one. -/
def periodicStep (s : PeriodicHost) : PeriodicOp → Option PeriodicHost
  | .add q =>
      if s.crashed = true then none
      else if q ∈ s.scheduled then
        some (outcome s s.scheduled (ehciAddQhnPeriodic (fuelOf s) s q))
      else if Allocated s q then
        some (outcome s (q :: s.scheduled)
          (ehciAddQhnPeriodic (fuelOf s) s q))
      else none
  | .del q =>
      if s.crashed = false ∧ q ∈ s.scheduled then
        some (outcome s (s.scheduled.erase q)
          (ehciDelQhnPeriodic (fuelOf s) s q))
      else none

/-- The host as `ehci_host_init` leaves it. -/
structure PeriodicInit (s : PeriodicHost) : Prop where
  flist : s.flist = none
  intnList : s.intnList = none
  scheduled : s.scheduled = []
  crashed : s.crashed = false

-- ==================================================== what is to be shown

/-- The controller follows the links from the word `w` through `l` to a
terminate bit. -/
def HwLeads (s : PeriodicHost) : UInt32 → List QhId → Prop
  | w, [] => w &&& linkInvalid ≠ 0
  | w, q :: l => w &&& linkInvalid = 0 ∧ q ∈ s.scheduled
      ∧ w &&& ~~~(31 : UInt32) = (s.qhns q).pqh
      ∧ HwLeads s (s.qhns q).qhlptr l

/-- The schedule is exact: nothing has crashed, and in every frame `i`
the controller reaches the queue heads whose rate divides `i + 1`, each
once. -/
structure ScheduleExact (s : PeriodicHost) : Prop where
  running : s.crashed = false
  empty : s.flist = none → s.scheduled = []
  frames : ∀ f, s.flist = some f → ∀ i < flistSize, ∃ l,
    HwLeads s (f i) l ∧ l.Nodup
      ∧ ∀ q, q ∈ l ↔ q ∈ s.scheduled ∧ (s.qhns q).rate ∣ i + 1

/-- The condition under which a call keeps the schedule exact: a queue
head that is added has no higher rate than the first of the list, and one
that is removed has a descriptor, with its `struct TD`. -/
def PeriodicOk (s : PeriodicHost) : PeriodicOp → Prop
  | .add q => q ∉ s.scheduled → ∀ h, s.intnList = some h →
      (s.qhns q).rate ≤ (s.qhns h).rate
  | .del q => ∃ t ∈ (s.qhns q).tdns, (s.tdns t).td = true

instance : ∀ (s : PeriodicHost) (op : PeriodicOp), Decidable (PeriodicOk s op)
  | s, .add q => inferInstanceAs (Decidable (q ∉ s.scheduled →
      ∀ h ∈ s.intnList, (s.qhns q).rate ≤ (s.qhns h).rate))
  | s, .del q => inferInstanceAs (Decidable (∃ t ∈ (s.qhns q).tdns,
      (s.tdns t).td = true))

end ProjectsLibs.Ehci
