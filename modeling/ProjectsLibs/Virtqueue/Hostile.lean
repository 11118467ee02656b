/-
A virtqueue on memory that a misbehaving peer writes to between the calls.

The functions of `virtqueue.c` that use an array are here with the bound
that the arrays have and the code does not check: an access outside of it
is a fault, and so is a loop that does not end. `Proofs/Hostile` shows that
without a fault they are the functions of `Basic`.

The system runs both endpoints. The peer of either may write anything, so
the endpoint that is looked at may be the only one of the two that follows
the rules.
-/
import Mathlib.Logic.Function.Iterate
import ProjectsLibs.Lib.Run
import ProjectsLibs.Virtqueue.System

namespace ProjectsLibs.Virtqueue

open Lib

-- ================================================================ faults

inductive Fault
  | bounds
  | endless
  deriving DecidableEq, Repr

/-- `desc_table[i]`, loaded. -/
def loadDesc (queueLen : Nat) (mem : Mem) (i : Nat) :
    Except Fault VringDesc :=
  if i < queueLen then .ok (mem.desc i) else .error .bounds

/-- `desc_table[i]`, stored. -/
def storeDesc (queueLen : Nat) (mem : Mem) (i : Nat) (d : VringDesc) :
    Except Fault Mem :=
  if i < queueLen then .ok { mem with desc := Function.update mem.desc i d }
  else .error .bounds

/-- `avail_ring->ring[i]`, loaded. -/
def loadAvail (queueLen : Nat) (mem : Mem) (i : Nat) : Except Fault Nat :=
  if i < queueLen then .ok (mem.avail.ring i) else .error .bounds

/-- `avail_ring->ring[i]`, stored. -/
def storeAvail (queueLen : Nat) (mem : Mem) (i v : Nat) :
    Except Fault Mem :=
  if i < queueLen then
    .ok { mem with avail := { mem.avail with
      ring := Function.update mem.avail.ring i v } }
  else .error .bounds

/-- `used_ring->ring[i]`, loaded. -/
def loadUsed (queueLen : Nat) (mem : Mem) (i : Nat) :
    Except Fault VringUsedElem :=
  if i < queueLen then .ok (mem.used.ring i) else .error .bounds

/-- `used_ring->ring[i]`, stored. -/
def storeUsed (queueLen : Nat) (mem : Mem) (i : Nat) (e : VringUsedElem) :
    Except Fault Mem :=
  if i < queueLen then
    .ok { mem with used := { mem.used with
      ring := Function.update mem.used.ring i e } }
  else .error .bounds

-- =========================================================== driver side

/-- `vq_add_desc`. -/
def addDesc (vq : Driver) (mem : Mem) (b : Buf) (prev : Nat) :
    Except Fault (Nat × Driver × Mem) := do
  let new := vq.freeDescHead
  if new = vq.queueLen then .ok (new, vq, mem)
  else
    let d ← loadDesc vq.queueLen mem new
    let vq := { vq with freeDescHead := d.next }
    let mem ← storeDesc vq.queueLen mem new
      ⟨b.addr, b.len, b.flag, u16 vq.queueLen⟩
    if prev < vq.queueLen then
      let d ← loadDesc vq.queueLen mem prev
      let mem ← storeDesc vq.queueLen mem prev { d with next := u16 new }
      .ok (new, vq, mem)
    else .ok (new, vq, mem)

/-- `vq_pop_desc`. -/
def popDesc (vq : Driver) (mem : Mem) (idx : Nat) :
    Except Fault (Nat × Buf × Driver × Mem) := do
  let d ← loadDesc vq.queueLen mem idx
  let mem ← storeDesc vq.queueLen mem idx
    { d with next := u16 vq.freeDescHead }
  .ok (d.next, d.buf, { vq with freeDescHead := idx }, mem)

/-- `virtqueue_add_available_buf`. -/
def addAvailableBuf (vq : Driver) (mem : Mem) (obj : RingObject)
    (b : Buf) : Except Fault (Nat × Driver × Mem × RingObject) := do
  let (idx, vq, mem) ← addDesc vq mem b obj.cur
  if idx = vq.queueLen then .ok (0, vq, mem, obj)
  else if vq.queueLen ≤ obj.first then
    let mem ← storeAvail vq.queueLen mem mem.avail.idx (u16 idx)
    .ok (1, vq,
      { mem with avail := { mem.avail with
        idx := u16 (u32 (mem.avail.idx + 1)
          &&& u32 (vq.queueLen + (2 ^ 32 - 1))) } },
      { cur := idx, first := idx })
  else .ok (1, vq, mem, { obj with cur := idx })

/-- `virtqueue_get_used_buf`. -/
def getUsedBuf (vq : Driver) (mem : Mem) :
    Except Fault (Option (Driver × RingObject × UInt32)) := do
  let next := u32 (vq.uRingLastSeen + 1)
    &&& u32 (vq.queueLen + (2 ^ 32 - 1))
  if next = mem.used.idx then .ok none
  else
    let e ← loadUsed vq.queueLen mem next
    .ok (some ({ vq with uRingLastSeen := next },
      { cur := e.id, first := e.id }, e.len))

/-- `virtqueue_gather_used`. -/
def gatherUsed (vq : Driver) (mem : Mem) (robj : RingObject) :
    Except Fault (Option (Buf × Driver × Mem × RingObject)) := do
  if vq.queueLen ≤ robj.cur then .ok none
  else
    let (next, b, vq, mem) ← popDesc vq mem robj.cur
    .ok (some (b, vq, mem, { robj with cur := next }))

-- =========================================================== device side

/-- `virtqueue_add_used_buf`. -/
def addUsedBuf (vq : Device) (mem : Mem) (robj : RingObject)
    (len : UInt32) : Except Fault Mem := do
  let cur := mem.used.idx
  let mem ← storeUsed vq.queueLen mem cur ⟨robj.first, len⟩
  .ok { mem with used := { mem.used with
    idx := u16 (u32 (cur + 1) &&& u32 (vq.queueLen + (2 ^ 32 - 1))) } }

/-- `virtqueue_get_available_buf`. -/
def getAvailableBuf (vq : Device) (mem : Mem) :
    Except Fault (Option (Device × RingObject)) := do
  let next := u32 (vq.aRingLastSeen + 1)
    &&& u32 (vq.queueLen + (2 ^ 32 - 1))
  if next = mem.avail.idx then .ok none
  else
    let id ← loadAvail vq.queueLen mem next
    .ok (some ({ vq with aRingLastSeen := next },
      { cur := id, first := id }))

/-- The loop of `virtqueue_scattered_available_size`. -/
def scatteredLoop (vq : Device) (mem : Mem) :
    Nat → Nat → UInt32 → Except Fault UInt32
  | 0, _, _ => .error .endless
  | fuel + 1, cur, ret =>
      if cur < vq.queueLen then do
        let d ← loadDesc vq.queueLen mem cur
        scatteredLoop vq mem fuel d.next (ret + d.len)
      else .ok ret

/-- `virtqueue_scattered_available_size`. A loop that has not ended after
`queue_len` iterations does not end (`scatteredLoop_endless`). -/
def scatteredAvailableSize (vq : Device) (mem : Mem) (robj : RingObject) :
    Except Fault UInt32 :=
  scatteredLoop vq mem (vq.queueLen + 1) robj.first 0

/-- `virtqueue_gather_available`. -/
def gatherAvailable (vq : Device) (mem : Mem) (robj : RingObject) :
    Except Fault (Option (Buf × RingObject)) := do
  if vq.queueLen ≤ robj.cur then .ok none
  else
    let d ← loadDesc vq.queueLen mem robj.cur
    .ok (some (d.buf, { robj with cur := d.next }))

-- ================================================================== runs

/-- The endpoints, the memory and the handles, of each with the descriptors
that were gathered since a call has set it. -/
structure Exposed where
  drv : Driver
  dev : Device
  mem : Mem
  handles : Nat → RingObject
  gathered : Nat → List Nat
  fault : Option Fault

/-- A call, or a peer that writes. -/
inductive HostileOp
  | peer (mem : Mem)
  | initHandle (h : Nat)
  | addAvail (h : Nat) (b : Buf)
  | getUsed (h : Nat)
  | gatherUsed (h : Nat)
  | getAvail (h : Nat)
  | gatherAvail (h : Nat)
  | size (h : Nat)
  | addUsed (h : Nat) (len : UInt32)

namespace Exposed

/-- A call sets a handle. -/
def setHandle (s : Exposed) (h : Nat) (obj : RingObject) : Exposed :=
  { s with
    handles := Function.update s.handles h obj
    gathered := Function.update s.gathered h [] }

/-- A call gathers from a handle. -/
def gather (s : Exposed) (h : Nat) (obj : RingObject) : Exposed :=
  { s with
    handles := Function.update s.handles h obj
    gathered := Function.update s.gathered h
      (s.gathered h ++ [(s.handles h).cur]) }

/-- A call that may fault. -/
def after {α : Type} (s : Exposed) (ok : α → Exposed) :
    Except Fault α → Exposed
  | .ok a => ok a
  | .error e => { s with fault := some e }

end Exposed

/-- One call. -/
def hostileStep (s : Exposed) (op : HostileOp) : Option Exposed :=
  if s.fault ≠ none then none
  else some (match op with
    | .peer mem => { s with mem := mem }
    | .initHandle h => s.setHandle h virtqueueInitRingObject
    | .addAvail h b =>
        s.after (fun (ret, drv, mem, obj) =>
          let s := { s with drv := drv, mem := mem }
          if ret = 0 then s else s.setHandle h obj)
        (addAvailableBuf s.drv s.mem (s.handles h) b)
    | .getUsed h =>
        s.after (fun
          | none => s
          | some (drv, obj, _) => { s with drv := drv }.setHandle h obj)
        (getUsedBuf s.drv s.mem)
    | .gatherUsed h =>
        s.after (fun
          | none => s
          | some (_, drv, mem, obj) =>
              { s with drv := drv, mem := mem }.gather h obj)
        (gatherUsed s.drv s.mem (s.handles h))
    | .getAvail h =>
        s.after (fun
          | none => s
          | some (dev, obj) => { s with dev := dev }.setHandle h obj)
        (getAvailableBuf s.dev s.mem)
    | .gatherAvail h =>
        s.after (fun
          | none => s
          | some (_, obj) => s.gather h obj)
        (gatherAvailable s.dev s.mem (s.handles h))
    | .size h =>
        s.after (fun _ => s)
        (scatteredAvailableSize s.dev s.mem (s.handles h))
    | .addUsed h len =>
        s.after (fun mem => { s with mem := mem })
        (addUsedBuf s.dev s.mem (s.handles h) len))

/-- A queue of length `queueLen` that was initialised, on memory that may
hold anything since. -/
structure HostileInit (queueLen : Nat) (s : Exposed) : Prop where
  drv : ∃ mem, s.drv = (virtqueueInitDriver queueLen mem).1
  dev : s.dev = virtqueueInitDevice queueLen
  handles : ∀ h, s.handles h = virtqueueInitRingObject
  gathered : ∀ h, s.gathered h = []
  fault : s.fault = none

-- =================================================== what is to be shown

/-- No call has left an array or gone on for ever, and no handle has
yielded more than `queueLen` buffers. -/
structure Tolerated (queueLen : Nat) (s : Exposed) : Prop where
  fault : s.fault = none
  gathered : ∀ h, (s.gathered h).length ≤ queueLen

/-- The `next` fields from `first` on lead out of the table. -/
def LeavesTable (queueLen : Nat) (mem : Mem) (first : Nat) : Prop :=
  ∃ n ≤ queueLen, queueLen ≤ Nat.iterate (nextOf mem.desc) n first

/-- The gathers of a handle do not come to a descriptor again. -/
def NoReturn (s : Exposed) (h : Nat) : Prop :=
  (s.handles h).cur ∉ s.gathered h

/-- What the code relies on in the memory that others write to. -/
def HostileOk (queueLen : Nat) (s : Exposed) : HostileOp → Prop
  | .addAvail h _ => s.drv.freeDescHead = queueLen
      ∨ s.drv.freeDescHead < queueLen
        ∧ (queueLen ≤ (s.handles h).first → s.mem.avail.idx < queueLen)
  | .gatherUsed h => NoReturn s h
  | .gatherAvail h => NoReturn s h
  | .size h => LeavesTable queueLen s.mem (s.handles h).first
  | .addUsed _ _ => s.mem.used.idx < queueLen
  | _ => True

instance (queueLen : Nat) (s : Exposed) :
    ∀ op, Decidable (HostileOk queueLen s op)
  | .peer _ | .initHandle _ | .getUsed _ | .getAvail _ =>
      inferInstanceAs (Decidable True)
  | .addAvail h _ => inferInstanceAs (Decidable
      (s.drv.freeDescHead = queueLen ∨ s.drv.freeDescHead < queueLen
        ∧ (queueLen ≤ (s.handles h).first → s.mem.avail.idx < queueLen)))
  | .gatherUsed h | .gatherAvail h =>
      inferInstanceAs (Decidable ((s.handles h).cur ∉ s.gathered h))
  | .size h => inferInstanceAs (Decidable
      (∃ n ≤ queueLen,
        queueLen ≤ Nat.iterate (nextOf s.mem.desc) n (s.handles h).first))
  | .addUsed _ _ => inferInstanceAs (Decidable (s.mem.used.idx < queueLen))

end ProjectsLibs.Virtqueue
