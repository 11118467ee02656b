/-
The libvirtqueue code: the two rings, the descriptor table and the two
endpoint records, with every function of `virtqueue.c`.

# Data

- The descriptor table and the rings are the shared memory `Mem`. The
  arrays are maps from the index, since a C array access does not check
  its bound; the driver and device records hold the rest.
- `addr` and `len` are carried unchanged, so they are machine words of
  their own width. The 16-bit fields `next`, `idx` and the entries of
  the available ring are naturals cut with `u16` at each store, and the
  32-bit handle fields are cut with `u32`.
- The enum `vq_flags_t` is stored in a 16-bit field and read back; its
  three values survive that, so the field has the enum's type.
- `notify`, `cookie` and the two `ZF_LOGE` lines of the init functions
  have no effect on this state and are left out.

# Results

A function that returns an `int` and writes through pointers returns
the number with everything it may write. Where the C code returns 0
before its first store and its caller can only look at the result, the
whole result is an `Option`: `none` is the return value 0.
-/
import Mathlib.Algebra.Ring.Nat
import Mathlib.Logic.Function.Basic

namespace ProjectsLibs.Virtqueue

/-- Conversion to `uint16_t`. -/
def u16 (n : Nat) : Nat := n % 2 ^ 16

/-- Conversion to `uint32_t` (`unsigned`). -/
def u32 (n : Nat) : Nat := n % 2 ^ 32

-- ================================================================ data

/-- `vq_flags_t`. -/
inductive VqFlags
  | read
  | write
  | rw
  deriving DecidableEq, Repr

/-- `vq_vring_desc_t`: one entry of the descriptor table. -/
structure VringDesc where
  addr : UInt64
  len : UInt32
  flags : VqFlags
  next : Nat
  deriving DecidableEq, Repr

/-- `vq_vring_avail_t`: the ring of available chains. -/
structure VringAvail where
  flags : Nat
  idx : Nat
  ring : Nat → Nat

/-- `vq_vring_used_elem_t`. -/
structure VringUsedElem where
  id : Nat
  len : UInt32
  deriving DecidableEq, Repr

/-- `vq_vring_used_t`: the ring of used chains. -/
structure VringUsed where
  flags : Nat
  idx : Nat
  ring : Nat → VringUsedElem

/-- The memory both sides share. -/
structure Mem where
  desc : Nat → VringDesc
  avail : VringAvail
  used : VringUsed

/-- `virtqueue_ring_object_t`: the handle of a scatter list. -/
structure RingObject where
  cur : Nat
  first : Nat
  deriving DecidableEq, Repr

/-- `virtqueue_driver_t`, less the pointers into `Mem`. -/
structure Driver where
  queueLen : Nat
  freeDescHead : Nat
  uRingLastSeen : Nat
  deriving DecidableEq, Repr

/-- `virtqueue_device_t`, less the pointers into `Mem`. -/
structure Device where
  queueLen : Nat
  aRingLastSeen : Nat
  deriving DecidableEq, Repr

/-- One buffer of a scatter list, as the callers pass and get it. -/
structure Buf where
  addr : UInt64
  len : UInt32
  flag : VqFlags
  deriving DecidableEq, Repr

/-- The buffer a descriptor describes. -/
def VringDesc.buf (d : VringDesc) : Buf := ⟨d.addr, d.len, d.flags⟩

/-- The `next` fields of a descriptor table. -/
def nextOf (desc : Nat → VringDesc) (i : Nat) : Nat := (desc i).next

-- ====================================================== initialisation

/-- The loop of `virtqueue_init_desc_table`, from index `i` on. -/
def initDescLoop (table : Nat → VringDesc) (i : Nat) :
    Nat → Nat → VringDesc
  | 0 => table
  | n + 1 =>
      initDescLoop
        (Function.update table i ⟨0, 0, .read, u16 (i + 1)⟩) (i + 1) n

/-- `virtqueue_init_desc_table`: every descriptor free, linked to its
neighbour. -/
def virtqueueInitDescTable (table : Nat → VringDesc) (queueLen : Nat) :
    Nat → VringDesc :=
  initDescLoop table 0 queueLen

/-- `virtqueue_init_avail_ring`. -/
def virtqueueInitAvailRing (ring : VringAvail) : VringAvail :=
  { ring with flags := 0, idx := 0 }

/-- `virtqueue_init_used_ring`. -/
def virtqueueInitUsedRing (ring : VringUsed) : VringUsed :=
  { ring with flags := 0, idx := 0 }

/-- `virtqueue_init_driver`: also initialises the shared memory. -/
def virtqueueInitDriver (queueLen : Nat) (mem : Mem) : Driver × Mem :=
  ({ queueLen := queueLen
     freeDescHead := 0
     uRingLastSeen := u32 (queueLen + (2 ^ 32 - 1)) },
   { desc := virtqueueInitDescTable mem.desc queueLen
     avail := virtqueueInitAvailRing mem.avail
     used := virtqueueInitUsedRing mem.used })

/-- `virtqueue_init_device`. -/
def virtqueueInitDevice (queueLen : Nat) : Device :=
  { queueLen := queueLen
    aRingLastSeen := u32 (queueLen + (2 ^ 32 - 1)) }

/-- `virtqueue_init_ring_object`. -/
def virtqueueInitRingObject : RingObject :=
  { cur := 2 ^ 32 - 1, first := 2 ^ 32 - 1 }

-- ========================================================= driver side

/-- `vq_add_desc`: take the head of the free list for a new buffer and
link it behind `prev`. The result is `queueLen` when no descriptor is
free. The handle's `cur` reaches `prev` as an `int` and is compared as
an `unsigned` again, which gives its 32-bit value back. -/
def vqAddDesc (vq : Driver) (mem : Mem) (b : Buf) (prev : Nat) :
    Nat × Driver × Mem :=
  let new := vq.freeDescHead
  if new = vq.queueLen then (new, vq, mem)
  else
    let desc := Function.update mem.desc new
      ⟨b.addr, b.len, b.flag, u16 vq.queueLen⟩
    let desc' :=
      if prev < vq.queueLen then
        Function.update desc prev { desc prev with next := u16 new }
      else desc
    (new, { vq with freeDescHead := (mem.desc new).next },
      { mem with desc := desc' })

/-- `vq_pop_desc`: push descriptor `idx` on the free list and return
its buffer and its successor. -/
def vqPopDesc (vq : Driver) (mem : Mem) (idx : Nat) :
    Nat × Buf × Driver × Mem :=
  ((mem.desc idx).next, (mem.desc idx).buf,
   { vq with freeDescHead := idx },
   { mem with
     desc := Function.update mem.desc idx
       ({ mem.desc idx with next := u16 vq.freeDescHead }) })

/-- `virtqueue_add_available_buf`: chain a buffer to the handle, and
open a ring entry when it is the handle's first. -/
def virtqueueAddAvailableBuf (vq : Driver) (mem : Mem)
    (obj : RingObject) (b : Buf) : Nat × Driver × Mem × RingObject :=
  match vqAddDesc vq mem b obj.cur with
  | (idx, vq', mem') =>
      if idx = vq'.queueLen then (0, vq', mem', obj)
      else if vq'.queueLen ≤ obj.first then
        let avail :=
          { mem'.avail with
            ring := Function.update mem'.avail.ring mem'.avail.idx
              (u16 idx)
            idx := u16 (u32 (mem'.avail.idx + 1)
              &&& u32 (vq'.queueLen + (2 ^ 32 - 1))) }
        (1, vq', { mem' with avail := avail },
          { cur := idx, first := idx })
      else (1, vq', mem', { obj with cur := idx })

/-- `virtqueue_get_used_buf`: the next used chain and the length the
device wrote, or `none` when the ring looks empty. -/
def virtqueueGetUsedBuf (vq : Driver) (mem : Mem) :
    Option (Driver × RingObject × UInt32) :=
  let next := u32 (vq.uRingLastSeen + 1)
    &&& u32 (vq.queueLen + (2 ^ 32 - 1))
  if next = mem.used.idx then none
  else
    some ({ vq with uRingLastSeen := next },
      { cur := (mem.used.ring next).id, first := (mem.used.ring next).id },
      (mem.used.ring next).len)

/-- `virtqueue_gather_used`: reap the next buffer of a used chain, or
`none` at its end. -/
def virtqueueGatherUsed (vq : Driver) (mem : Mem) (robj : RingObject) :
    Option (Buf × Driver × Mem × RingObject) :=
  if vq.queueLen ≤ robj.cur then none
  else
    match vqPopDesc vq mem robj.cur with
    | (next, b, vq', mem') =>
        some (b, vq', mem', { robj with cur := next })

-- ========================================================= device side

/-- `virtqueue_add_used_buf`: put a chain in the used ring (the C
function always returns 1). -/
def virtqueueAddUsedBuf (vq : Device) (mem : Mem) (robj : RingObject)
    (len : UInt32) : Mem :=
  let cur := mem.used.idx
  { mem with
    used := { mem.used with
      ring := Function.update mem.used.ring cur ⟨robj.first, len⟩
      idx := u16 (u32 (cur + 1) &&& u32 (vq.queueLen + (2 ^ 32 - 1))) } }

/-- `virtqueue_get_available_buf`: the next available chain, or `none`
when the ring looks empty. -/
def virtqueueGetAvailableBuf (vq : Device) (mem : Mem) :
    Option (Device × RingObject) :=
  let next := u32 (vq.aRingLastSeen + 1)
    &&& u32 (vq.queueLen + (2 ^ 32 - 1))
  if next = mem.avail.idx then none
  else
    some ({ vq with aRingLastSeen := next },
      { cur := mem.avail.ring next, first := mem.avail.ring next })

/-- The `while` loop of `virtqueue_scattered_available_size`, with the
number of iterations it may take (`none` when they run out). -/
def scatteredSizeLoop (vq : Device) (mem : Mem) :
    Nat → Nat → UInt32 → Option UInt32
  | 0, _, _ => none
  | fuel + 1, cur, ret =>
      if cur < vq.queueLen then
        scatteredSizeLoop vq mem fuel (mem.desc cur).next
          (ret + (mem.desc cur).len)
      else some ret

/-- `virtqueue_scattered_available_size`. -/
def virtqueueScatteredAvailableSize (fuel : Nat) (vq : Device)
    (mem : Mem) (robj : RingObject) : Option UInt32 :=
  scatteredSizeLoop vq mem fuel robj.first 0

/-- `virtqueue_gather_available`: the next buffer of an available
chain, or `none` at its end. -/
def virtqueueGatherAvailable (vq : Device) (mem : Mem)
    (robj : RingObject) : Option (Buf × RingObject) :=
  if vq.queueLen ≤ robj.cur then none
  else
    some ((mem.desc robj.cur).buf,
      { robj with cur := (mem.desc robj.cur).next })

end ProjectsLibs.Virtqueue
