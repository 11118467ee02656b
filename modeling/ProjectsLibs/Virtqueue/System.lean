/-
The two clients of one virtqueue, run against each other: the driver
builds chains, publishes and reaps them, the device takes and returns
them. The steps are whole API calls in any order; what the README's use
case asks of the clients is the guard of each step.

# What the clients may do

A chain is built through one handle that starts from
`virtqueue_init_ring_object`. Chains are numbered by the driver's
handles, of which there is no end, so a handle that is initialised
again is a new number. The guards are:

- `addAvail`: the chain's reaping has not begun;
- `gatherAvail`, `addUsed`: the device holds the chain's handle, and
  returns it at most once;
- `gatherUsed`: the driver got the chain back. The handle is one object
  that is never copied, so reaping it twice is not expressible, and
  calls after its end are allowed.

The device may go on gathering a handle it has returned: the call only
reads. Its results say nothing then, so `devLog` stops at the return.

# History

Besides the code's state the system records what the calls returned, in
order: the heads published and taken, the pairs put in the used ring
and taken from it, and per chain the buffers added, the results of the
two iterations and the descriptors pushed on the free list. No step
reads this record except the guards. The handle of the `n`-th
successful get belongs to the `n`-th publication; that its head is that
chain's head is a theorem (`rings_fifo`), not part of the definition.
-/
import ProjectsLibs.Lib.Run
import ProjectsLibs.Virtqueue.Basic

namespace ProjectsLibs.Virtqueue

open Lib

-- =============================================================== state

/-- One chain: the three handles the clients have of it and the record
of the calls made with them. -/
structure Chain where
  /-- the driver's building handle -/
  obj : RingObject := virtqueueInitRingObject
  /-- the buffers of the successful `add_available_buf` calls -/
  bufs : List Buf := []
  /-- the descriptors these calls took -/
  idxs : List Nat := []
  /-- the device's handle, once it has one -/
  dev : Option RingObject := none
  /-- `bufs` when the device got the handle -/
  atGet : List Buf := []
  /-- `bufs` at the device's get, or its last successful gather -/
  linked : List Buf := []
  /-- results of the device's gathers, up to the return -/
  devLog : List (Option Buf) := []
  /-- the device has put the chain in the used ring -/
  returned : Bool := false
  /-- the driver's reaping handle, once it has one -/
  drv : Option RingObject := none
  /-- results of the driver's gathers -/
  drvLog : List (Option Buf) := []
  /-- the descriptors these gathers pushed on the free list -/
  freed : List Nat := []

/-- The queue, its clients' chains and the history of both rings. -/
structure System where
  drv : Driver
  dev : Device
  mem : Mem
  chains : Nat → Chain
  /-- chains in the order of their publication -/
  pub : List Nat
  /-- their heads -/
  published : List Nat
  /-- heads returned by `get_available_buf` -/
  taken : List Nat
  /-- chains in the order of their return -/
  ret : List Nat
  /-- the (id, len) pairs put in the used ring -/
  returned : List VringUsedElem
  /-- the (id, len) pairs returned by `get_used_buf` -/
  got : List VringUsedElem

/-- `virtqueue_init_driver`, then `virtqueue_init_device`, on any
memory. -/
def init (queueLen : Nat) (mem : Mem) : System :=
  { drv := (virtqueueInitDriver queueLen mem).1
    dev := virtqueueInitDevice queueLen
    mem := (virtqueueInitDriver queueLen mem).2
    chains := fun _ => {}
    pub := []
    published := []
    taken := []
    ret := []
    returned := []
    got := [] }

-- =============================================================== steps

/-- One API call. -/
inductive Act
  | addAvail (c : Nat) (b : Buf)
  | getAvail
  | gatherAvail (c : Nat)
  | addUsed (c : Nat) (len : UInt32)
  | getUsed
  | gatherUsed (c : Nat)
  deriving Repr

/-- The driver adds a buffer to chain `c`. -/
def addAvailStep (s : System) (c : Nat) (b : Buf) : System :=
  let ch := s.chains c
  match virtqueueAddAvailableBuf s.drv s.mem ch.obj b with
  | (0, drv, mem, obj) =>
      { s with
        drv := drv
        mem := mem
        chains := Function.update s.chains c { ch with obj := obj } }
  | (_ + 1, drv, mem, obj) =>
      { s with
        drv := drv
        mem := mem
        chains := Function.update s.chains c { ch with
          obj := obj
          bufs := ch.bufs ++ [b]
          idxs := ch.idxs ++ [obj.cur] }
        -- the first buffer of a handle opens a ring entry
        pub := if ch.bufs = [] then s.pub ++ [c] else s.pub
        published := if ch.bufs = [] then s.published ++ [obj.first]
          else s.published }

/-- The device asks for an available chain. -/
def getAvailStep (s : System) : System :=
  match virtqueueGetAvailableBuf s.dev s.mem with
  | none => s
  | some (dev, robj) =>
      { s with
        dev := dev
        taken := s.taken ++ [robj.first]
        chains := match s.pub[s.taken.length]? with
          | none => s.chains
          | some c => Function.update s.chains c { s.chains c with
              dev := some robj
              atGet := (s.chains c).bufs
              linked := (s.chains c).bufs } }

/-- The device gathers from its handle `robj` of chain `c`. -/
def gatherAvailStep (s : System) (c : Nat) (robj : RingObject) : System :=
  let ch := s.chains c
  match virtqueueGatherAvailable s.dev s.mem robj with
  | none =>
      { s with
        chains := Function.update s.chains c { ch with
          devLog := if ch.returned then ch.devLog
            else ch.devLog ++ [none] } }
  | some (b, robj') =>
      { s with
        chains := Function.update s.chains c { ch with
          dev := some robj'
          linked := if ch.returned then ch.linked else ch.bufs
          devLog := if ch.returned then ch.devLog
            else ch.devLog ++ [some b] } }

/-- The device returns its handle `robj` of chain `c`. -/
def addUsedStep (s : System) (c : Nat) (robj : RingObject)
    (len : UInt32) : System :=
  { s with
    mem := virtqueueAddUsedBuf s.dev s.mem robj len
    ret := s.ret ++ [c]
    returned := s.returned ++ [⟨robj.first, len⟩]
    chains := Function.update s.chains c
      { s.chains c with returned := true } }

/-- The driver asks for a used chain. -/
def getUsedStep (s : System) : System :=
  match virtqueueGetUsedBuf s.drv s.mem with
  | none => s
  | some (drv, robj, len) =>
      { s with
        drv := drv
        got := s.got ++ [⟨robj.first, len⟩]
        chains := match s.ret[s.got.length]? with
          | none => s.chains
          | some c => Function.update s.chains c
              { s.chains c with drv := some robj } }

/-- The driver gathers from its handle `robj` of chain `c`. -/
def gatherUsedStep (s : System) (c : Nat) (robj : RingObject) : System :=
  let ch := s.chains c
  match virtqueueGatherUsed s.drv s.mem robj with
  | none =>
      { s with
        chains := Function.update s.chains c
          { ch with drvLog := ch.drvLog ++ [none] } }
  | some (b, drv, mem, robj') =>
      { s with
        drv := drv
        mem := mem
        chains := Function.update s.chains c { ch with
          drv := some robj'
          drvLog := ch.drvLog ++ [some b]
          freed := ch.freed ++ [drv.freeDescHead] } }

/-- One call of either side; `none` when the API does not allow it. -/
def step (s : System) : Act → Option System
  | .addAvail c b =>
      if (s.chains c).freed = [] then some (addAvailStep s c b) else none
  | .getAvail => some (getAvailStep s)
  | .gatherAvail c =>
      match (s.chains c).dev with
      | some robj => some (gatherAvailStep s c robj)
      | none => none
  | .addUsed c len =>
      match (s.chains c).dev, (s.chains c).returned with
      | some robj, false => some (addUsedStep s c robj len)
      | _, _ => none
  | .getUsed => some (getUsedStep s)
  | .gatherUsed c =>
      match (s.chains c).drv with
      | some robj => some (gatherUsedStep s c robj)
      | none => none

/-- A queue length the library is used with: a power of two that the
16-bit fields can count. -/
def QueueLen (queueLen : Nat) : Prop :=
  ∃ k, k ≤ 15 ∧ queueLen = 2 ^ k

/-- The states of a queue of length `queueLen` under every
API-conforming interleaving. -/
def VqReachable (queueLen : Nat) : System → Prop :=
  Reachable (fun s => ∃ mem, s = init queueLen mem) step anyStep

end ProjectsLibs.Virtqueue
