/-
A driver that only adds buffers, behind `virtqueue_init_driver`: how many
it can add, and whether the chains that it builds have an end.

The handles are numbered, and one that no call has been made with is
fresh. The length of the queue is any number: the initialisation logs one
that is no power of two, and goes on with it.

# Why the length matters

The descriptor table is linked through 16-bit fields, and the length of
the queue itself is used as the end of a list. `WorksFor` is what a user
of the queue expects of adds alone: as many succeed as there are
descriptors, at different descriptors, the next one fails, and for each
chain both sides find where it ends. Nothing is assumed about the order
of the handles, so a chain may be continued after others have been begun,
and memory holds anything before the initialisation.
-/
import ProjectsLibs.Virtqueue.System

namespace ProjectsLibs.Virtqueue

/-- Calls of `virtqueue_add_available_buf`, with handles and buffers: what
each returns, the descriptor at its handle behind it, and the state behind
all of them. -/
def addRun (s : System) : List (Nat × Buf) → List (Nat × Nat) × System
  | [] => ([], s)
  | (c, b) :: calls =>
      let (result, _, _, obj) :=
        virtqueueAddAvailableBuf s.drv s.mem (s.chains c).obj b
      let (results, s') := addRun (addAvailStep s c b) calls
      ((result, obj.cur) :: results, s')

/-- Both sides read the descriptor at the handle and then find the end of
its chain. -/
structure EndRecognised (s : System) (o : RingObject) : Prop where
  available : ∃ b o', virtqueueGatherAvailable s.dev s.mem o = some (b, o')
    ∧ virtqueueGatherAvailable s.dev s.mem o' = none
  used : ∃ b drv mem o',
    virtqueueGatherUsed s.drv s.mem o = some (b, drv, mem, o')
    ∧ virtqueueGatherUsed drv mem o' = none

/-- No more calls than the queue is long: all of them succeed and take
different descriptors of the table, as many as there are when the queue is
full; then the next call returns 0. Each chain ends at the descriptor that
was added to it last. -/
structure WorksFor (queueLen : Nat) (mem : Mem) (calls : List (Nat × Buf)) :
    Prop where
  succeed : ∀ r ∈ (addRun (init queueLen mem) calls).1, r.1 = 1
  apart : ((addRun (init queueLen mem) calls).1.map Prod.snd).Nodup
  lt : ∀ i ∈ (addRun (init queueLen mem) calls).1.map Prod.snd, i < queueLen
  full : calls.length = queueLen →
    ((addRun (init queueLen mem) calls).1.map Prod.snd).Perm
        (List.range queueLen)
      ∧ ∀ obj b, (virtqueueAddAvailableBuf
        (addRun (init queueLen mem) calls).2.drv
        (addRun (init queueLen mem) calls).2.mem obj b).1 = 0
  ends : ∀ c ∈ calls.map Prod.fst, EndRecognised
    (addRun (init queueLen mem) calls).2
    ((addRun (init queueLen mem) calls).2.chains c).obj

/-- A queue of the length works, whatever is in its memory. -/
def Works (queueLen : Nat) : Prop :=
  ∀ mem calls, calls.length ≤ queueLen → WorksFor queueLen mem calls

end ProjectsLibs.Virtqueue
