/-
Descriptor conservation.

`descriptor_conservation` restates the invariant on the code's own
state: where the free list starts is `free_desc_head`, and where the
unreaped part of a chain starts is read off the handles
(`Chain.suffixStart`). Everything else is links of the one table.

# What the statement adds

The invariant of the runs speaks of chains as lists, which are ghost
state: the code has links and two handles. Here the lists are tied to
what can be read in the structures. A chain that nobody reaps yet starts
at its head; one that is being reaped starts where the handle of the
driver is; one that is reaped to its end owns nothing. The free list and
these suffixes are then followed by the links of the table alone, and the
theorem says that together they are each descriptor once, in every
reachable state.

The sample is a run in which two chains are in different phases at the
same time, on a queue of four descriptors.
-/
import ProjectsLibs.Virtqueue.Proofs.Reap

namespace ProjectsLibs.Virtqueue

open Lib

variable {queueLen : Nat} {s : System}

-- ======================================================== conservation

/-- Where the unreaped part of a published chain starts: at its head
while its reaping has not begun, then at the driver's reaping handle. -/
def Chain.suffixStart (queueLen : Nat) (ch : Chain) : Nat :=
  if ch.freed = [] then ch.obj.first
  else (ch.drv.map RingObject.cur).getD queueLen

/-- The handles say where the unreaped part starts. -/
theorem Inv.suffixStart_eq (h : Inv queueLen s) {c : Nat}
    (hc : c ∈ s.pub) :
    (s.chains c).suffixStart queueLen
      = (s.chains c).rem.head?.getD queueLen := by
  have hch := h.chain c
  have hidxs := h.pub_iff.1 hc
  unfold Chain.suffixStart
  by_cases hfreed : (s.chains c).freed = []
  · rw [if_pos hfreed, hch.obj_first, Chain.rem, hfreed]
    cases hl : (s.chains c).idxs with
    | nil => exact absurd hl hidxs
    | cons x l => rfl
  · rw [if_neg hfreed]
    cases hdrv : (s.chains c).drv with
    | none =>
        have := h.drv_of_freed hfreed
        rw [hdrv] at this
        cases this
    | some o =>
        have hlen := congrArg List.length hch.freed_eq
        rw [List.length_take] at hlen
        rw [Option.map_some, Option.getD_some, hch.drv_cur o hdrv,
          Chain.rem, List.head?_drop]
        rcases Nat.le_total (s.chains c).drvLog.length
            (s.chains c).idxs.length with hle | hle
        · rw [hlen, Nat.min_eq_left hle]
        · rw [hlen, Nat.min_eq_right hle, List.getElem?_eq_none hle,
            List.getElem?_eq_none (Nat.le_refl _)]

/-- At every point the free list, followed from `free_desc_head`, and
the unreaped suffixes of the published chains are lists of the one
table that end in the queue length, and together they are all indices,
each exactly once. So `add_available_buf` returns 0 exactly when the
free list is empty, and then changes nothing. -/
theorem descriptor_conservation (hq : QueueLen queueLen)
    (hs : VqReachable queueLen s) :
    ∃ (free : List Nat) (suffix : Nat → List Nat),
      Follows (nextOf s.mem.desc) queueLen s.drv.freeDescHead free
      ∧ (∀ c ∈ s.pub, Follows (nextOf s.mem.desc) queueLen
          ((s.chains c).suffixStart queueLen) (suffix c))
      ∧ (free ++ s.pub.flatMap suffix).Perm (List.range queueLen)
      ∧ (free ++ s.pub.flatMap suffix).Nodup
      ∧ ∀ c b, (s.chains c).freed = [] →
          ((virtqueueAddAvailableBuf s.drv s.mem (s.chains c).obj b).1 = 0
            ↔ free = [])
          ∧ ((virtqueueAddAvailableBuf s.drv s.mem (s.chains c).obj b).1 = 0
            → virtqueueAddAvailableBuf s.drv s.mem (s.chains c).obj b
                = (0, s.drv, s.mem, (s.chains c).obj)) := by
  have h := inv_reachable hq hs
  obtain ⟨free, hfree⟩ := h.conserved
  refine ⟨free, fun c => (s.chains c).rem, hfree.1, ?_, hfree.2,
    h.nodup hfree, ?_⟩
  · intro c hc
    rw [h.suffixStart_eq hc]
    exact (h.chain c).links
  · intro c b hfreed
    cases free with
    | nil =>
        rw [addAvailable_full h hfree]
        exact ⟨⟨fun _ => rfl, fun _ => rfl⟩, fun _ => rfl⟩
    | cons x free =>
        have hone : (virtqueueAddAvailableBuf s.drv s.mem
            (s.chains c).obj b).1 = 1 := by
          rcases List.eq_nil_or_concat (s.chains c).idxs with
            hnil | ⟨l, t, ht⟩
          · rw [addAvailable_first hq h hfree hnil]
          · rw [addAvailable_next hq h hfree
              (ht.trans (List.concat_eq_append ..)) hfreed]
        rw [hone]
        refine ⟨⟨fun h0 => ?_, fun hnil => ?_⟩, fun h0 => ?_⟩
        · cases h0
        · cases hnil
        · cases h0

/-- Memory before initialisation, for the sample runs. -/
def blankMem : Mem :=
  { desc := fun _ => ⟨0, 0, .read, 0⟩
    avail := ⟨0, 0, fun _ => 0⟩
    used := ⟨0, 0, fun _ => ⟨0, 0⟩⟩ }

/-- A two-buffer chain that goes through the device and is half reaped
while a second one is being built. -/
def sampleRun : List Act :=
  [.addAvail 0 ⟨16, 1, .read⟩, .addAvail 0 ⟨32, 2, .write⟩, .getAvail,
   .gatherAvail 0, .gatherAvail 0, .gatherAvail 0,
   .addAvail 1 ⟨48, 3, .rw⟩, .addUsed 0 7, .getUsed, .gatherUsed 0]

/-- The state `sampleRun` ends in, on a queue of four. -/
def sampleState : System :=
  (run step (init 4 blankMem) sampleRun).getD (init 4 blankMem)

/-- A driver and a device that have gone half of the way with two chains. -/
theorem sampleState_reachable : VqReachable 4 sampleState := by
  have hrun : run step (init 4 blankMem) sampleRun = some sampleState := rfl
  exact Reachable.run (Reachable.init ⟨blankMem, rfl⟩) hrun

/-- In that state the free descriptors and the chains in flight make up the
table. -/
theorem descriptor_conservation_sample :
    QueueLen 4 ∧ VqReachable 4 sampleState
      ∧ ∃ (free : List Nat) (suffix : Nat → List Nat),
        Follows (nextOf sampleState.mem.desc) 4
            sampleState.drv.freeDescHead free
          ∧ (free ++ sampleState.pub.flatMap suffix).Perm (List.range 4) := by
  have hq : QueueLen 4 := ⟨2, by decide, rfl⟩
  obtain ⟨free, suffix, hfree, -, hperm, -⟩ :=
    descriptor_conservation hq sampleState_reachable
  exact ⟨hq, sampleState_reachable, free, suffix, hfree, hperm⟩

end ProjectsLibs.Virtqueue
