/-
The scatter-list round trip, and what a polling device can see of a
chain that is still being built.

`scatter_round_trip` is about one chain whose buffers were all added
before the device got it. Calls on other chains do not appear in it:
the invariant holds after any of them, and it is all the statement
uses. The results of the two iterations are those recorded in the
chain's logs; `Iterates` says that call `i` returned entry `i`, and 0
once the entries were used up.

`gathered_eq_linked` is about every chain. The ring entry exists from
the first buffer on, so a device that polls while the driver is still
adding can come to the end of the chain early. What it has gathered
then is what was linked at its last successful gather.
-/
import Mathlib.Data.UInt
import ProjectsLibs.Virtqueue.Proofs.Conservation

namespace ProjectsLibs.Virtqueue

open Lib

variable {queueLen : Nat} {s : System}

-- ================================================== the size of a chain

/-- The loop of `virtqueue_scattered_available_size` over a linked
list adds up its lengths. -/
theorem scatteredSizeLoop_eq {vq : Device} {mem : Mem} {l : List Nat}
    {a : Nat} (hlinks : Follows (nextOf mem.desc) vq.queueLen a l)
    (hlt : ∀ x ∈ l, x < vq.queueLen) (fuel : Nat) (hfuel : l.length < fuel)
    (acc : UInt32) :
    scatteredSizeLoop vq mem fuel a acc
      = some (acc + (l.map fun x => (mem.desc x).len).sum) := by
  induction l generalizing a fuel acc with
  | nil =>
      obtain ⟨n, hn⟩ := Nat.exists_eq_succ_of_ne_zero (Nat.ne_of_gt hfuel)
      have ha : a = vq.queueLen := hlinks
      subst hn
      rw [scatteredSizeLoop, if_neg (by omega), List.map_nil, List.sum_nil,
        UInt32.add_zero]
  | cons x l ih =>
      obtain ⟨n, hn⟩ := Nat.exists_eq_succ_of_ne_zero
        (Nat.ne_of_gt (Nat.lt_of_le_of_lt (Nat.zero_le _) hfuel))
      subst hn
      obtain ⟨hax, -, hl⟩ := hlinks
      subst hax
      rw [List.length_cons] at hfuel
      rw [scatteredSizeLoop, if_pos (hlt a (List.mem_cons_self ..))]
      have hrec := ih hl (fun y hy => hlt y (List.mem_cons_of_mem _ hy)) n
        (by omega) (acc + (mem.desc a).len)
      refine hrec.trans ?_
      rw [List.map_cons, List.sum_cons, UInt32.add_assoc]

/-- A `uint32_t` sum is the sum modulo `2 ^ 32`. -/
theorem toNat_sum (l : List UInt32) :
    l.sum.toNat = (l.map UInt32.toNat).sum % 2 ^ 32 := by
  induction l with
  | nil => rfl
  | cons x l ih =>
      rw [List.sum_cons, UInt32.toNat_add, ih, List.map_cons, List.sum_cons,
        Nat.add_mod_mod]

/-- The unreaped descriptors carry the unreaped buffers. -/
theorem ChainInv.map_buf {desc : Nat → VringDesc} {ch : Chain}
    (h : ChainInv queueLen desc ch) (hfreed : ch.freed = []) :
    ch.idxs.map (fun x => (desc x).buf) = ch.bufs := by
  refine List.ext_getElem? fun i => ?_
  rw [List.getElem?_map]
  cases hx : ch.idxs[i]? with
  | none =>
      rw [List.getElem?_eq_none_iff, h.len_eq] at hx
      rw [List.getElem?_eq_none hx]
      rfl
  | some x => exact (h.bufs_eq i x (by simp [hfreed]) hx).symm

/-- The size of a chain the device holds. -/
theorem Inv.scattered_size (h : Inv queueLen s) {c : Nat}
    {robj : RingObject} (hdev : (s.chains c).dev = some robj)
    (hfreed : (s.chains c).freed = []) (fuel : Nat)
    (hfuel : (s.chains c).bufs.length < fuel) :
    virtqueueScatteredAvailableSize fuel s.dev s.mem robj
      = some (((s.chains c).bufs.map Buf.len).sum) := by
  have hch := h.chain c
  have hlinks := hch.links
  simp only [Chain.rem, hfreed, List.length_nil, List.drop_zero,
    hch.dev_first robj hdev, Option.getD_some] at hlinks
  rw [← h.dev_len] at hlinks
  have hlt : ∀ x ∈ (s.chains c).idxs, x < s.dev.queueLen := by
    intro x hx
    rw [h.dev_len]
    exact h.idxs_lt hfreed hx
  unfold virtqueueScatteredAvailableSize
  rw [scatteredSizeLoop_eq hlinks hlt fuel (hch.len_eq ▸ hfuel),
    ← hch.map_buf hfreed, List.map_map, UInt32.zero_add]
  rfl

-- ========================================================== round trip

/-- Reaping one buffer puts its descriptor at the head of the free
list; past the end the free list stays as it is. -/
theorem Inv.reap_free (hq : QueueLen queueLen) (h : Inv queueLen s)
    {c : Nat} {s' : System} {free : List Nat}
    (hstep : step s (.gatherUsed c) = some s')
    (hfree : Follows (nextOf s.mem.desc) queueLen s.drv.freeDescHead free) :
    Follows (nextOf s'.mem.desc) queueLen s'.drv.freeDescHead
      ((s.chains c).idxs[(s.chains c).drvLog.length]?.toList ++ free) := by
  obtain ⟨free', hfree'⟩ := h.conserved
  have hsame := hfree.unique hfree'.1
  subst hsame
  simp only [step] at hstep
  split at hstep
  case h_2 => cases hstep
  case h_1 robj hdrv =>
    have hch := h.chain c
    cases hstep
    unfold gatherUsedStep virtqueueGatherUsed
    rw [h.drv_len]
    by_cases hcur : queueLen ≤ robj.cur
    · simp only [if_pos hcur]
      -- nothing left: the position is past the chain
      have hnone : (s.chains c).idxs[(s.chains c).drvLog.length]? = none := by
        have hend := hch.reap_end (fun x hx => h.rem_lt hx) hdrv hcur
        have hlast := hend.drv_log (s.chains c).drvLog.length none
          (by simp)
        rw [List.getElem?_eq_none_iff, hch.len_eq]
        exact List.getElem?_eq_none_iff.1 hlast.symm
      rw [hnone]
      exact hfree
    · have hlt : robj.cur < queueLen := by omega
      obtain ⟨-, hidx, hrem⟩ := hch.reap_head hdrv hlt
      have hmem : robj.cur ∈ (s.chains c).rem := by
        rw [hrem]
        exact List.mem_cons_self ..
      have hhead : u16 s.drv.freeDescHead = s.drv.freeDescHead :=
        u16_of_le hq (h.head_le hfree')
      simp only [if_neg hcur, vqPopDesc, hidx, hhead]
      refine ⟨rfl, Nat.ne_of_lt hlt, ?_⟩
      rw [nextOf_update, Function.update_self]
      exact hfree.update_of_notMem
        fun hm => h.free_disjoint hfree' hm hmem

/-- A chain whose buffers were all added before the device got it
makes the round trip: the device's gathers return its buffers in order
and then 0, its size is the sum of the lengths modulo `2 ^ 32`, the
driver's gathers return the same buffers in order and then 0, and each
of them puts the next of the chain's descriptors, and nothing else, on
the free list. -/
theorem scatter_round_trip (hq : QueueLen queueLen)
    (hs : VqReachable queueLen s) {c : Nat} {robj : RingObject}
    (hdev : (s.chains c).dev = some robj)
    (hadds : (s.chains c).atGet = (s.chains c).bufs) :
    (s.chains c).bufs ≠ []
    ∧ Iterates (s.chains c).bufs (s.chains c).devLog
    ∧ ((s.chains c).freed = [] →
        ∀ fuel, (s.chains c).bufs.length < fuel →
          ∃ size, virtqueueScatteredAvailableSize fuel s.dev s.mem robj
              = some size
            ∧ size.toNat
              = ((s.chains c).bufs.map fun b => b.len.toNat).sum % 2 ^ 32)
    ∧ Iterates (s.chains c).bufs (s.chains c).drvLog
    ∧ (s.chains c).idxs.length = (s.chains c).bufs.length
    ∧ (s.chains c).freed
        = (s.chains c).idxs.take (s.chains c).drvLog.length
    ∧ ∀ s' free, step s (.gatherUsed c) = some s' →
        Follows (nextOf s.mem.desc) queueLen s.drv.freeDescHead free →
        Follows (nextOf s'.mem.desc) queueLen s'.drv.freeDescHead
          ((s.chains c).idxs[(s.chains c).drvLog.length]?.toList
            ++ free) := by
  have h := inv_reachable hq hs
  have hch := h.chain c
  have hlinked : (s.chains c).linked = (s.chains c).bufs := by
    have hpre := hch.atGet_prefix
    rw [hadds] at hpre
    exact hch.linked_prefix.eq_of_length_le hpre.length_le
  refine ⟨?_, ?_, ?_, hch.drv_log, hch.len_eq, hch.freed_eq, ?_⟩
  · rw [← hlinked]
    exact hch.dev_linked robj hdev
  · rw [← hlinked]
    exact hch.dev_log
  · intro hfreed fuel hfuel
    refine ⟨_, h.scattered_size hdev hfreed fuel hfuel, ?_⟩
    rw [toNat_sum, List.map_map]
    rfl
  · intro s' free hstep hfree
    exact h.reap_free hq hstep hfree

/-- A chain of two buffers, iterated to its end and once more: the buffers
as they were linked, and then the end. -/
theorem scatter_round_trip_sample :
    (sampleState.chains 0).bufs = [⟨16, 1, .read⟩, ⟨32, 2, .write⟩]
      ∧ (sampleState.chains 0).devLog
        = [some ⟨16, 1, .read⟩, some ⟨32, 2, .write⟩, none]
      ∧ Iterates (sampleState.chains 0).bufs
          (sampleState.chains 0).devLog :=
  ⟨rfl, rfl, (scatter_round_trip (s := sampleState) (c := 0)
    ⟨2, by decide, rfl⟩ sampleState_reachable rfl rfl).2.1⟩

-- ========================================== chains still being built

/-- The results of an iteration that came to its end are all the
entries. -/
theorem filterMap_of_iterates {β : Type} {l : List β}
    {log : List (Option β)} (h : Iterates l log) (hend : none ∈ log) :
    log.filterMap id = l := by
  induction l generalizing log with
  | nil =>
      rw [List.filterMap_eq_nil_iff]
      intro r hr
      obtain ⟨i, hi⟩ := List.getElem?_of_mem hr
      rw [h i r hi]
      rfl
  | cons b l ih =>
      cases log with
      | nil => cases hend
      | cons r log =>
          have hr : r = some b := h 0 r rfl
          subst hr
          have hrest : Iterates l log := fun i r' hi => h (i + 1) r' hi
          have hend' : none ∈ log := by
            rcases List.mem_cons.1 hend with he | he
            · cases he
            · exact he
          show b :: log.filterMap id = b :: l
          rw [ih hrest hend']

/-- Once the device's gather has returned 0, what it gathered is
exactly what the driver had put under the ring entry when the last
successful gather was made: a non-empty prefix of the chain, in order,
that contains everything added before the device got the handle. It is
the whole chain if the chain did not grow after that gather. -/
theorem gathered_eq_linked (hq : QueueLen queueLen)
    (hs : VqReachable queueLen s) {c : Nat}
    (hend : none ∈ (s.chains c).devLog) :
    (s.chains c).devLog.filterMap id = (s.chains c).linked
      ∧ (s.chains c).linked ≠ []
      ∧ (s.chains c).atGet <+: (s.chains c).linked
      ∧ (s.chains c).linked <+: (s.chains c).bufs
      ∧ ((s.chains c).devLog.filterMap id = (s.chains c).bufs
          ↔ (s.chains c).bufs.length = (s.chains c).linked.length) := by
  have hch := (inv_reachable hq hs).chain c
  have hgathered := filterMap_of_iterates hch.dev_log hend
  refine ⟨hgathered, ?_, hch.atGet_prefix, hch.linked_prefix, ?_⟩
  · cases hdev : (s.chains c).dev with
    | some o => exact hch.dev_linked o hdev
    | none =>
        rw [(hch.dev_none hdev).1] at hend
        cases hend
  · rw [hgathered]
    constructor
    · intro heq
      rw [heq]
    · intro hlen
      exact hch.linked_prefix.eq_of_length_le (Nat.le_of_eq hlen)

/-- An iteration that has come to its end has gathered the whole chain. -/
theorem gathered_eq_linked_sample :
    none ∈ (sampleState.chains 0).devLog
      ∧ (sampleState.chains 0).devLog.filterMap id
        = (sampleState.chains 0).linked := by
  have hend : none ∈ (sampleState.chains 0).devLog :=
    List.mem_of_getElem? (i := 2) rfl
  exact ⟨hend, (gathered_eq_linked ⟨2, by decide, rfl⟩
    sampleState_reachable hend).1⟩

/-- The device polls between the two calls that build a chain: its
iteration ends after the first buffer. -/
theorem short_iteration :
    ∃ s, run step (init 2 blankMem)
        [.addAvail 0 ⟨16, 1, .read⟩, .getAvail, .gatherAvail 0,
         .gatherAvail 0, .addAvail 0 ⟨32, 2, .write⟩] = some s
      ∧ (s.chains 0).bufs = [⟨16, 1, .read⟩, ⟨32, 2, .write⟩]
      ∧ (s.chains 0).devLog = [some ⟨16, 1, .read⟩, none] :=
  ⟨_, rfl, rfl, rfl⟩

end ProjectsLibs.Virtqueue
