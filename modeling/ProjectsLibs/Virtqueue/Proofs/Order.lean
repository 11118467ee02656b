/-
The two rings as FIFOs, and when a ring that is not empty looks empty.

# Order

`rings_fifo`: what the consumer of a ring got is a prefix of what its
producer put, and no store of a producer hits a slot whose entry is
still to be taken, although neither producer looks at the consumer.

# Full and empty

Producer index and consumer cursor are kept modulo the queue length, so
a ring with `queueLen` untaken entries has the same indices as an empty
one. Nothing keeps a driver from getting there: `queueLen` chains of
one buffer each are accepted. `visible_iff_ringRoom` gives the exact
condition on the calls under which every chain stays visible.
-/
import ProjectsLibs.Virtqueue.Proofs.Conservation

namespace ProjectsLibs.Virtqueue

open Lib

variable {queueLen : Nat} {s s' : System}

-- ============================================================== the calls

/-- What an add does to the available ring: an entry is put exactly
when a descriptor is free and the handle is fresh. -/
theorem addAvail_ring (hq : QueueLen queueLen) (h : Inv queueLen s)
    {c : Nat} {b : Buf} (hfreed : (s.chains c).freed = []) :
    (s.drv.freeDescHead ≠ queueLen ∧ (s.chains c).bufs = []
      ∧ ∃ x, (addAvailStep s c b).published = s.published ++ [x]
        ∧ (addAvailStep s c b).mem.avail.ring
          = Function.update s.mem.avail.ring s.mem.avail.idx x)
    ∨ (¬(s.drv.freeDescHead ≠ queueLen ∧ (s.chains c).bufs = [])
      ∧ (addAvailStep s c b).published = s.published
      ∧ (addAvailStep s c b).mem.avail.ring = s.mem.avail.ring) := by
  have hch := h.chain c
  obtain ⟨free, hfree⟩ := h.conserved
  cases free with
  | nil =>
      have hhead : s.drv.freeDescHead = queueLen := hfree.1
      refine Or.inr ⟨fun hne => hne.1 hhead, ?_⟩
      unfold addAvailStep
      simp only [addAvailable_full h hfree]
      exact ⟨trivial, trivial⟩
  | cons x free =>
      have hhead : s.drv.freeDescHead ≠ queueLen := by
        rw [hfree.1.start_eq]
        exact hfree.1.2.1
      rcases List.eq_nil_or_concat (s.chains c).idxs with hnil | ⟨l, t, ht⟩
      · have hbufs : (s.chains c).bufs = [] := by
          rw [← List.length_eq_zero_iff, ← hch.len_eq, hnil]
          rfl
        refine Or.inl ⟨hhead, hbufs, x, ?_⟩
        unfold addAvailStep
        simp only [addAvailable_first hq h hfree hnil b, if_pos hbufs]
        exact ⟨trivial, trivial⟩
      · have hbufs : (s.chains c).bufs ≠ [] := by
          intro hb
          have hlen := hch.len_eq
          rw [ht, hb] at hlen
          simp at hlen
        refine Or.inr ⟨fun hne => hbufs hne.2, ?_⟩
        unfold addAvailStep
        simp only [addAvailable_next hq h hfree
          (ht.trans (List.concat_eq_append ..)) hfreed b, if_neg hbufs]
        exact ⟨trivial, trivial⟩

/-- A get moves no producer. -/
theorem getAvail_ring (s : System) :
    (getAvailStep s).published = s.published
      ∧ (getAvailStep s).mem = s.mem
      ∧ s.taken.length ≤ (getAvailStep s).taken.length
      ∧ (getAvailStep s).returned = s.returned
      ∧ (getAvailStep s).got = s.got := by
  unfold getAvailStep
  split
  · exact ⟨rfl, rfl, Nat.le_refl _, rfl, rfl⟩
  · refine ⟨rfl, rfl, ?_, rfl, rfl⟩
    rw [List.length_append]
    exact Nat.le_add_right _ _

/-- Likewise for the driver's get. -/
theorem getUsed_ring (s : System) :
    (getUsedStep s).returned = s.returned
      ∧ (getUsedStep s).mem = s.mem
      ∧ s.got.length ≤ (getUsedStep s).got.length
      ∧ (getUsedStep s).published = s.published
      ∧ (getUsedStep s).taken = s.taken := by
  unfold getUsedStep
  split
  · exact ⟨rfl, rfl, Nat.le_refl _, rfl, rfl⟩
  · refine ⟨rfl, rfl, ?_, rfl, rfl⟩
    rw [List.length_append]
    exact Nat.le_add_right _ _

/-- A gather leaves both rings and their histories alone. -/
theorem gatherAvail_ring (s : System) (c : Nat) (robj : RingObject) :
    (gatherAvailStep s c robj).mem = s.mem
      ∧ (gatherAvailStep s c robj).published = s.published
      ∧ (gatherAvailStep s c robj).taken = s.taken
      ∧ (gatherAvailStep s c robj).returned = s.returned
      ∧ (gatherAvailStep s c robj).got = s.got := by
  unfold gatherAvailStep
  split
  · exact ⟨rfl, rfl, rfl, rfl, rfl⟩
  · exact ⟨rfl, rfl, rfl, rfl, rfl⟩

/-- The driver's gather only writes the descriptor table. -/
theorem gatherUsed_ring (s : System) (c : Nat) (robj : RingObject) :
    (gatherUsedStep s c robj).mem.avail = s.mem.avail
      ∧ (gatherUsedStep s c robj).mem.used = s.mem.used
      ∧ (gatherUsedStep s c robj).published = s.published
      ∧ (gatherUsedStep s c robj).taken = s.taken
      ∧ (gatherUsedStep s c robj).returned = s.returned
      ∧ (gatherUsedStep s c robj).got = s.got := by
  unfold gatherUsedStep virtqueueGatherUsed vqPopDesc
  by_cases hcur : s.drv.queueLen ≤ robj.cur
  · rw [if_pos hcur]
    exact ⟨rfl, rfl, rfl, rfl, rfl, rfl⟩
  · rw [if_neg hcur]
    exact ⟨rfl, rfl, rfl, rfl, rfl, rfl⟩

/-- An add leaves the used ring and what was taken alone. -/
theorem addAvail_other (s : System) (c : Nat) (b : Buf) :
    (addAvailStep s c b).mem.used = s.mem.used
      ∧ (addAvailStep s c b).taken = s.taken
      ∧ (addAvailStep s c b).returned = s.returned
      ∧ (addAvailStep s c b).got = s.got := by
  have hused : (virtqueueAddAvailableBuf s.drv s.mem (s.chains c).obj
      b).2.2.1.used = s.mem.used := by
    unfold virtqueueAddAvailableBuf vqAddDesc
    by_cases hnew : s.drv.freeDescHead = s.drv.queueLen
    · simp only [if_pos hnew]
    · simp only [if_neg hnew]
      split
      · rfl
      · rfl
  rcases hr : virtqueueAddAvailableBuf s.drv s.mem (s.chains c).obj b with
    ⟨n, drv, mem, obj⟩
  rw [hr] at hused
  cases n with
  | zero =>
      simp only [addAvailStep, hr]
      exact ⟨hused, trivial, trivial, trivial⟩
  | succ n =>
      simp only [addAvailStep, hr]
      exact ⟨hused, trivial, trivial, trivial⟩

-- =============================================================== order

/-- What one step may do to a ring: nothing, or put one entry at the
producer's index, which is not the slot of an entry still to be
taken. -/
def KeepsUntaken {α : Type} (queueLen : Nat) (slot slot' : Nat → α)
    (idx : Nat) (log log' : List α) (taken : Nat) : Prop :=
  (slot' = slot ∧ log' = log)
    ∨ ∃ x, slot' = Function.update slot idx x ∧ log' = log ++ [x]
      ∧ ∀ n, taken ≤ n → n < log.length → n % queueLen ≠ idx

/-- With room in the ring the producer's index is the slot of no
untaken entry. -/
theorem RingInv.idx_untaken {α : Type} {slot : Nat → α}
    {idx lastSeen : Nat} {log taken : List α}
    (h : RingInv queueLen slot idx lastSeen log taken)
    (hroom : log.length < taken.length + queueLen) (n : Nat)
    (hn : taken.length ≤ n) (hlt : n < log.length) :
    n % queueLen ≠ idx := by
  rw [h.idx_eq]
  exact slot_ne hlt (by omega)

/-- An accepted first buffer finds room in the available ring: the
descriptor it takes belonged to no chain there. -/
theorem Inv.avail_room (h : Inv queueLen s)
    (hhead : s.drv.freeDescHead ≠ queueLen) :
    s.published.length < s.taken.length + queueLen := by
  obtain ⟨free, hfree⟩ := h.conserved
  have hle := h.untaken_le hfree
  cases free with
  | nil => exact absurd hfree.1 hhead
  | cons x free =>
      rw [List.length_cons] at hle
      omega

/-- No step overwrites an entry of either ring that is still to be
taken. -/
theorem step_keepsUntaken (hq : QueueLen queueLen) (h : Inv queueLen s)
    {a : Act} (hstep : step s a = some s') :
    KeepsUntaken queueLen s.mem.avail.ring s'.mem.avail.ring
        s.mem.avail.idx s.published s'.published s.taken.length
      ∧ KeepsUntaken queueLen s.mem.used.ring s'.mem.used.ring
        s.mem.used.idx s.returned s'.returned s.got.length := by
  cases a with
  | addAvail c b =>
      simp only [step] at hstep
      split at hstep
      · next hfreed =>
        cases hstep
        obtain ⟨hused, -, hret, -⟩ := addAvail_other s c b
        refine ⟨?_, Or.inl ⟨by rw [hused], hret⟩⟩
        rcases addAvail_ring hq h hfreed (b := b) with
          ⟨hhead, -, x, hpub, hring⟩ | ⟨-, hpub, hring⟩
        · exact Or.inr ⟨x, hring, hpub,
            h.avail.idx_untaken (h.avail_room hhead)⟩
        · exact Or.inl ⟨hring, hpub⟩
      · cases hstep
  | getAvail =>
      cases hstep
      obtain ⟨hpub, hmem, -, hret, -⟩ := getAvail_ring s
      rw [hmem]
      exact ⟨Or.inl ⟨rfl, hpub⟩, Or.inl ⟨rfl, hret⟩⟩
  | gatherAvail c =>
      simp only [step] at hstep
      split at hstep
      · next robj hdev =>
        cases hstep
        obtain ⟨hmem, hpub, -, hret, -⟩ := gatherAvail_ring s c robj
        rw [hmem]
        exact ⟨Or.inl ⟨rfl, hpub⟩, Or.inl ⟨rfl, hret⟩⟩
      · cases hstep
  | addUsed c len =>
      simp only [step] at hstep
      split at hstep
      · next robj hdev hr =>
        cases hstep
        have hroom := h.ungot_lt (c := c) (by rw [hdev]; rfl) hr
        exact ⟨Or.inl ⟨rfl, rfl⟩,
          Or.inr ⟨_, rfl, rfl, h.used.idx_untaken hroom⟩⟩
      · cases hstep
  | getUsed =>
      cases hstep
      obtain ⟨hret, hmem, -, hpub, -⟩ := getUsed_ring s
      rw [hmem]
      exact ⟨Or.inl ⟨rfl, hpub⟩, Or.inl ⟨rfl, hret⟩⟩
  | gatherUsed c =>
      simp only [step] at hstep
      split at hstep
      · next robj hdrv =>
        cases hstep
        obtain ⟨havail, hused, hpub, -, hret, -⟩ := gatherUsed_ring s c robj
        rw [havail, hused]
        exact ⟨Or.inl ⟨rfl, hpub⟩, Or.inl ⟨rfl, hret⟩⟩
      · cases hstep

/-- Both rings are FIFOs. The heads the device got are a prefix of the
heads published, one for each of the pairwise different chains of
`pub`, and the pairs the driver got are a prefix of those returned;
every entry still to be taken is in its slot, and no step overwrites
one. -/
theorem rings_fifo (hq : QueueLen queueLen) (hs : VqReachable queueLen s) :
    s.taken <+: s.published
      ∧ s.pub.Nodup
      ∧ s.published.map some
          = s.pub.map (fun c => (s.chains c).idxs.head?)
      ∧ s.got <+: s.returned
      ∧ (∀ n x, s.taken.length ≤ n → s.published[n]? = some x →
          s.mem.avail.ring (n % queueLen) = x)
      ∧ (∀ n e, s.got.length ≤ n → s.returned[n]? = some e →
          s.mem.used.ring (n % queueLen) = e)
      ∧ ∀ a s', step s a = some s' →
          KeepsUntaken queueLen s.mem.avail.ring s'.mem.avail.ring
            s.mem.avail.idx s.published s'.published s.taken.length
          ∧ KeepsUntaken queueLen s.mem.used.ring s'.mem.used.ring
            s.mem.used.idx s.returned s'.returned s.got.length := by
  have h := inv_reachable hq hs
  refine ⟨?_, h.phases.pub_nodup, h.phases.heads, ?_,
    h.avail.holds.slot_eq, h.used.holds.slot_eq, ?_⟩
  · rw [h.avail.taken_eq]
    exact List.take_prefix _ _
  · rw [h.used.taken_eq]
    exact List.take_prefix _ _
  · intro a s' hstep
    exact step_keepsUntaken hq h hstep

/-- The two chains of the sample: the device has taken the one that was
published first. -/
theorem rings_fifo_sample :
    sampleState.taken = [0] ∧ sampleState.published = [0, 2]
      ∧ sampleState.taken <+: sampleState.published :=
  ⟨rfl, rfl, (rings_fifo ⟨2, by decide, rfl⟩ sampleState_reachable).1⟩

-- ====================================================== full and empty

/-- Neither consumer is told that its ring is empty while an entry is
still to be taken. -/
def Visible (s : System) : Prop :=
  (virtqueueGetAvailableBuf s.dev s.mem = none → s.taken = s.published)
    ∧ (virtqueueGetUsedBuf s.drv s.mem = none → s.got = s.returned)

/-- The call leaves a slot of the ring it puts an entry in unused. -/
def RingRoom (queueLen : Nat) (s : System) : Act → Prop
  | .addAvail c _ =>
      s.drv.freeDescHead ≠ queueLen → (s.chains c).bufs = [] →
        s.published.length + 1 < s.taken.length + queueLen
  | .addUsed _ _ => s.returned.length + 1 < s.got.length + queueLen
  | _ => True

/-- A consumer told that its ring is empty has taken everything exactly
when the ring is not full. -/
theorem RingInv.not_full_iff {α : Type} {slot : Nat → α}
    {idx lastSeen : Nat} {log taken : List α} (hq : QueueLen queueLen)
    (h : RingInv queueLen slot idx lastSeen log taken) :
    (taken.length % queueLen = idx → taken = log)
      ↔ log.length < taken.length + queueLen := by
  have hle := h.holds.taken_le
  have hfits := h.holds.fits
  have hpos := hq.pos
  constructor
  · intro hempty
    by_contra hfull
    -- a full ring has the indices of an empty one
    have hlen : log.length = taken.length + queueLen := by omega
    have heq := hempty (by rw [h.idx_eq, hlen, Nat.add_mod_right])
    rw [heq] at hlen
    omega
  · intro hroom hidx
    have hlen : log.length = taken.length := by
      by_contra hne
      have hslot : taken.length % queueLen ≠ log.length % queueLen :=
        slot_ne (by omega) (by omega)
      exact hslot (hidx.trans h.idx_eq)
    rw [h.taken_eq, ← hlen, List.take_length]

/-- Everything is visible exactly when neither ring is full. -/
theorem Inv.visible_iff (hq : QueueLen queueLen) (h : Inv queueLen s) :
    Visible s
      ↔ s.published.length < s.taken.length + queueLen
        ∧ s.returned.length < s.got.length + queueLen := by
  unfold Visible
  rw [getAvailable_eq hq h, getUsed_eq hq h, ← h.avail.not_full_iff hq,
    ← h.used.not_full_iff hq]
  simp only [ite_eq_left_iff, reduceCtorEq, imp_false, not_not]

/-- A step keeps the rings from filling exactly when it leaves room. -/
theorem visible_step_iff (hq : QueueLen queueLen) (h : Inv queueLen s)
    (hv : Visible s) {a : Act} (hstep : step s a = some s') :
    Visible s' ↔ RingRoom queueLen s a := by
  rw [(inv_step hq h hstep).visible_iff hq]
  obtain ⟨havail, hused⟩ := (h.visible_iff hq).1 hv
  cases a with
  | addAvail c b =>
      simp only [step] at hstep
      split at hstep
      · next hfreed =>
        cases hstep
        obtain ⟨-, htaken, hret, hgot⟩ := addAvail_other s c b
        rw [htaken, hret, hgot]
        unfold RingRoom
        -- an add publishes if there is a free descriptor and the chain is
        -- new
        rcases addAvail_ring hq h hfreed (b := b) with
          ⟨hhead, hbufs, x, hpub, -⟩ | ⟨hno, hpub, -⟩
        · rw [hpub, List.length_append, List.length_singleton]
          constructor
          · intro hlt _ _
            exact hlt.1
          · intro hroom
            exact ⟨hroom hhead hbufs, hused⟩
        · rw [hpub]
          constructor
          · intro _ hhead hbufs
            exact absurd ⟨hhead, hbufs⟩ hno
          · intro _
            exact ⟨havail, hused⟩
      · cases hstep
  | getAvail =>
      cases hstep
      obtain ⟨hpub, -, htaken, hret, hgot⟩ := getAvail_ring s
      rw [hpub, hret, hgot]
      -- taking makes room in the ring, and nothing comes into it
      exact iff_of_true ⟨by omega, hused⟩ trivial
  | gatherAvail c =>
      simp only [step] at hstep
      split at hstep
      · next robj hdev =>
        cases hstep
        obtain ⟨-, hpub, htaken, hret, hgot⟩ := gatherAvail_ring s c robj
        rw [hpub, htaken, hret, hgot]
        exact iff_of_true ⟨havail, hused⟩ trivial
      · cases hstep
  | addUsed c len =>
      simp only [step] at hstep
      split at hstep
      · next robj hdev hr =>
        cases hstep
        show s.published.length < s.taken.length + queueLen
            ∧ (s.returned ++ [_]).length < s.got.length + queueLen
          ↔ s.returned.length + 1 < s.got.length + queueLen
        rw [List.length_append, List.length_singleton]
        exact and_iff_right havail
      · cases hstep
  | getUsed =>
      cases hstep
      obtain ⟨hret, -, hgot, hpub, htaken⟩ := getUsed_ring s
      rw [hpub, hret, htaken]
      exact iff_of_true ⟨havail, by omega⟩ trivial
  | gatherUsed c =>
      simp only [step] at hstep
      split at hstep
      · next robj hdrv =>
        cases hstep
        obtain ⟨-, -, hpub, htaken, hret, hgot⟩ := gatherUsed_ring s c robj
        rw [hpub, htaken, hret, hgot]
        exact iff_of_true ⟨havail, hused⟩ trivial
      · cases hstep

/-- In a run from initialisation every chain is visible in every state
exactly when every call leaves room in the ring it puts an entry in. -/
theorem visible_iff_ringRoom (hq : QueueLen queueLen) (mem : Mem)
    (acts : List Act)
    (hrun : run step (init queueLen mem) acts = some s) :
    Always step Visible (init queueLen mem) acts
      ↔ AllSteps step (RingRoom queueLen) (init queueLen mem) acts := by
  have hinit := inv_init hq mem
  have hvis : Visible (init queueLen mem) := by
    rw [hinit.visible_iff hq]
    exact ⟨Nat.lt_add_of_pos_right hq.pos, Nat.lt_add_of_pos_right hq.pos⟩
  refine always_iff_allSteps (I := Inv queueLen) ?_ ?_ hinit hvis hrun
  · intro s a s' h hstep
    exact inv_step hq h hstep
  · intro s a s' h hv hstep
    exact visible_step_iff hq h hv hstep

/-- One chain in a queue of four, taken: both rings have room all the way. -/
theorem visible_iff_ringRoom_sample :
    ∃ s, run step (init 4 blankMem)
        [.addAvail 0 ⟨16, 1, .read⟩, .getAvail] = some s
      ∧ Always step Visible (init 4 blankMem)
        [.addAvail 0 ⟨16, 1, .read⟩, .getAvail] := by
  refine ⟨_, rfl, (visible_iff_ringRoom ⟨2, by decide, rfl⟩ blankMem _
    rfl).2 ?_⟩
  refine ⟨fun _ _ => ?_, fun _ _ => ⟨trivial, fun _ _ => trivial⟩⟩
  show 0 + 1 < 0 + 4
  decide

/-- Two chains of one buffer each fill a queue of two: both calls
report success, and the device is told that the ring is empty. -/
theorem full_ring_looks_empty :
    ¬∀ queueLen s, QueueLen queueLen → VqReachable queueLen s →
      Visible s := by
  intro hall
  have hrun : ∃ s, run step (init 2 blankMem)
        [.addAvail 0 ⟨16, 1, .read⟩, .addAvail 1 ⟨32, 2, .write⟩]
          = some s
      ∧ virtqueueGetAvailableBuf s.dev s.mem = none
      ∧ s.published = [0, 1] ∧ s.taken = [] :=
    ⟨_, rfl, rfl, rfl, rfl⟩
  obtain ⟨s, hs, hnone, hpub, htaken⟩ := hrun
  have hvis := hall 2 s ⟨1, by decide, rfl⟩
    (Reachable.run (Reachable.init ⟨blankMem, rfl⟩) hs)
  have heq := hvis.1 hnone
  rw [hpub, htaken] at heq
  cases heq

end ProjectsLibs.Virtqueue
