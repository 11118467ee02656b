/-
What the functions of libvirtqueue do on memory that may hold anything.

The two functions that take from a ring mask the index, and the two that
gather check the descriptor: they never leave the arrays. The functions
that add use the index of the ring and the head of the free list as they
find them, and nothing bounds the walks along the `next` fields. The
condition under which a run is tolerated says what they rely on.

# Equations and faults

The functions here are those of the driver and the device with each
access checked. For each of them there is an equation with the version
that trusts the memory, under the condition on the index that the code
does not test, and where there is such a condition, a lemma that says
that the access leaves its array otherwise. So what the trusting version
does is proved once.

A walk along `next` fields has no bound in the code. It ends if the links
lead out of the table, and with as many links as descriptors this is
decided by following them for the length of the queue (`leavesTable_iff`,
by the pigeonhole principle). The run lemma carries the length of the
queue, which nobody else can write to, and which descriptors each handle
has yielded.
-/
import Mathlib.Data.Fintype.Card
import ProjectsLibs.Lib.Loop
import ProjectsLibs.Virtqueue.Hostile

namespace ProjectsLibs.Virtqueue

open Lib

variable {queueLen : Nat} {mem : Mem} {vq : Driver} {dev : Device}
  {obj : RingObject} {b : Buf}

-- ============================================================ one access

/-- An index within the table is loaded from. -/
theorem loadDesc_eq {i : Nat} (hi : i < queueLen) :
    loadDesc queueLen mem i = .ok (mem.desc i) := if_pos hi

/-- An index within the table is stored to. -/
theorem storeDesc_eq {i : Nat} {d : VringDesc} (hi : i < queueLen) :
    storeDesc queueLen mem i d
      = .ok { mem with desc := Function.update mem.desc i d } := if_pos hi

/-- A masked index is below the length. -/
theorem mask_lt (hq : ∃ k ≤ 31, queueLen = 2 ^ k) (x : Nat) :
    x &&& u32 (queueLen + (2 ^ 32 - 1)) < queueLen := by
  obtain ⟨k, hk, rfl⟩ := hq
  have hpos := Nat.two_pow_pos k
  have hle : 2 ^ k ≤ 2 ^ 31 := Nat.pow_le_pow_right (by decide) hk
  have hmask : u32 (2 ^ k + (2 ^ 32 - 1)) = 2 ^ k - 1 := by
    unfold u32
    omega
  rw [hmask, Nat.and_two_pow_sub_one_eq_mod]
  exact Nat.mod_lt _ hpos

-- =========================================================== driver side

/-- Where the head of the free list is in range, adding a descriptor is
what the trusting version does; the length itself is in range, since
nothing is stored there. -/
theorem addDesc_eq {prev : Nat} (h : vq.freeDescHead ≤ vq.queueLen) :
    addDesc vq mem b prev = .ok (vqAddDesc vq mem b prev) := by
  unfold addDesc vqAddDesc
  by_cases hfull : vq.freeDescHead = vq.queueLen
  · simp only [hfull, if_true]
  · have hlt : vq.freeDescHead < vq.queueLen := by omega
    simp only [hfull, if_false, loadDesc_eq hlt, storeDesc_eq hlt, ok_bind]
    by_cases hprev : prev < vq.queueLen
    · simp only [hprev, if_true, loadDesc_eq hprev, storeDesc_eq hprev,
        ok_bind]
    · simp only [hprev, if_false]

/-- Beyond it the store is outside of the table. -/
theorem addDesc_faults {prev : Nat} (h : vq.queueLen < vq.freeDescHead) :
    addDesc vq mem b prev = .error .bounds := by
  have hne : vq.freeDescHead ≠ vq.queueLen := by omega
  have hnot : ¬vq.freeDescHead < vq.queueLen := by omega
  unfold addDesc loadDesc
  simp only [hne, hnot, if_false]
  rfl

/-- Taking a descriptor back, with an index within the table, is what the
trusting version does. -/
theorem popDesc_eq {idx : Nat} (h : idx < vq.queueLen) :
    popDesc vq mem idx = .ok (vqPopDesc vq mem idx) := by
  unfold popDesc vqPopDesc
  simp only [loadDesc_eq h, storeDesc_eq h, ok_bind]

/-- What adding a descriptor leaves alone: the length and the ring that
says what is available. -/
theorem vqAddDesc_keeps (vq : Driver) (mem : Mem) (b : Buf) (prev : Nat) :
    (vqAddDesc vq mem b prev).1 = vq.freeDescHead
      ∧ (vqAddDesc vq mem b prev).2.1.queueLen = vq.queueLen
      ∧ (vqAddDesc vq mem b prev).2.2.avail = mem.avail := by
  unfold vqAddDesc
  by_cases hfull : vq.freeDescHead = vq.queueLen
  · simp [hfull]
  · simp [hfull]

/-- What `virtqueue_add_available_buf` relies on. -/
def AddFits (queueLen : Nat) (vq : Driver) (mem : Mem) (obj : RingObject) :
    Prop :=
  vq.freeDescHead = queueLen ∨ vq.freeDescHead < queueLen
    ∧ (queueLen ≤ obj.first → mem.avail.idx < queueLen)

/-- With both indices that it follows in range, the add is that of the
trusting version. -/
theorem addAvailableBuf_eq (h : AddFits vq.queueLen vq mem obj) :
    addAvailableBuf vq mem obj b
      = .ok (virtqueueAddAvailableBuf vq mem obj b) := by
  have hle : vq.freeDescHead ≤ vq.queueLen := by
    rcases h with heq | ⟨hlt, -⟩
    · omega
    · omega
  unfold addAvailableBuf virtqueueAddAvailableBuf
  rw [addDesc_eq hle, ok_bind]
  obtain ⟨hidx, hlen, havail⟩ := vqAddDesc_keeps vq mem b obj.cur
  generalize vqAddDesc vq mem b obj.cur = r at hidx hlen havail ⊢
  obtain ⟨idx, vq', mem'⟩ := r
  simp only at hlen havail hidx ⊢
  by_cases hfull : idx = vq'.queueLen
  · simp only [hfull, if_true]
  · by_cases hfirst : vq'.queueLen ≤ obj.first
    · have hring : mem'.avail.idx < vq'.queueLen := by
        rw [havail, hlen]
        rcases h with heq | ⟨-, hring⟩
        · exact absurd (hidx.trans (heq.trans hlen.symm)) hfull
        · exact hring (hlen ▸ hfirst)
      simp only [hfull, hfirst, hring, if_true, if_false, storeAvail, ok_bind]
    · simp only [hfull, hfirst, if_false]

/-- Otherwise it leaves an array. -/
theorem addAvailableBuf_faults (h : ¬AddFits vq.queueLen vq mem obj) :
    addAvailableBuf vq mem obj b = .error .bounds := by
  unfold AddFits at h
  push Not at h
  obtain ⟨hne, hrest⟩ := h
  unfold addAvailableBuf
  by_cases hlt : vq.freeDescHead < vq.queueLen
  · obtain ⟨hfirst, hring⟩ := hrest hlt
    rw [addDesc_eq (Nat.le_of_lt hlt), ok_bind]
    obtain ⟨hidx, hlen, havail⟩ := vqAddDesc_keeps vq mem b obj.cur
    generalize vqAddDesc vq mem b obj.cur = r at hidx hlen havail ⊢
    obtain ⟨idx, vq', mem'⟩ := r
    simp only at hlen havail hidx ⊢
    have hfull : idx ≠ vq'.queueLen := by
      rw [hidx, hlen]
      exact hne
    have hout : ¬mem'.avail.idx < vq'.queueLen := by
      rw [havail, hlen]
      exact Nat.not_lt.2 hring
    have hfirst' : vq'.queueLen ≤ obj.first := hlen ▸ hfirst
    simp only [hfull, hfirst', hout, if_true, if_false, storeAvail]
    rfl
  · rw [addDesc_faults (by omega)]
    rfl

/-- A slot is taken modulo the length, which is a power of two, so whatever
the peer writes there is a slot. -/
theorem getUsedBuf_eq (hq : ∃ k ≤ 31, vq.queueLen = 2 ^ k) :
    getUsedBuf vq mem = .ok (virtqueueGetUsedBuf vq mem) := by
  unfold getUsedBuf virtqueueGetUsedBuf
  have hlt := mask_lt hq (u32 (vq.uRingLastSeen + 1))
  simp only [loadUsed, hlt, if_true, ok_bind]
  split_ifs
  · rfl
  · rfl

/-- The iteration tests its index against the length before it follows it. -/
theorem gatherUsed_eq :
    gatherUsed vq mem obj = .ok (virtqueueGatherUsed vq mem obj) := by
  unfold gatherUsed virtqueueGatherUsed
  by_cases hend : vq.queueLen ≤ obj.cur
  · simp only [hend, if_true]
  · simp only [hend, if_false]
    rw [popDesc_eq (Nat.not_le.1 hend), ok_bind]

-- =========================================================== device side

/-- The device stores at the index of the used ring as it is, so that index
must be in range. -/
theorem addUsedBuf_eq {len : UInt32} (h : mem.used.idx < dev.queueLen) :
    addUsedBuf dev mem obj len
      = .ok (virtqueueAddUsedBuf dev mem obj len) := by
  unfold addUsedBuf virtqueueAddUsedBuf storeUsed
  simp only [h, if_true, ok_bind]

/-- If the peer has moved it out of range, the store is outside of the
ring. -/
theorem addUsedBuf_faults {len : UInt32} (h : ¬mem.used.idx < dev.queueLen) :
    addUsedBuf dev mem obj len = .error .bounds := by
  unfold addUsedBuf storeUsed
  simp only [h, if_false]
  rfl

/-- The same for the device's side: the slot is in range by the modulo. -/
theorem getAvailableBuf_eq (hq : ∃ k ≤ 31, dev.queueLen = 2 ^ k) :
    getAvailableBuf dev mem = .ok (virtqueueGetAvailableBuf dev mem) := by
  unfold getAvailableBuf virtqueueGetAvailableBuf
  have hlt := mask_lt hq (u32 (dev.aRingLastSeen + 1))
  simp only [loadAvail, hlt, if_true, ok_bind]
  split_ifs
  · rfl
  · rfl

/-- The device's iteration tests its index too. -/
theorem gatherAvailable_eq :
    gatherAvailable dev mem obj
      = .ok (virtqueueGatherAvailable dev mem obj) := by
  unfold gatherAvailable virtqueueGatherAvailable
  by_cases hend : dev.queueLen ≤ obj.cur
  · simp only [hend, if_true]
  · simp only [hend, if_false]
    rw [loadDesc_eq (Nat.not_le.1 hend), ok_bind]

-- ============================================================ the walk

/-- A round of the loop that adds up the lengths of a chain. -/
theorem scatteredLoop_step {fuel cur : Nat} {ret : UInt32}
    (h : cur < dev.queueLen) :
    scatteredLoop dev mem (fuel + 1) cur ret = scatteredLoop dev mem fuel
      (mem.desc cur).next (ret + (mem.desc cur).len) := by
  rw [scatteredLoop, if_pos h, loadDesc_eq h, ok_bind]

/-- The loop ends if the links lead out of the table. -/
theorem scatteredLoop_ends {n fuel cur : Nat} {ret : UInt32}
    (h : dev.queueLen ≤ Nat.iterate (nextOf mem.desc) n cur)
    (hfuel : n < fuel) :
    ∃ size, scatteredLoop dev mem fuel cur ret = .ok size := by
  induction n generalizing fuel cur ret with
  | zero =>
      obtain ⟨fuel, rfl⟩ :=
        Nat.exists_eq_succ_of_ne_zero (by omega : fuel ≠ 0)
      have hcur : ¬cur < dev.queueLen := Nat.not_lt.2 h
      exact ⟨ret, by rw [scatteredLoop, if_neg hcur]⟩
  | succ n ih =>
      obtain ⟨fuel, rfl⟩ :=
        Nat.exists_eq_succ_of_ne_zero (by omega : fuel ≠ 0)
      by_cases hcur : cur < dev.queueLen
      · rw [scatteredLoop_step hcur]
        exact ih h (by omega)
      · exact ⟨ret, by rw [scatteredLoop, if_neg hcur]⟩

/-- A loop that ends has been led out of the table. -/
theorem scatteredLoop_leaves {fuel cur : Nat} {ret size : UInt32}
    (h : scatteredLoop dev mem fuel cur ret = .ok size) :
    ∃ n, dev.queueLen ≤ Nat.iterate (nextOf mem.desc) n cur := by
  induction fuel generalizing cur ret with
  | zero => cases h
  | succ fuel ih =>
      by_cases hcur : cur < dev.queueLen
      · rw [scatteredLoop_step hcur] at h
        obtain ⟨n, hn⟩ := ih h
        exact ⟨n + 1, hn⟩
      · exact ⟨0, Nat.not_lt.1 hcur⟩

/-- A descriptor that comes again comes again for ever. -/
theorem iterate_ne {f : Nat → Nat} {first n i j : Nat}
    (hn : queueLen ≤ Nat.iterate f n first)
    (hmin : ∀ i < n, Nat.iterate f i first < queueLen) (hij : i < j)
    (hj : j < n) : Nat.iterate f i first ≠ Nat.iterate f j first := by
  intro heq
  have hback : Nat.iterate f n first
      = Nat.iterate f (n - j + i) first := by
    rw [Function.iterate_add_apply, heq, ← Function.iterate_add_apply,
      Nat.sub_add_cancel (Nat.le_of_lt hj)]
  rw [hback] at hn
  exact absurd (hmin (n - j + i) (by omega)) (Nat.not_lt.2 hn)

/-- Links that lead out of the table do so within its length: no
descriptor comes twice before. -/
theorem leavesTable_iff {first : Nat} :
    LeavesTable queueLen mem first
      ↔ ∃ n, queueLen ≤ Nat.iterate (nextOf mem.desc) n first := by
  constructor
  · rintro ⟨n, -, hn⟩
    exact ⟨n, hn⟩
  · intro hex
    classical
    obtain ⟨n, hn, hmin⟩ : ∃ n,
        queueLen ≤ Nat.iterate (nextOf mem.desc) n first
        ∧ ∀ i < n, Nat.iterate (nextOf mem.desc) i first < queueLen :=
      ⟨Nat.find hex, Nat.find_spec hex,
        fun i hi => Nat.not_le.1 (Nat.find_min hex hi)⟩
    refine ⟨n, ?_, hn⟩
    have hinj : Function.Injective fun i : Fin n =>
        (⟨Nat.iterate (nextOf mem.desc) i first, hmin i i.isLt⟩
          : Fin queueLen) := by
      intro i j hij
      have hij : Nat.iterate (nextOf mem.desc) i first
          = Nat.iterate (nextOf mem.desc) j first := congrArg Fin.val hij
      by_contra hne
      rcases Nat.lt_or_gt_of_ne (fun he => hne (Fin.ext he)) with hlt | hlt
      · exact iterate_ne hn hmin hlt j.isLt hij
      · exact iterate_ne hn hmin hlt i.isLt hij.symm
    have hcard := Fintype.card_le_of_injective _ hinj
    simpa using hcard

/-- A loop that has not ended after `queue_len` iterations never ends. -/
theorem scatteredLoop_endless {first : Nat}
    (h : ¬LeavesTable dev.queueLen mem first) (fuel : Nat) (ret : UInt32) :
    scatteredLoop dev mem fuel first ret = .error .endless := by
  cases hloop : scatteredLoop dev mem fuel first ret with
  | ok size => exact absurd (leavesTable_iff.2 (scatteredLoop_leaves hloop)) h
  | error e =>
      congr 1
      induction fuel generalizing first ret with
      | zero =>
          cases hloop
          rfl
      | succ fuel ih =>
          by_cases hcur : first < dev.queueLen
          · rw [scatteredLoop_step hcur] at hloop
            refine ih ?_ _ hloop
            rw [leavesTable_iff] at h ⊢
            rintro ⟨n, hn⟩
            exact h ⟨n + 1, hn⟩
          · rw [scatteredLoop, if_neg hcur] at hloop
            cases hloop

/-- The size is returned if the links that the peer has written lead out of
the table. -/
theorem scatteredAvailableSize_eq
    (h : LeavesTable dev.queueLen mem obj.first) :
    ∃ size, scatteredAvailableSize dev mem obj = .ok size := by
  obtain ⟨n, hn, hout⟩ := h
  exact scatteredLoop_ends hout (Nat.lt_succ_of_le hn)

-- ================================================================== runs

/-- What a run keeps. -/
structure HostileInv (queueLen : Nat) (s : Exposed) : Prop where
  drv : s.drv.queueLen = queueLen
  dev : s.dev.queueLen = queueLen
  fault : s.fault = none
  below : ∀ h, ∀ i ∈ s.gathered h, i < queueLen
  distinct : ∀ h, (s.gathered h).Nodup

variable {s s' : Exposed}

/-- The invariant gives what is to be tolerated: nothing has faulted, and
no iteration has come to a descriptor twice. -/
theorem HostileInv.tolerated (h : HostileInv queueLen s) :
    Tolerated queueLen s := by
  refine ⟨h.fault, fun k => ?_⟩
  have hsub : s.gathered k ⊆ List.range queueLen :=
    fun i hi => List.mem_range.2 (h.below k i hi)
  have hlen := ((h.distinct k).subperm hsub).length_le
  rw [List.length_range] at hlen
  exact hlen

/-- A call sets a handle. -/
theorem HostileInv.setHandle (h : HostileInv queueLen s) (k : Nat)
    (obj : RingObject) : HostileInv queueLen (s.setHandle k obj) where
  drv := h.drv
  dev := h.dev
  fault := h.fault
  below m := by
    by_cases hm : m = k
    · subst hm
      simp [Exposed.setHandle]
    · simpa [Exposed.setHandle, hm] using h.below m
  distinct m := by
    by_cases hm : m = k
    · subst hm
      simp [Exposed.setHandle]
    · simpa [Exposed.setHandle, hm] using h.distinct m

/-- A call gathers a descriptor that the handle has not yielded yet. -/
theorem HostileInv.gather (h : HostileInv queueLen s) {k : Nat}
    (hcur : (s.handles k).cur < queueLen) (hnew : NoReturn s k)
    (obj : RingObject) : HostileInv queueLen (s.gather k obj) where
  drv := h.drv
  dev := h.dev
  fault := h.fault
  below m := by
    by_cases hm : m = k
    · subst hm
      intro i hi
      simp only [Exposed.gather, Function.update_self, List.mem_append,
        List.mem_singleton] at hi
      rcases hi with hi | rfl
      · exact h.below m i hi
      · exact hcur
    · simpa [Exposed.gather, hm] using h.below m
  distinct m := by
    by_cases hm : m = k
    · subst hm
      simp only [Exposed.gather, Function.update_self]
      rw [← List.concat_eq_append]
      exact (h.distinct m).concat hnew
    · simpa [Exposed.gather, hm] using h.distinct m

/-- Other memory, and endpoints of the same length. -/
theorem HostileInv.frame (h : HostileInv queueLen s) {drv : Driver}
    {dev : Device} (hdrv : drv.queueLen = queueLen)
    (hdev : dev.queueLen = queueLen) (mem : Mem) :
    HostileInv queueLen { s with drv := drv, dev := dev, mem := mem } :=
  ⟨hdrv, hdev, h.fault, h.below, h.distinct⟩

/-- No call changes the length that the handle was made with, the one
number that every test relies on. -/
theorem virtqueueAddAvailableBuf_queueLen (vq : Driver) (mem : Mem)
    (obj : RingObject) (b : Buf) :
    (virtqueueAddAvailableBuf vq mem obj b).2.1.queueLen = vq.queueLen := by
  obtain ⟨-, hlen, -⟩ := vqAddDesc_keeps vq mem b obj.cur
  unfold virtqueueAddAvailableBuf
  generalize vqAddDesc vq mem b obj.cur = r at hlen ⊢
  obtain ⟨idx, vq', mem'⟩ := r
  simp only
  split_ifs
  · exact hlen
  · exact hlen
  · exact hlen

/-- The length of the queue is the driver's own, and no call changes it. -/
theorem virtqueueGetUsedBuf_queueLen {r : Driver × RingObject × UInt32}
    (h : virtqueueGetUsedBuf vq mem = some r) :
    r.1.queueLen = vq.queueLen := by
  simp only [virtqueueGetUsedBuf] at h
  split_ifs at h
  cases h
  rfl

theorem virtqueueGetAvailableBuf_queueLen {r : Device × RingObject}
    (h : virtqueueGetAvailableBuf dev mem = some r) :
    r.1.queueLen = dev.queueLen := by
  simp only [virtqueueGetAvailableBuf] at h
  split_ifs at h
  cases h
  rfl

/-- A descriptor is read only inside the table, whatever the other side
wrote. -/
theorem virtqueueGatherUsed_queueLen {r : Buf × Driver × Mem × RingObject}
    (h : virtqueueGatherUsed vq mem obj = some r) :
    obj.cur < vq.queueLen ∧ r.2.1.queueLen = vq.queueLen := by
  simp only [virtqueueGatherUsed] at h
  split_ifs at h with hend
  cases h
  exact ⟨Nat.not_le.1 hend, rfl⟩

/-- A step that meets the condition keeps the invariant, whatever the peer
has written before it. -/
theorem HostileInv.step (hq : ∃ k ≤ 31, queueLen = 2 ^ k)
    (h : HostileInv queueLen s) {op : HostileOp}
    (hok : HostileOk queueLen s op) (hstep : hostileStep s op = some s') :
    HostileInv queueLen s' := by
  unfold hostileStep at hstep
  rw [if_neg (not_not.2 h.fault), Option.some.injEq] at hstep
  subst hstep
  have hdrv : ∃ k ≤ 31, s.drv.queueLen = 2 ^ k := h.drv.symm ▸ hq
  have hdev : ∃ k ≤ 31, s.dev.queueLen = 2 ^ k := h.dev.symm ▸ hq
  cases op with
  | peer mem => exact h.frame h.drv h.dev mem
  | initHandle k => exact h.setHandle k _
  | addAvail k b =>
      have hfits : AddFits s.drv.queueLen s.drv s.mem (s.handles k) := by
        rw [h.drv]
        exact hok
      have hlen := virtqueueAddAvailableBuf_queueLen s.drv s.mem
        (s.handles k) b
      simp only [addAvailableBuf_eq hfits, Exposed.after]
      have hkeep := h.frame (hlen.trans h.drv) h.dev
        (virtqueueAddAvailableBuf s.drv s.mem (s.handles k) b).2.2.1
      split_ifs
      · exact hkeep
      · exact hkeep.setHandle k _
  | getUsed k =>
      simp only [getUsedBuf_eq hdrv, Exposed.after]
      cases hget : virtqueueGetUsedBuf s.drv s.mem with
      | none => exact h
      | some r =>
          have hlen := virtqueueGetUsedBuf_queueLen hget
          exact (h.frame (hlen.trans h.drv) h.dev s.mem).setHandle k _
  | gatherUsed k =>
      simp only [gatherUsed_eq, Exposed.after]
      cases hget : virtqueueGatherUsed s.drv s.mem (s.handles k) with
      | none => exact h
      | some r =>
          obtain ⟨hcur, hlen⟩ := virtqueueGatherUsed_queueLen hget
          have hkeep := h.frame (hlen.trans h.drv) h.dev r.2.2.1
          exact hkeep.gather (h.drv ▸ hcur) hok _
  | getAvail k =>
      simp only [getAvailableBuf_eq hdev, Exposed.after]
      cases hget : virtqueueGetAvailableBuf s.dev s.mem with
      | none => exact h
      | some r =>
          have hlen := virtqueueGetAvailableBuf_queueLen hget
          exact (h.frame h.drv (hlen.trans h.dev) s.mem).setHandle k _
  | gatherAvail k =>
      simp only [gatherAvailable_eq, Exposed.after]
      unfold virtqueueGatherAvailable
      by_cases hend : s.dev.queueLen ≤ (s.handles k).cur
      · simp only [hend, if_true]
        exact h
      · simp only [hend, if_false]
        have hcur : (s.handles k).cur < queueLen :=
          h.dev ▸ Nat.not_le.1 hend
        exact h.gather hcur hok _
  | size k =>
      have hleaves : LeavesTable s.dev.queueLen s.mem (s.handles k).first := by
        rw [h.dev]
        exact hok
      obtain ⟨size, hsize⟩ := scatteredAvailableSize_eq hleaves
      simp only [hsize, Exposed.after]
      exact h
  -- the one store of the device goes to the shared index
  | addUsed k len =>
      have hidx : s.mem.used.idx < s.dev.queueLen := by
        rw [h.dev]
        exact hok
      simp only [addUsedBuf_eq hidx, Exposed.after]
      exact h.frame h.drv h.dev _

/-- A step that does not meet the condition faults, or gathers a descriptor
again. -/
theorem HostileInv.step_bad (h : HostileInv queueLen s) {op : HostileOp}
    (hok : ¬HostileOk queueLen s op) (hstep : hostileStep s op = some s') :
    s'.fault ≠ none ∨ ∃ k, ¬(s'.gathered k).Nodup := by
  -- an iteration that comes to a descriptor again has it twice in its list
  have hagain : ∀ k obj, ¬NoReturn s k →
      ¬((s.gather k obj).gathered k).Nodup := by
    intro k obj hmem hnd
    have hmem : (s.handles k).cur ∈ s.gathered k := not_not.1 hmem
    simp only [Exposed.gather, Function.update_self] at hnd
    have hdisj := (List.nodup_append.1 hnd).2.2
    exact hdisj _ hmem _ (List.mem_singleton.2 rfl) rfl
  unfold hostileStep at hstep
  rw [if_neg (not_not.2 h.fault), Option.some.injEq] at hstep
  subst hstep
  cases op with
  | peer mem => exact absurd trivial hok
  | initHandle k => exact absurd trivial hok
  | addAvail k b =>
      have hfits : ¬AddFits s.drv.queueLen s.drv s.mem (s.handles k) := by
        rw [h.drv]
        exact hok
      simp only [addAvailableBuf_faults hfits, Exposed.after]
      exact .inl nofun
  | getUsed k => exact absurd trivial hok
  | gatherUsed k =>
      have hcur : (s.handles k).cur < s.drv.queueLen :=
        h.drv ▸ h.below k _ (not_not.1 hok)
      simp only [gatherUsed_eq, Exposed.after, virtqueueGatherUsed,
        Nat.not_le.2 hcur, if_false]
      exact .inr ⟨k, hagain k (s.handles k) hok⟩
  | getAvail k => exact absurd trivial hok
  | gatherAvail k =>
      have hcur : (s.handles k).cur < s.dev.queueLen :=
        h.dev ▸ h.below k _ (not_not.1 hok)
      simp only [gatherAvailable_eq, Exposed.after, virtqueueGatherAvailable,
        Nat.not_le.2 hcur, if_false]
      exact .inr ⟨k, hagain k _ hok⟩
  | size k =>
      have hleaves : ¬LeavesTable s.dev.queueLen s.mem
          (s.handles k).first := by
        rw [h.dev]
        exact hok
      simp only [scatteredAvailableSize, scatteredLoop_endless hleaves,
        Exposed.after]
      exact .inl nofun
  | addUsed k len =>
      have hidx : ¬s.mem.used.idx < s.dev.queueLen := by
        rw [h.dev]
        exact hok
      simp only [addUsedBuf_faults hidx, Exposed.after]
      exact .inl nofun

/-- Before anything is done the handles are at the end of the table. -/
theorem HostileInit.inv (h : HostileInit queueLen s) :
    HostileInv queueLen s where
  drv := by
    obtain ⟨mem, hdrv⟩ := h.drv
    rw [hdrv]
    rfl
  dev := by
    rw [h.dev]
    rfl
  fault := h.fault
  below k := by
    rw [h.gathered k]
    nofun
  distinct k := by
    rw [h.gathered k]
    exact List.nodup_nil

/-- A run on memory that others write to is tolerated as long as the
indices that the code does not check are below the length, and the links
that it follows without a bound do not lead back. -/
theorem tolerated_of_checked (hq : ∃ k ≤ 31, queueLen = 2 ^ k)
    (h : Reachable (HostileInit queueLen) hostileStep (HostileOk queueLen) s) :
    Tolerated queueLen s := by
  have hinv : HostileInv queueLen s := by
    apply Reachable.invariant _ _ h
    · exact fun _ hinit => hinit.inv
    · exact fun _ _ _ hinv hok hstep => hinv.step hq hok hstep
  exact hinv.tolerated

/-- Memory whose descriptors all link to `next`. -/
def linkedMem (next availIdx usedIdx : Nat) : Mem where
  desc := fun _ => ⟨0, 1, .read, next⟩
  avail := ⟨0, availIdx, fun _ => 0⟩
  used := ⟨0, usedIdx, fun _ => ⟨99, 1⟩⟩

/-- A queue that was just initialised. -/
def freshQueue (queueLen : Nat) : Exposed where
  drv := (virtqueueInitDriver queueLen (linkedMem 0 0 0)).1
  dev := virtqueueInitDevice queueLen
  mem := (virtqueueInitDriver queueLen (linkedMem 0 0 0)).2
  handles := fun _ => virtqueueInitRingObject
  gathered := fun _ => []
  fault := none

/-- The queue as it is set up, whatever is in the shared memory. -/
theorem freshQueue_init (queueLen : Nat) :
    HostileInit queueLen (freshQueue queueLen) :=
  ⟨⟨linkedMem 0 0 0, rfl⟩, rfl, fun _ => rfl, fun _ => rfl, rfl⟩

/-- The calls of a device that looks at one chain. -/
def deviceCalls : List HostileOp :=
  [.getAvail 1, .size 1, .gatherAvail 1, .gatherAvail 1, .addUsed 1 7]

/-- A chain of two buffers is taken and returned, and then the peer writes
a descriptor number that is not in the table. -/
theorem tolerated_of_checked_sample :
    ∃ s, run hostileStep (freshQueue 4) ([.addAvail 0 ⟨1, 2, .read⟩,
        .addAvail 0 ⟨3, 4, .read⟩] ++ deviceCalls
          ++ [.peer (linkedMem 0 1 1),
        .getUsed 2, .gatherUsed 2]) = some s
      ∧ s.gathered 1 = [0, 1] ∧ (s.handles 2).cur = 99
      ∧ Tolerated 4 s := by
  have hany : (run hostileStep (freshQueue 4) ([.addAvail 0 ⟨1, 2, .read⟩,
      .addAvail 0 ⟨3, 4, .read⟩] ++ deviceCalls ++ [.peer (linkedMem 0 1 1),
      .getUsed 2, .gatherUsed 2])).any (fun s => decide
        (s.gathered 1 = [0, 1] ∧ (s.handles 2).cur = 99)) = true := by
    decide +kernel
  obtain ⟨s, hrun, hbool⟩ := (Option.any_eq_true ..).1 hany
  obtain ⟨hgathered, hcur⟩ := of_decide_eq_true hbool
  refine ⟨s, hrun, hgathered, hcur, ?_⟩
  refine tolerated_of_checked ⟨2, by decide, by decide⟩
    ((Reachable.init (freshQueue_init 4)).run_allSteps hrun ?_)
  decide +kernel

/-- A peer writes an index of the used ring, a `next` field, or a chain
that leads back to itself: two calls leave an array, one does not end, and
a handle of a queue of four yields a fifth buffer. -/
theorem shared_index_unchecked :
    (∃ s, run hostileStep (freshQueue 4)
        [.peer (linkedMem 4 1 9), .addUsed 0 7] = some s
      ∧ s.fault = some .bounds ∧ ¬Tolerated 4 s)
    ∧ (∃ s, run hostileStep (freshQueue 4) [.peer (linkedMem 9 0 0),
        .addAvail 0 ⟨1, 2, .read⟩, .addAvail 0 ⟨3, 4, .read⟩] = some s
      ∧ s.fault = some .bounds ∧ ¬Tolerated 4 s)
    ∧ (∃ s, run hostileStep (freshQueue 4)
        [.peer (linkedMem 0 1 0), .getAvail 0, .size 0] = some s
      ∧ s.fault = some .endless ∧ ¬Tolerated 4 s)
    ∧ ∃ s, run hostileStep (freshQueue 4) (.peer (linkedMem 0 1 0)
        :: .getAvail 0 :: List.replicate 5 (.gatherAvail 0)) = some s
      ∧ (s.gathered 0).length = 5 ∧ ¬Tolerated 4 s := by
  -- a fault ends what is tolerated
  have hfault : ∀ {s : Exposed} {e : Fault}, s.fault = some e →
      ¬Tolerated 4 s := by
    intro s e he htol
    rw [htol.fault] at he
    cases he
  refine ⟨?_, ?_, ?_, ?_⟩
  · have hany : (run hostileStep (freshQueue 4)
        [.peer (linkedMem 4 1 9), .addUsed 0 7]).any
        (fun s => s.fault == some .bounds) = true := by
      decide +kernel
    obtain ⟨s, hrun, hbool⟩ := (Option.any_eq_true ..).1 hany
    have hs := eq_of_beq hbool
    exact ⟨s, hrun, hs, hfault hs⟩
  · have hany : (run hostileStep (freshQueue 4) [.peer (linkedMem 9 0 0),
        .addAvail 0 ⟨1, 2, .read⟩, .addAvail 0 ⟨3, 4, .read⟩]).any
        (fun s => s.fault == some .bounds) = true := by
      decide +kernel
    obtain ⟨s, hrun, hbool⟩ := (Option.any_eq_true ..).1 hany
    have hs := eq_of_beq hbool
    exact ⟨s, hrun, hs, hfault hs⟩
  · have hany : (run hostileStep (freshQueue 4)
        [.peer (linkedMem 0 1 0), .getAvail 0, .size 0]).any
        (fun s => s.fault == some .endless) = true := by
      decide +kernel
    obtain ⟨s, hrun, hbool⟩ := (Option.any_eq_true ..).1 hany
    have hs := eq_of_beq hbool
    exact ⟨s, hrun, hs, hfault hs⟩
  · have hany : (run hostileStep (freshQueue 4) (.peer (linkedMem 0 1 0)
        :: .getAvail 0 :: List.replicate 5 (.gatherAvail 0))).any
        (fun s => (s.gathered 0).length == 5) = true := by
      decide +kernel
    obtain ⟨s, hrun, hbool⟩ := (Option.any_eq_true ..).1 hany
    have hs := eq_of_beq hbool
    refine ⟨s, hrun, hs, fun htol => ?_⟩
    have hle := htol.gathered 0
    rw [hs] at hle
    omega

end ProjectsLibs.Virtqueue
