/-
`virtqueue_gather_used` keeps the invariant, and with it every call:
the invariant holds in every reachable state (`inv_reachable`).

A reaping call moves the first unreaped descriptor of its chain to the
head of the free list. It rewrites one link, which no other list of the
table contains.

# Why nothing else changes

The descriptor that is reaped is the first of the part of its chain that
has not been reaped, and the handle of the driver points at it. Its link
is overwritten with the old head of the free list. The rest of the chain
begins at the link that the code has read before that store, and no other
chain contains the descriptor, because together with the free list the
chains are a permutation of all descriptors. So conservation is an
equation between two permutations (`reap_conserved`).

With this call all of them are covered, and the run lemma at the end is
an induction over the calls with one case for each.
-/
import ProjectsLibs.Virtqueue.Proofs.AddAvailable
import ProjectsLibs.Virtqueue.Proofs.Handover

namespace ProjectsLibs.Virtqueue

open Lib

variable {queueLen : Nat} {s : System}

-- ========================================================== gather_used

/-- The end of the driver's iteration: nothing is left to reap. -/
theorem ChainInv.reap_end {desc : Nat → VringDesc} {ch : Chain}
    {o : RingObject} (h : ChainInv queueLen desc ch)
    (hlt : ∀ x ∈ ch.rem, x < queueLen) (hdrv : ch.drv = some o)
    (hcur : queueLen ≤ o.cur) :
    ChainInv queueLen desc { ch with drvLog := ch.drvLog ++ [none] } := by
  have hlen : ch.freed.length = min ch.drvLog.length ch.idxs.length := by
    have := congrArg List.length h.freed_eq
    rwa [List.length_take] at this
  have hend : ch.idxs.length ≤ ch.drvLog.length := by
    have hpos := h.drv_cur o hdrv
    cases hx : ch.idxs[ch.drvLog.length]? with
    | some x =>
        obtain ⟨hin, -⟩ := List.getElem?_eq_some_iff.1 hx
        have hmem : x ∈ ch.rem := by
          refine List.mem_of_getElem? (i := 0) ?_
          rw [Chain.rem, List.getElem?_drop, Nat.add_zero, hlen,
            Nat.min_eq_left (Nat.le_of_lt hin)]
          exact hx
        have := hlt x hmem
        rw [hx, Option.getD_some] at hpos
        omega
    | none => exact List.getElem?_eq_none_iff.1 hx
  exact
    { h with
      drv_none := fun hn => by rw [hdrv] at hn; cases hn
      drv_cur := by
        intro o' ho'
        rw [h.drv_cur o' ho', List.getElem?_eq_none hend,
          List.getElem?_eq_none (by
            rw [List.length_append, List.length_singleton]
            exact Nat.le_succ_of_le hend)]
      drv_log := by
        intro i r hi
        rcases Nat.lt_or_ge i ch.drvLog.length with hlog | hlog
        · exact h.drv_log i r ((List.getElem?_append_left hlog).symm.trans hi)
        · simp only [List.getElem?_append_right hlog,
            List.getElem?_singleton] at hi
          split at hi
          · cases hi
            have hle : ch.bufs.length ≤ i := by
              rw [← h.len_eq]
              exact Nat.le_trans hend hlog
            exact (List.getElem?_eq_none hle).symm
          · cases hi
      freed_eq := by
        have hall := h.freed_eq
        rw [List.take_of_length_le hend] at hall
        simp only [List.length_append, List.length_singleton]
        rw [List.take_of_length_le (Nat.le_succ_of_le hend)]
        exact hall }

/-- The descriptor under the driver's handle is the first one not yet
reaped. -/
theorem ChainInv.reap_head {desc : Nat → VringDesc} {ch : Chain}
    {o : RingObject} (h : ChainInv queueLen desc ch)
    (hdrv : ch.drv = some o) (hcur : o.cur < queueLen) :
    ch.freed.length = ch.drvLog.length
      ∧ ch.idxs[ch.drvLog.length]? = some o.cur
      ∧ ch.rem = o.cur :: ch.idxs.drop (ch.drvLog.length + 1) := by
  have hpos := h.drv_cur o hdrv
  have hx : ch.idxs[ch.drvLog.length]? = some o.cur := by
    cases hx : ch.idxs[ch.drvLog.length]? with
    | some x =>
        rw [hx, Option.getD_some] at hpos
        rw [hpos]
    | none =>
        rw [hx, Option.getD_none] at hpos
        omega
  obtain ⟨hin, hget⟩ := List.getElem?_eq_some_iff.1 hx
  have hlen : ch.freed.length = ch.drvLog.length := by
    have := congrArg List.length h.freed_eq
    rw [List.length_take] at this
    omega
  refine ⟨hlen, hx, ?_⟩
  rw [Chain.rem, hlen, List.drop_eq_getElem_cons hin, hget]

/-- Reaping the next buffer: its descriptor leaves the chain. -/
theorem ChainInv.reap_next {desc : Nat → VringDesc} {ch : Chain}
    {o : RingObject} (h : ChainInv queueLen desc ch)
    (hnd : ch.rem.Nodup) (hdrv : ch.drv = some o) (hcur : o.cur < queueLen)
    (v : Nat) :
    ChainInv queueLen
      (Function.update desc o.cur { desc o.cur with next := v })
      { ch with
        drv := some { o with cur := (desc o.cur).next }
        drvLog := ch.drvLog ++ [some (desc o.cur).buf]
        freed := ch.freed ++ [o.cur] } := by
  obtain ⟨hlen, hidx, hrem⟩ := h.reap_head hdrv hcur
  rw [hrem, List.nodup_cons] at hnd
  have hlinks := h.links
  rw [hrem] at hlinks
  obtain ⟨-, -, htail⟩ := hlinks
  -- the link is read before the descriptor goes to the free list
  have hnext : (desc o.cur).next
      = ch.idxs[ch.drvLog.length + 1]?.getD queueLen := by
    have hstart := htail.start_eq_head
    rw [List.head?_drop] at hstart
    exact hstart
  -- the rest of the chain does not come through the descriptor that is
  -- freed
  have hframe : ∀ y ∈ ch.idxs.drop (ch.drvLog.length + 1),
      Function.update desc o.cur { desc o.cur with next := v } y
        = desc y := by
    intro y hy
    have hyx : y ≠ o.cur := fun e => hnd.1 (e ▸ hy)
    exact Function.update_of_ne hyx _ _
  have hbuf := h.bufs_eq _ _ (Nat.le_of_eq hlen) hidx
  exact
    { h with
      links := by
        simp only [Chain.rem, List.length_append, List.length_singleton, hlen]
        rw [List.head?_drop, ← hnext]
        exact htail.congr fun y hy => by simp only [nextOf, hframe y hy]
      bufs_eq := by
        intro i y hi hy
        simp only [List.length_append, List.length_singleton, hlen] at hi
        have hmem : y ∈ ch.idxs.drop (ch.drvLog.length + 1) := by
          refine List.mem_of_getElem?
            (i := i - (ch.drvLog.length + 1)) ?_
          rw [List.getElem?_drop, Nat.add_sub_cancel' hi]
          exact hy
        rw [hframe y hmem]
        exact h.bufs_eq i y (by omega) hy
      drv_none := fun hn => by cases hn
      drv_first := by
        rintro o' ⟨⟩
        exact h.drv_first o hdrv
      drv_cur := by
        rintro o' ⟨⟩
        simp only [List.length_append, List.length_singleton]
        exact hnext
      drv_log := by
        intro i r hi
        rcases Nat.lt_or_ge i ch.drvLog.length with hlog | hlog
        · exact h.drv_log i r ((List.getElem?_append_left hlog).symm.trans hi)
        · simp only [List.getElem?_append_right hlog,
            List.getElem?_singleton] at hi
          split at hi
          · next hz =>
            cases hi
            have hi' : i = ch.drvLog.length := by omega
            subst hi'
            exact hbuf.symm
          · cases hi
      freed_eq := by
        have hold := h.freed_eq
        simp only [List.length_append, List.length_singleton]
        rw [List.take_add_one, hidx, ← hold]
        rfl }

/-- Moving the first unreaped descriptor of the chain `c` to the free
list: conservation for the new table. -/
theorem reap_conserved {s' : System} {c x : Nat} {free : List Nat}
    (h : Inv queueLen s) (hfree : Conserved queueLen s free)
    (hhead : s'.drv.freeDescHead = x)
    (hnext : nextOf s'.mem.desc
      = Function.update (nextOf s.mem.desc) x s.drv.freeDescHead)
    (hrem : (s.chains c).rem = x :: (s'.chains c).rem)
    (hother : ∀ d, d ≠ c → s'.chains d = s.chains d)
    (hpub : s'.pub = s.pub) : Conserved queueLen s' (x :: free) := by
  have hmem : x ∈ (s.chains c).rem := by
    rw [hrem]
    exact List.mem_cons_self ..
  have hnfree : x ∉ free := fun hm => h.free_disjoint hfree hm hmem
  refine ⟨⟨hhead, Nat.ne_of_lt (h.rem_lt hmem), ?_⟩, ?_⟩
  · rw [hnext, Function.update_self]
    exact hfree.1.update_of_notMem hnfree
  · have hpieces : ∀ d, d ≠ c → (s'.chains d).rem = (s.chains d).rem :=
      fun d hd => by rw [hother d hd]
    obtain ⟨rest, hold, hnew⟩ :=
      exists_rest (h.pub_of_mem_rem hmem) h.phases.pub_nodup hpieces
    rw [hrem] at hold
    rw [hpub]
    have hmove : (x :: free ++ ((s'.chains c).rem ++ rest)).Perm
        (free ++ (x :: (s'.chains c).rem ++ rest)) := by
      simp only [List.perm_iff_count, List.count_append, List.count_cons]
      intro a
      omega
    exact (hnew.append_left _).trans
      (hmove.trans ((hold.symm.append_left _).trans hfree.2))

/-- `virtqueue_gather_used` keeps the invariant: the descriptor moves
from the chain to the head of the free list. -/
theorem inv_gatherUsed (hq : QueueLen queueLen) (h : Inv queueLen s)
    {c : Nat} {robj : RingObject} (hdrv : (s.chains c).drv = some robj) :
    Inv queueLen (gatherUsedStep s c robj) := by
  have hch := h.chain c
  unfold gatherUsedStep virtqueueGatherUsed
  rw [h.drv_len]
  by_cases hcur : queueLen ≤ robj.cur
  · simp only [if_pos hcur]
    exact h.replace c (hch.reap_end (fun x hx => h.rem_lt hx) hdrv hcur)
      rfl rfl
  simp only [if_neg hcur, vqPopDesc]
  have hlt : robj.cur < queueLen := by omega
  obtain ⟨free, hfree⟩ := h.conserved
  obtain ⟨hlen, -, hrem⟩ := hch.reap_head hdrv hlt
  have hmem : robj.cur ∈ (s.chains c).rem := by
    rw [hrem]
    exact List.mem_cons_self ..
  have hcnd : (s.chains c).rem.Nodup :=
    (List.nodup_flatMap.1 (List.nodup_append.1 (h.nodup hfree)).2.1).1 c
      (h.pub_of_mem_rem hmem)
  have hhead : u16 s.drv.freeDescHead = s.drv.freeDescHead :=
    u16_of_le hq (h.head_le hfree)
  rw [hhead]
  have hnew := hch.reap_next hcnd hdrv hlt s.drv.freeDescHead
  have hold : ∀ d, d ≠ c → ChainInv queueLen (Function.update s.mem.desc
      robj.cur { s.mem.desc robj.cur with next := s.drv.freeDescHead })
      (s.chains d) := by
    intro d hd
    refine (h.chain d).of_agree fun y hy => Function.update_of_ne ?_ _ _
    rintro rfl
    exact h.rem_disjoint (Ne.symm hd) hmem hy
  exact
    { drv_len := h.drv_len
      dev_len := h.dev_len
      chain := forall_update hnew hold
      conserved := by
        refine ⟨robj.cur :: free, reap_conserved (c := c) h hfree rfl
          (nextOf_update _ _ _) ?_ (fun d hd => Function.update_of_ne hd _ _)
          rfl⟩
        rw [hrem]
        simp [Chain.rem, hlen]
      phases := by
        rw [map_update Chain.view (by simp [Chain.view, hdrv])]
        exact h.phases
      avail := h.avail
      used := h.used }

-- ============================================================= the runs

/-- One call keeps the invariant. -/
theorem inv_step (hq : QueueLen queueLen) {s s' : System} {a : Act}
    (h : Inv queueLen s) (hstep : step s a = some s') : Inv queueLen s' := by
  cases a with
  | addAvail c b =>
      simp only [step] at hstep
      split at hstep
      · next hfreed =>
        cases hstep
        exact inv_addAvail hq h c b hfreed
      · cases hstep
  | getAvail =>
      cases hstep
      exact inv_getAvail hq h
  | gatherAvail c =>
      simp only [step] at hstep
      split at hstep
      · next robj hdev =>
        cases hstep
        exact inv_gatherAvail h hdev
      · cases hstep
  | addUsed c len =>
      simp only [step] at hstep
      split at hstep
      · next robj hdev hr =>
        cases hstep
        exact inv_addUsed hq h len hdev hr
      · cases hstep
  | getUsed =>
      cases hstep
      exact inv_getUsed hq h
  | gatherUsed c =>
      simp only [step] at hstep
      split at hstep
      · next robj hdrv =>
        cases hstep
        exact inv_gatherUsed hq h hdrv
      · cases hstep

/-- The invariant holds in every reachable state. -/
theorem inv_reachable (hq : QueueLen queueLen) {s : System}
    (hs : VqReachable queueLen s) : Inv queueLen s := by
  refine Reachable.invariant ?_ ?_ hs
  · rintro _ ⟨mem, rfl⟩
    exact inv_init hq mem
  · intro s a s' h _ hstep
    exact inv_step hq h hstep

end ProjectsLibs.Virtqueue
