/-
The calls that hand a chain over keep the invariant: the two gets, the
device's gather and its return. None of them touches the descriptor
table. A get moves one ring cursor and one phase; the return stores in
the used ring, which has room because the chain returned owns a
descriptor and is in no ring (`ungot_lt`).

# The phases

A chain is published, taken by the device, returned, and taken back by
the driver. `Phases` records this for the two rings as lists, what has
been put in and how much of it has been taken, and ties the handles of
each chain to where it stands in them. A get makes
the taken part longer by one, which is the next chain in order; a return
appends to the used ring.

That there is room in the used ring is not checked by the code. It holds
because a chain that the device returns owns a descriptor, so there are
fewer chains in the ring than descriptors. The driver may reap a chain
while the device still has a handle into it; `gather_late` says that the
handle does not matter any more after the return.
-/
import ProjectsLibs.Virtqueue.Proofs.Frame

namespace ProjectsLibs.Virtqueue

open Lib

variable {queueLen : Nat} {s : System}

-- ==================================================== get_available_buf

/-- What the device gets. -/
theorem getAvailable_eq (hq : QueueLen queueLen) (h : Inv queueLen s) :
    virtqueueGetAvailableBuf s.dev s.mem
      = if s.taken.length % queueLen = s.mem.avail.idx then none
        else some ({ s.dev with aRingLastSeen := s.taken.length % queueLen },
          ⟨s.mem.avail.ring (s.taken.length % queueLen),
           s.mem.avail.ring (s.taken.length % queueLen)⟩) := by
  simp only [virtqueueGetAvailableBuf, h.dev_len, h.avail.next_slot hq]

/-- What the driver gets. -/
theorem getUsed_eq (hq : QueueLen queueLen) (h : Inv queueLen s) :
    virtqueueGetUsedBuf s.drv s.mem
      = if s.got.length % queueLen = s.mem.used.idx then none
        else some ({ s.drv with uRingLastSeen := s.got.length % queueLen },
          ⟨(s.mem.used.ring (s.got.length % queueLen)).id,
           (s.mem.used.ring (s.got.length % queueLen)).id⟩,
          (s.mem.used.ring (s.got.length % queueLen)).len) := by
  simp only [virtqueueGetUsedBuf, h.drv_len, h.used.next_slot hq]

/-- The next entry of the available ring, with its chain. -/
theorem Inv.next_avail (h : Inv queueLen s)
    (hlt : s.taken.length < s.published.length) :
    ∃ c, s.pub[s.taken.length]? = some c
      ∧ (s.chains c).idxs.head?
          = some (s.mem.avail.ring (s.taken.length % queueLen)) := by
  have hlen : s.taken.length < s.pub.length := h.published_length ▸ hlt
  refine ⟨s.pub[s.taken.length], List.getElem?_eq_getElem hlen, ?_⟩
  have hmap := congrArg (fun l => l[s.taken.length]?) h.phases.heads
  simp only [List.getElem?_map, List.getElem?_eq_getElem hlen,
    h.avail.holds.oldest hlt, Option.map_some, Option.some.injEq] at hmap
  exact hmap.symm

/-- The next entry of the used ring, with its chain. -/
theorem Inv.next_used (h : Inv queueLen s)
    (hlt : s.got.length < s.returned.length) :
    ∃ c, s.ret[s.got.length]? = some c
      ∧ (s.chains c).idxs.head?
          = some (s.mem.used.ring (s.got.length % queueLen)).id := by
  have hlen : s.got.length < s.ret.length := h.returned_length ▸ hlt
  refine ⟨s.ret[s.got.length], List.getElem?_eq_getElem hlen, ?_⟩
  have hmap := congrArg (fun l => l[s.got.length]?) h.phases.ids
  simp only [List.getElem?_map, List.getElem?_eq_getElem hlen,
    h.used.holds.oldest hlt, Option.map_some, Option.some.injEq] at hmap
  exact hmap.symm

/-- One more chain is handed over: membership in the taken part. -/
theorem mem_take_succ {l : List Nat} {n c d : Nat} (hc : l[n]? = some c) :
    d ∈ l.take (n + 1) ↔ d ∈ l.take n ∨ d = c := by
  rw [List.take_add_one, hc]
  simp

/-- A chain just handed over was not handed over before. -/
theorem notMem_take {l : List Nat} {n c : Nat} (hnd : l.Nodup)
    (hc : l[n]? = some c) : c ∉ l.take n := by
  intro hm
  have hdrop : c ∈ l.drop n := by
    refine List.mem_of_getElem? (i := 0) ?_
    rw [List.getElem?_drop, Nat.add_zero]
    exact hc
  exact List.disjoint_take_drop hnd (Nat.le_refl _) hm hdrop

section Phases

variable {view view' : Nat → View} {pub published : List Nat} {taken : Nat}
  {ret : List Nat} {returned : List VringUsedElem} {got c : Nat}

/-- Handing a chain to the device: the phases. -/
theorem Phases.take
    (h : Phases view pub published taken ret returned got)
    (hpub : pub[taken]? = some c) (hc : view' c = { view c with dev := true })
    (hother : ∀ d, d ≠ c → view' d = view d) :
    Phases view' pub published (taken + 1) ret returned got := by
  have hhead : ∀ d, (view' d).head = (view d).head :=
    View.keeps View.head (by rw [hc]) hother
  have hret : ∀ d, (view' d).returned = (view d).returned :=
    View.keeps View.returned (by rw [hc]) hother
  have hdrv : ∀ d, (view' d).drv = (view d).drv :=
    View.keeps View.drv (by rw [hc]) hother
  have hdev : ∀ d, (view' d).dev = true ↔ (view d).dev = true ∨ d = c :=
    fun d => by
      by_cases hd : d = c
      · simp [hd, hc]
      · simp [hother d hd, hd]
  exact
    { pub_iff := fun d => (hhead d).symm ▸ h.pub_iff d
      pub_nodup := h.pub_nodup
      heads := by simpa only [hhead] using h.heads
      dev_iff := by
        intro d
        rw [hdev d, h.dev_iff d, mem_take_succ hpub]
      ret_iff := fun d => (hret d).symm ▸ h.ret_iff d
      ret_nodup := h.ret_nodup
      ret_dev := fun d hd => (hdev d).2 (Or.inl (h.ret_dev d hd))
      ids := by simpa only [hhead] using h.ids
      drv_iff := fun d => (hdrv d).symm ▸ h.drv_iff d }

/-- The device returns a chain: the phases. -/
theorem Phases.giveBack {e : VringUsedElem}
    (h : Phases view pub published taken ret returned got)
    (hle : got ≤ ret.length) (hdev : (view c).dev = true)
    (hnot : (view c).returned = false) (he : (view c).head = some e.id)
    (hc : view' c = { view c with returned := true })
    (hother : ∀ d, d ≠ c → view' d = view d) :
    Phases view' pub published taken (ret ++ [c]) (returned ++ [e]) got := by
  -- a chain is given back once
  have hcret : c ∉ ret := fun hm => by
    have := (h.ret_iff c).2 hm
    rw [hnot] at this
    cases this
  have hhead : ∀ d, (view' d).head = (view d).head :=
    View.keeps View.head (by rw [hc]) hother
  have hdev' : ∀ d, (view' d).dev = (view d).dev :=
    View.keeps View.dev (by rw [hc]) hother
  have hdrv : ∀ d, (view' d).drv = (view d).drv :=
    View.keeps View.drv (by rw [hc]) hother
  exact
    { pub_iff := fun d => (hhead d).symm ▸ h.pub_iff d
      pub_nodup := h.pub_nodup
      heads := by simpa only [hhead] using h.heads
      dev_iff := fun d => (hdev' d).symm ▸ h.dev_iff d
      ret_iff := by
        intro d
        by_cases hd : d = c
        · simp [hd, hc]
        · simp [hother d hd, h.ret_iff d, hd]
      ret_nodup := by
        rw [List.nodup_append]
        refine ⟨h.ret_nodup, List.nodup_singleton _, ?_⟩
        rintro d hd e he rfl
        exact hcret (List.mem_singleton.1 he ▸ hd)
      ret_dev := by
        intro d hd
        rw [hdev' d]
        rcases List.mem_append.1 hd with hd | hd
        · exact h.ret_dev d hd
        · rw [List.mem_singleton.1 hd]
          exact hdev
      ids := by
        simp only [List.map_append, List.map_cons, List.map_nil, hhead, he]
        rw [h.ids]
      drv_iff := by
        intro d
        rw [hdrv d, List.take_append_of_le_length hle]
        exact h.drv_iff d }

/-- Handing a chain back to the driver: the phases. -/
theorem Phases.get
    (h : Phases view pub published taken ret returned got)
    (hret : ret[got]? = some c) (hc : view' c = { view c with drv := true })
    (hother : ∀ d, d ≠ c → view' d = view d) :
    Phases view' pub published taken ret returned (got + 1) := by
  have hhead : ∀ d, (view' d).head = (view d).head :=
    View.keeps View.head (by rw [hc]) hother
  have hdev : ∀ d, (view' d).dev = (view d).dev :=
    View.keeps View.dev (by rw [hc]) hother
  have hret' : ∀ d, (view' d).returned = (view d).returned :=
    View.keeps View.returned (by rw [hc]) hother
  exact
    { pub_iff := fun d => (hhead d).symm ▸ h.pub_iff d
      pub_nodup := h.pub_nodup
      heads := by simpa only [hhead] using h.heads
      dev_iff := fun d => (hdev d).symm ▸ h.dev_iff d
      ret_iff := fun d => (hret' d).symm ▸ h.ret_iff d
      ret_nodup := h.ret_nodup
      ret_dev := fun d hd => (hdev d).symm ▸ h.ret_dev d hd
      ids := by simpa only [hhead] using h.ids
      drv_iff := by
        intro d
        rw [mem_take_succ hret, ← h.drv_iff d]
        by_cases hd : d = c
        · simp [hd, hc]
        · simp [hother d hd, hd] }

end Phases

/-- `virtqueue_get_available_buf` keeps the invariant. -/
theorem inv_getAvail (hq : QueueLen queueLen) (h : Inv queueLen s) :
    Inv queueLen (getAvailStep s) := by
  unfold getAvailStep
  rw [getAvailable_eq hq h]
  -- nothing to take: the device sees its own index
  by_cases he : s.taken.length % queueLen = s.mem.avail.idx
  · rw [if_pos he]
    exact h
  rw [if_neg he]
  have hlt := h.avail.taken_lt he
  obtain ⟨c, hc, hhead⟩ := h.next_avail hlt
  have hch := h.chain c
  have hndev : (s.chains c).dev = none := by
    have := mt h.dev_iff.1 (notMem_take h.phases.pub_nodup hc)
    simpa using this
  have hnret : c ∉ s.ret := fun hm => by
    have := h.phases.ret_dev c hm
    simp [Chain.view, hndev] at this
  simp only [hc]
  -- what the device takes is the chain as the driver has linked it by now
  have hnew : ChainInv queueLen s.mem.desc { s.chains c with
      dev := some ⟨s.mem.avail.ring (s.taken.length % queueLen),
        s.mem.avail.ring (s.taken.length % queueLen)⟩
      atGet := (s.chains c).bufs
      linked := (s.chains c).bufs } := by
    have hlog := (hch.dev_none hndev).1
    have hne : (s.chains c).bufs ≠ [] := by
      intro hnil
      have hlen := hch.len_eq
      rw [hnil, List.length_nil, List.length_eq_zero_iff] at hlen
      rw [hlen] at hhead
      cases hhead
    exact
      { hch with
        dev_none := fun hn => by cases hn
        atGet_prefix := List.prefix_rfl
        linked_prefix := List.prefix_rfl
        dev_first := by
          rintro o ⟨⟩
          exact hhead
        dev_linked := fun _ _ => hne
        dev_cur := by
          rintro o ⟨⟩ -
          simp only [hlog, List.length_nil, ← hch.len_eq, List.take_length]
          rw [← List.head?_eq_getElem?, hhead]
          rfl
        dev_log := by
          intro i r hr
          simp only [hlog] at hr
          simp at hr }
  exact
    { drv_len := h.drv_len
      dev_len := h.dev_len
      chain := forall_update hnew fun d _ => h.chain d
      conserved := by
        obtain ⟨free, hfree⟩ := h.conserved
        exact ⟨free, hfree.of_rem rfl rfl rfl (map_update Chain.rem rfl)⟩
      phases := by
        rw [List.length_append, List.length_singleton]
        refine h.phases.take hc ?_ fun d hd => ?_
        · simp [Chain.view]
        · simp only [Function.update_of_ne hd]
      avail := h.avail.take hq hlt
      used := h.used }

-- ===================================================== gather_available

/-- Reaching the end of the chain: nothing is left to gather. -/
theorem ChainInv.gather_end {desc : Nat → VringDesc} {ch : Chain}
    {o : RingObject} (h : ChainInv queueLen desc ch)
    (hlt : ∀ x ∈ ch.idxs, x < queueLen) (hdev : ch.dev = some o)
    (hr : ch.returned = false) (hcur : queueLen ≤ o.cur) :
    ChainInv queueLen desc { ch with devLog := ch.devLog ++ [none] } := by
  have hend : ch.linked.length ≤ ch.devLog.length := by
    have hpos := h.dev_cur o hdev hr
    cases hx : (ch.idxs.take ch.linked.length)[ch.devLog.length]? with
    | some x =>
        have := hlt x (List.mem_of_mem_take (List.mem_of_getElem? hx))
        rw [hx, Option.getD_some] at hpos
        omega
    | none =>
        rw [List.getElem?_eq_none_iff, List.length_take, h.len_eq] at hx
        have := h.linked_prefix.length_le
        omega
  have hnone : ∀ n, ch.devLog.length ≤ n →
      (ch.idxs.take ch.linked.length)[n]? = none := by
    intro n hn
    rw [List.getElem?_eq_none_iff, List.length_take]
    omega
  exact
    { h with
      dev_none := fun hn => by rw [hdev] at hn; cases hn
      dev_cur := by
        intro o' ho' _
        rw [h.dev_cur o' ho' hr, hnone _ (Nat.le_refl _)]
        simp only [List.length_append, List.length_singleton]
        rw [hnone _ (Nat.le_succ _)]
      dev_log := by
        intro i r hi
        rcases Nat.lt_or_ge i ch.devLog.length with hlog | hlog
        · exact h.dev_log i r ((List.getElem?_append_left hlog).symm.trans hi)
        · simp only [List.getElem?_append_right hlog,
            List.getElem?_singleton] at hi
          split at hi
          · cases hi
            exact (List.getElem?_eq_none (Nat.le_trans hend hlog)).symm
          · cases hi }

/-- Gathering the next buffer of a chain the device holds. -/
theorem ChainInv.gather_next {desc : Nat → VringDesc} {ch : Chain}
    {o : RingObject} (h : ChainInv queueLen desc ch)
    (hfreed : ch.freed = []) (hdev : ch.dev = some o)
    (hr : ch.returned = false) (hcur : o.cur < queueLen) :
    ChainInv queueLen desc { ch with
      dev := some { o with cur := (desc o.cur).next }
      linked := ch.bufs
      devLog := ch.devLog ++ [some (desc o.cur).buf] } := by
  have hpos := h.dev_cur o hdev hr
  have hx : (ch.idxs.take ch.linked.length)[ch.devLog.length]?
      = some o.cur := by
    cases hx : (ch.idxs.take ch.linked.length)[ch.devLog.length]? with
    | some x =>
        rw [hx, Option.getD_some] at hpos
        rw [hpos]
    | none =>
        rw [hx, Option.getD_none] at hpos
        omega
  obtain ⟨hlen, -⟩ := List.getElem?_eq_some_iff.1 hx
  rw [List.length_take] at hlen
  have hidx : ch.idxs[ch.devLog.length]? = some o.cur := by
    rw [← hx, List.getElem?_take_of_lt (by omega)]
  -- the link in the table is the next index of the chain, or the end
  have hnext : (desc o.cur).next
      = ch.idxs[ch.devLog.length + 1]?.getD queueLen := by
    have hlinks := h.links
    simp only [Chain.rem, hfreed, List.length_nil, List.drop_zero] at hlinks
    exact hlinks.next_getElem hidx
  exact
    { h with
      dev_none := fun hn => by cases hn
      atGet_prefix := h.atGet_prefix.trans h.linked_prefix
      linked_prefix := List.prefix_rfl
      dev_first := by
        rintro o' ⟨⟩
        exact h.dev_first o hdev
      dev_linked := by
        rintro o' ⟨⟩ (hnil : ch.bufs = [])
        have hpre := h.linked_prefix
        rw [hnil, List.prefix_nil] at hpre
        exact h.dev_linked o hdev hpre
      dev_cur := by
        rintro o' ⟨⟩ -
        simp only [← h.len_eq, List.take_length, List.length_append,
          List.length_singleton]
        exact hnext
      dev_log := by
        intro i r hi
        rcases Nat.lt_or_ge i ch.devLog.length with hlog | hlog
        · simp only [List.getElem?_append_left hlog] at hi
          rw [h.dev_log i r hi]
          obtain ⟨t, ht⟩ := h.linked_prefix
          simp only [← ht]
          rw [List.getElem?_append_left (by omega)]
        · simp only [List.getElem?_append_right hlog,
            List.getElem?_singleton] at hi
          split at hi
          · next hz =>
            cases hi
            have hi' : i = ch.devLog.length := by omega
            subst hi'
            exact (h.bufs_eq _ _ (by simp [hfreed]) hidx).symm
          · cases hi }

/-- After the return the device's handle does not matter any more. -/
theorem ChainInv.gather_late {desc : Nat → VringDesc} {ch : Chain}
    {o o' : RingObject} (h : ChainInv queueLen desc ch)
    (hdev : ch.dev = some o) (hr : ch.returned = true)
    (hfirst : o'.first = o.first) :
    ChainInv queueLen desc { ch with dev := some o' } :=
  { h with
    dev_none := fun hn => by cases hn
    dev_first := by
      rintro p ⟨⟩
      rw [hfirst]
      exact h.dev_first o hdev
    dev_linked := fun p _ => h.dev_linked o hdev
    dev_cur := by
      intro p _ hr'
      rw [hr] at hr'
      cases hr' }

/-- Replacing the record of a chain by one that owns the same
descriptors and is in the same phase. -/
theorem Inv.replace (h : Inv queueLen s) (c : Nat) {ch : Chain}
    (hnew : ChainInv queueLen s.mem.desc ch)
    (hrem : ch.rem = (s.chains c).rem)
    (hview : ch.view = (s.chains c).view) :
    Inv queueLen { s with chains := Function.update s.chains c ch } :=
  { h with
    chain := forall_update hnew fun d _ => h.chain d
    conserved := by
      obtain ⟨free, hfree⟩ := h.conserved
      exact ⟨free, hfree.of_rem rfl rfl rfl (map_update Chain.rem hrem)⟩
    phases := by
      rw [map_update Chain.view hview]
      exact h.phases }

/-- The descriptors of a chain that is not being reaped. -/
theorem Inv.idxs_lt (h : Inv queueLen s) {c x : Nat}
    (hfreed : (s.chains c).freed = []) (hx : x ∈ (s.chains c).idxs) :
    x < queueLen := by
  refine h.rem_lt (c := c) ?_
  rw [Chain.rem, hfreed]
  exact hx

/-- `virtqueue_gather_available` keeps the invariant: it only moves the
device's own handle. -/
theorem inv_gatherAvail (h : Inv queueLen s) {c : Nat} {robj : RingObject}
    (hdev : (s.chains c).dev = some robj) :
    Inv queueLen (gatherAvailStep s c robj) := by
  have hch := h.chain c
  unfold gatherAvailStep virtqueueGatherAvailable
  rw [h.dev_len]
  by_cases hr : (s.chains c).returned = true
  · by_cases hcur : queueLen ≤ robj.cur
    · simp only [if_pos hcur, if_pos hr]
      exact h.replace c hch rfl rfl
    · simp only [if_neg hcur, if_pos hr]
      exact h.replace c (hch.gather_late hdev hr rfl) rfl
        (by simp [Chain.view, hdev])
  · have hr' : (s.chains c).returned = false := by simpa using hr
    have hfreed := h.freed_of_not_returned hr'
    by_cases hcur : queueLen ≤ robj.cur
    · simp only [if_pos hcur, if_neg hr]
      exact h.replace c (hch.gather_end (fun x => h.idxs_lt hfreed)
        hdev hr' hcur) rfl rfl
    · simp only [if_neg hcur, if_neg hr]
      exact h.replace c (hch.gather_next hfreed hdev hr' (by omega)) rfl
        (by simp [Chain.view, hdev])

-- ========================================================= add_used_buf

/-- `virtqueue_add_used_buf` keeps the invariant: the used ring has
room for a chain the device still holds. -/
theorem inv_addUsed (hq : QueueLen queueLen) (h : Inv queueLen s) {c : Nat}
    {robj : RingObject} (len : UInt32)
    (hdev : (s.chains c).dev = some robj)
    (hr : (s.chains c).returned = false) :
    Inv queueLen (addUsedStep s c robj len) := by
  have hch := h.chain c
  have hsome : (s.chains c).dev.isSome := by
    rw [hdev]
    rfl
  have hroom := h.ungot_lt hsome hr
  have hgot : s.got.length ≤ s.ret.length :=
    h.returned_length ▸ h.used.holds.taken_le
  have hnew : ChainInv queueLen s.mem.desc
      { s.chains c with returned := true } :=
    { hch with dev_cur := fun _ _ hr' => by cases hr' }
  have hput := h.used.put hq hroom ⟨robj.first, len⟩
  unfold addUsedStep virtqueueAddUsedBuf
  rw [h.dev_len]
  exact
    { drv_len := h.drv_len
      dev_len := h.dev_len
      chain := forall_update hnew fun d _ => h.chain d
      conserved := by
        obtain ⟨free, hfree⟩ := h.conserved
        exact ⟨free, hfree.of_rem rfl rfl rfl (map_update Chain.rem rfl)⟩
      phases := by
        refine h.phases.giveBack (c := c) hgot hsome hr ?_ ?_ fun d hd => ?_
        · exact hch.dev_first robj hdev
        · simp [Chain.view]
        · simp only [Function.update_of_ne hd]
      avail := h.avail
      used := hput }

-- ========================================================= get_used_buf

/-- `virtqueue_get_used_buf` keeps the invariant. -/
theorem inv_getUsed (hq : QueueLen queueLen) (h : Inv queueLen s) :
    Inv queueLen (getUsedStep s) := by
  unfold getUsedStep
  rw [getUsed_eq hq h]
  by_cases he : s.got.length % queueLen = s.mem.used.idx
  · rw [if_pos he]
    exact h
  rw [if_neg he]
  have hlt := h.used.taken_lt he
  obtain ⟨c, hc, hhead⟩ := h.next_used hlt
  have hch := h.chain c
  have hndrv : (s.chains c).drv = none := by
    have := mt h.drv_iff.1 (notMem_take h.phases.ret_nodup hc)
    simpa using this
  have hlog := hch.drv_none hndrv
  simp only [hc]
  have hnew : ChainInv queueLen s.mem.desc { s.chains c with
      drv := some ⟨(s.mem.used.ring (s.got.length % queueLen)).id,
        (s.mem.used.ring (s.got.length % queueLen)).id⟩ } :=
    { hch with
      drv_none := fun hn => by cases hn
      drv_first := by
        rintro o ⟨⟩
        exact hhead
      drv_cur := by
        rintro o ⟨⟩
        simp only [hlog, List.length_nil]
        rw [← List.head?_eq_getElem?, hhead]
        rfl }
  exact
    { drv_len := h.drv_len
      dev_len := h.dev_len
      chain := forall_update hnew fun d _ => h.chain d
      conserved := by
        obtain ⟨free, hfree⟩ := h.conserved
        exact ⟨free, hfree.of_rem rfl rfl rfl (map_update Chain.rem rfl)⟩
      phases := by
        rw [List.length_append, List.length_singleton]
        refine h.phases.get hc ?_ fun d hd => ?_
        · simp [Chain.view]
        · simp only [Function.update_of_ne hd]
      avail := h.avail
      used := h.used.take hq hlt }

end ProjectsLibs.Virtqueue
