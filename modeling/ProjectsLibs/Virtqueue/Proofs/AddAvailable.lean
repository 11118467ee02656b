/-
`virtqueue_add_available_buf` keeps the invariant.

The call takes the head of the free list, links it behind the chain's
last descriptor and, for a first buffer, stores the head in the
available ring without looking whether the slot is free. Three cases:
no free descriptor (nothing changes), a first buffer, a further buffer.
The slot of a first buffer is free because its descriptor was: the
chains in the ring own a descriptor each (`untaken_le`).

# What has to be compared

A first buffer changes three things: the head of the free list becomes a
chain of its own, the ring has one more entry, and the chain is published
(`Phases.publish`). A further buffer changes the last descriptor of its
chain, so the list of the chain gets one more at its end
(`ChainInv.extend`). In both cases the union of the free list and the
chains is the same set of descriptors, which is a permutation with one
element moved (`extend_conserved`), and no other chain contains the
descriptors that are stored to.
-/
import ProjectsLibs.Virtqueue.Proofs.Frame

namespace ProjectsLibs.Virtqueue

open Lib

variable {queueLen : Nat} {s : System}

-- ==================================================== add_available_buf

/-- With no free descriptor the call fails and changes nothing. -/
theorem addAvailable_full (h : Inv queueLen s)
    (hfree : Conserved queueLen s []) (obj : RingObject) (b : Buf) :
    virtqueueAddAvailableBuf s.drv s.mem obj b = (0, s.drv, s.mem, obj) := by
  have hhead : s.drv.freeDescHead = s.drv.queueLen := by
    rw [h.drv_len]
    exact hfree.1
  simp [virtqueueAddAvailableBuf, vqAddDesc, hhead]

/-- A first buffer takes the head of the free list and is published. -/
theorem addAvailable_first (hq : QueueLen queueLen) (h : Inv queueLen s)
    {x : Nat} {free : List Nat} (hfree : Conserved queueLen s (x :: free))
    {c : Nat} (hidxs : (s.chains c).idxs = []) (b : Buf) :
    virtqueueAddAvailableBuf s.drv s.mem (s.chains c).obj b
      = (1, { s.drv with freeDescHead := nextOf s.mem.desc x },
          { s.mem with
            desc := Function.update s.mem.desc x
              ⟨b.addr, b.len, b.flag, queueLen⟩
            avail := { s.mem.avail with
              ring := Function.update s.mem.avail.ring s.mem.avail.idx x
              idx := u16 (u32 (s.mem.avail.idx + 1)
                &&& u32 (queueLen + (2 ^ 32 - 1))) } },
          ⟨x, x⟩) := by
  have hle := hq.le
  have hx := h.free_lt hfree (List.mem_cons_self ..)
  have hhead : s.drv.freeDescHead = x := hfree.1.start_eq
  have hcur : (s.chains c).obj.cur = 2 ^ 32 - 1 := by
    rw [(h.chain c).obj_cur, hidxs]
    rfl
  have hfirst : (s.chains c).obj.first = 2 ^ 32 - 1 := by
    rw [(h.chain c).obj_first, hidxs]
    rfl
  have hadd : vqAddDesc s.drv s.mem b (s.chains c).obj.cur
      = (x, { s.drv with freeDescHead := nextOf s.mem.desc x },
          { s.mem with
            desc := Function.update s.mem.desc x
              ⟨b.addr, b.len, b.flag, queueLen⟩ }) := by
    have hne : x ≠ queueLen := by omega
    have hprev : ¬2 ^ 32 - 1 < queueLen := by omega
    simp only [vqAddDesc, hhead, h.drv_len, hcur, hne, hprev, if_false,
      u16_of_le hq (Nat.le_refl _), nextOf]
  have hne : x ≠ queueLen := by omega
  have hnew : queueLen ≤ 2 ^ 32 - 1 := by omega
  simp only [virtqueueAddAvailableBuf, hadd, h.drv_len, hfirst, hne, hnew,
    if_false, if_true, u16_of_le hq (Nat.le_of_lt hx)]

/-- A further buffer takes the head of the free list and is linked
behind the last one. -/
theorem addAvailable_next (hq : QueueLen queueLen) (h : Inv queueLen s)
    {x : Nat} {free : List Nat} (hfree : Conserved queueLen s (x :: free))
    {c t : Nat} {l : List Nat} (hidxs : (s.chains c).idxs = l ++ [t])
    (hfreed : (s.chains c).freed = []) (b : Buf) :
    virtqueueAddAvailableBuf s.drv s.mem (s.chains c).obj b
      = (1, { s.drv with freeDescHead := nextOf s.mem.desc x },
          { s.mem with
            desc := Function.update (Function.update s.mem.desc x
              ⟨b.addr, b.len, b.flag, queueLen⟩) t
              { s.mem.desc t with next := x } },
          { (s.chains c).obj with cur := x }) := by
  have hx := h.free_lt hfree (List.mem_cons_self ..)
  have hrem : (s.chains c).rem = l ++ [t] := by
    rw [Chain.rem, hfreed, hidxs]
    rfl
  have ht : t < queueLen := h.rem_lt (c := c) (by rw [hrem]; simp)
  have htx : t ≠ x := by
    rintro rfl
    exact h.free_disjoint hfree (c := c) (List.mem_cons_self ..)
      (by rw [hrem]; simp)
  have hhead : s.drv.freeDescHead = x := hfree.1.start_eq
  have hcur : (s.chains c).obj.cur = t := by
    rw [(h.chain c).obj_cur, hidxs]
    simp
  have hfirst : (s.chains c).obj.first < queueLen := by
    rw [(h.chain c).obj_first, hidxs, List.head?_append]
    refine h.rem_lt (c := c) ?_
    rw [hrem]
    cases l <;> simp
  have hadd : vqAddDesc s.drv s.mem b (s.chains c).obj.cur
      = (x, { s.drv with freeDescHead := nextOf s.mem.desc x },
          { s.mem with
            desc := Function.update (Function.update s.mem.desc x
              ⟨b.addr, b.len, b.flag, queueLen⟩) t
              { s.mem.desc t with next := x } }) := by
    have hne : x ≠ queueLen := by omega
    simp only [vqAddDesc, hhead, h.drv_len, hcur, hne, ht, if_false,
      if_true, u16_of_le hq (Nat.le_refl _), u16_of_le hq (Nat.le_of_lt hx),
      Function.update_of_ne htx, nextOf]
  have hne : x ≠ queueLen := by omega
  have hold : ¬queueLen ≤ (s.chains c).obj.first := by omega
  simp only [virtqueueAddAvailableBuf, hadd, h.drv_len, hne, hold, if_false]

/-- Nothing was reaped through a handle of a chain with no freed
descriptor. -/
theorem ChainInv.drvLog_nil {desc : Nat → VringDesc} {ch : Chain}
    (h : ChainInv queueLen desc ch) (hfreed : ch.freed = []) :
    ch.drvLog = [] := by
  cases hd : ch.drv with
  | none => exact h.drv_none hd
  | some o =>
      have hhead := h.drv_first o hd
      have heq := h.freed_eq
      rw [hfreed, eq_comm, List.take_eq_nil_iff] at heq
      rcases heq with hlen | hnil
      · exact List.length_eq_zero_iff.1 hlen
      · rw [hnil] at hhead
        cases hhead

/-- Chaining descriptor `x` with buffer `b` to a chain that is not
being reaped. -/
theorem ChainInv.extend {desc desc' : Nat → VringDesc} {ch : Chain}
    {b : Buf} {x : Nat} (h : ChainInv queueLen desc ch)
    (obj : RingObject) (hfreed : ch.freed = [])
    (hlinks : Follows (nextOf desc') queueLen
      ((ch.idxs ++ [x]).head?.getD queueLen) (ch.idxs ++ [x]))
    (hold : ∀ y ∈ ch.idxs, (desc' y).buf = (desc y).buf)
    (hnew : (desc' x).buf = b) (hcur : obj.cur = x)
    (hfirst : (ch.idxs ++ [x]).head? = some obj.first) :
    ChainInv queueLen desc'
      { ch with
        obj := obj, bufs := ch.bufs ++ [b], idxs := ch.idxs ++ [x] } := by
  have hlog := h.drvLog_nil hfreed
  have hhead : ∀ y, ch.idxs.head? = some y →
      (ch.idxs ++ [x]).head? = some y := by
    intro y hy
    rw [List.head?_append, hy]
    rfl
  exact
    { h with
      len_eq := by simp [h.len_eq]
      obj_first := by simp only [hfirst, Option.getD_some]
      obj_cur := by simp [hcur]
      links := by
        simpa only [Chain.rem, hfreed, List.length_nil, List.drop_zero]
          using hlinks
      bufs_eq := by
        intro i y _ hy
        -- the buffers linked before are where they were; the last one is
        -- new
        rcases Nat.lt_or_ge i ch.idxs.length with hlt | hge
        · simp only [List.getElem?_append_left hlt] at hy
          have hlt' : i < ch.bufs.length := h.len_eq ▸ hlt
          have hi := h.bufs_eq i y (by simp [hfreed]) hy
          simp only [List.getElem?_append_left hlt', hi,
            hold y (List.mem_of_getElem? hy)]
        · simp only [List.getElem?_append_right hge] at hy
          have hge' : ch.bufs.length ≤ i := h.len_eq ▸ hge
          simp only [List.getElem?_append_right hge']
          rw [h.len_eq, List.getElem?_singleton] at hy
          rw [List.getElem?_singleton]
          split at hy
          · cases hy
            rw [hnew, if_pos ‹_›]
          · cases hy
      linked_prefix := h.linked_prefix.trans (List.prefix_append _ _)
      dev_first := fun o ho => hhead _ (h.dev_first o ho)
      dev_cur := by
        intro o ho hr
        have hle : ch.linked.length ≤ ch.idxs.length :=
          h.len_eq ▸ h.linked_prefix.length_le
        simp only [List.take_append_of_le_length hle]
        exact h.dev_cur o ho hr
      drv_first := fun o ho => hhead _ (h.drv_first o ho)
      drv_cur := by
        intro o ho
        have hidx := h.drv_first o ho
        rw [h.drv_cur o ho, hlog]
        simp only [List.length_nil, ← List.head?_eq_getElem?, hidx,
          hhead _ hidx]
      drv_log := by
        intro i r hr
        rw [hlog] at hr
        simp at hr
      freed_eq := by simp [hfreed, hlog] }

/-- Taking the head of the free list into the chain `c`: conservation
and separation for the new table. -/
theorem extend_conserved {s' : System} {c x : Nat} {free : List Nat}
    (h : Inv queueLen s) (hfree : Conserved queueLen s (x :: free))
    (hhead : s'.drv.freeDescHead = nextOf s.mem.desc x)
    (hdesc : ∀ y ∈ free, s'.mem.desc y = s.mem.desc y)
    (hrem : (s'.chains c).rem = (s.chains c).rem ++ [x])
    (hother : ∀ d, d ≠ c → s'.chains d = s.chains d)
    (hpub : s'.pub = s.pub ∧ c ∈ s.pub
      ∨ s'.pub = s.pub ++ [c] ∧ c ∉ s.pub) :
    Conserved queueLen s' free := by
  obtain ⟨-, -, hlinks⟩ := hfree.1
  refine ⟨?_, ?_⟩
  · rw [hhead]
    exact hlinks.congr fun y hy => by simp only [nextOf, hdesc y hy]
  · have hpieces : ∀ d, d ≠ c → (s'.chains d).rem = (s.chains d).rem :=
      fun d hd => by rw [hother d hd]
    refine List.Perm.trans ?_ hfree.2
    rcases hpub with ⟨hp, hc⟩ | ⟨hp, hc⟩
    · obtain ⟨rest, hold, hnew⟩ :=
        exists_rest hc h.phases.pub_nodup hpieces
      rw [hp]
      have hmove : (free ++ ((s.chains c).rem ++ [x] ++ rest)).Perm
          (x :: free ++ ((s.chains c).rem ++ rest)) := by
        simp only [List.perm_iff_count, List.count_append,
          List.count_cons, List.count_nil]
        intro a
        omega
      exact ((hrem ▸ hnew).append_left free).trans
        (hmove.trans (hold.symm.append_left _))
    · have hnil : (s.chains c).rem = [] := by
        rw [Chain.rem, List.drop_eq_nil_iff]
        have := mt h.pub_iff.2 hc
        simp [not_not.1 this]
      rw [hp, List.flatMap_append, flatMap_congr_of_notMem hc hpieces,
        List.flatMap_singleton, hrem, hnil]
      simp only [List.perm_iff_count, List.count_append,
        List.count_cons, List.count_nil]
      intro a
      omega

/-- Publishing a chain: the phases. -/
theorem Phases.publish {view view' : Nat → View} {pub published : List Nat}
    {taken : Nat} {ret : List Nat} {returned : List VringUsedElem}
    {got c x : Nat}
    (h : Phases view pub published taken ret returned got)
    (hle : taken ≤ pub.length)
    (hc : view' c = { view c with head := some x })
    (hnone : (view c).head = none)
    (hother : ∀ d, d ≠ c → view' d = view d) :
    Phases view' (pub ++ [c]) (published ++ [x]) taken ret returned got := by
  -- a chain without a head has not been published, so it is in no later
  -- list
  have hnpub : c ∉ pub := fun hm => by
    have := (h.pub_iff c).1 hm
    rw [hnone] at this
    cases this
  have hnret : c ∉ ret := fun hm =>
    hnpub (List.mem_of_mem_take ((h.dev_iff c).1 (h.ret_dev c hm)))
  have hdev : ∀ d, (view' d).dev = (view d).dev :=
    View.keeps View.dev (by rw [hc]) hother
  have hret : ∀ d, (view' d).returned = (view d).returned :=
    View.keeps View.returned (by rw [hc]) hother
  have hdrv : ∀ d, (view' d).drv = (view d).drv :=
    View.keeps View.drv (by rw [hc]) hother
  exact
    { pub_iff := by
        intro d
        by_cases hd : d = c
        · subst hd
          simp [hc]
        · simp [hother d hd, h.pub_iff d, hd]
      pub_nodup := by
        rw [List.nodup_append]
        refine ⟨h.pub_nodup, List.nodup_singleton _, ?_⟩
        rintro d hd e he rfl
        exact hnpub (List.mem_singleton.1 he ▸ hd)
      heads := by
        rw [List.map_append, List.map_append, h.heads]
        congr 1
        · refine List.map_congr_left fun d hd => ?_
          rw [hother d fun e => hnpub (e ▸ hd)]
        · simp [hc]
      dev_iff := by
        intro d
        rw [hdev d, List.take_append_of_le_length hle]
        exact h.dev_iff d
      ret_iff := fun d => (hret d).symm ▸ h.ret_iff d
      ret_nodup := h.ret_nodup
      ret_dev := fun d hd => (hdev d).symm ▸ h.ret_dev d hd
      ids := by
        rw [h.ids]
        refine List.map_congr_left fun d hd => ?_
        rw [hother d fun e => hnret (e ▸ hd)]
      drv_iff := fun d => (hdrv d).symm ▸ h.drv_iff d }

/-- The first buffer of a chain keeps the invariant. -/
theorem inv_addAvail_first (hq : QueueLen queueLen) (h : Inv queueLen s)
    {x : Nat} {free : List Nat} (hfree : Conserved queueLen s (x :: free))
    {c : Nat} (hidxs : (s.chains c).idxs = []) (b : Buf) :
    Inv queueLen (addAvailStep s c b) := by
  have hch := h.chain c
  have hx := h.free_lt hfree (List.mem_cons_self ..)
  have hbufs : (s.chains c).bufs = [] := by
    rw [← List.length_eq_zero_iff, ← hch.len_eq, hidxs]
    rfl
  have hfreed : (s.chains c).freed = [] := by
    rw [hch.freed_eq, hidxs, List.take_nil]
  have hxfree : x ∉ free := by
    have := h.nodup hfree
    rw [List.cons_append, List.nodup_cons] at this
    exact fun hm => this.1 (List.mem_append_left _ hm)
  have hroom : s.published.length < s.taken.length + queueLen := by
    have := h.untaken_le hfree
    rw [List.length_cons] at this
    omega
  have htaken : s.taken.length ≤ s.pub.length :=
    h.published_length ▸ h.avail.holds.taken_le
  -- the chain itself
  have hnew : ChainInv queueLen (Function.update s.mem.desc x
      ⟨b.addr, b.len, b.flag, queueLen⟩) { s.chains c with
        obj := ⟨x, x⟩
        bufs := (s.chains c).bufs ++ [b]
        idxs := (s.chains c).idxs ++ [x] } := by
    refine hch.extend ⟨x, x⟩ hfreed ?_ ?_ ?_ rfl ?_
    · have hne : x ≠ queueLen := by omega
      rw [hidxs, nextOf_update]
      exact Follows.singleton hne (Function.update_self ..)
    · intro y hy
      rw [hidxs] at hy
      cases hy
    · simp [VringDesc.buf]
    · rw [hidxs]
      rfl
  -- the others do not own `x`
  have hold : ∀ d, d ≠ c → ChainInv queueLen (Function.update s.mem.desc x
      ⟨b.addr, b.len, b.flag, queueLen⟩) (s.chains d) := by
    intro d _
    refine (h.chain d).of_agree fun y hy => Function.update_of_ne ?_ _ _
    rintro rfl
    exact h.free_disjoint hfree (List.mem_cons_self ..) hy
  unfold addAvailStep
  simp only [addAvailable_first hq h hfree hidxs b, if_pos hbufs]
  exact
    { drv_len := h.drv_len
      dev_len := h.dev_len
      chain := forall_update hnew hold
      conserved := by
        refine ⟨free, extend_conserved (c := c) h hfree rfl ?_ ?_
          (fun d hd => Function.update_of_ne hd _ _)
          (Or.inr ⟨rfl, fun hm => h.pub_iff.1 hm hidxs⟩)⟩
        · intro y hy
          have hyx : y ≠ x := fun e => hxfree (e ▸ hy)
          exact Function.update_of_ne hyx _ _
        · simp [Chain.rem, hidxs, hfreed]
      phases := by
        refine h.phases.publish (c := c) htaken ?_ ?_ ?_
        · simp [Chain.view, hidxs]
        · simp [Chain.view, hidxs]
        · intro d hd
          simp only [Function.update_of_ne hd]
      avail := h.avail.put hq hroom x
      used := h.used }

/-- A further buffer of a chain keeps the invariant. -/
theorem inv_addAvail_next (hq : QueueLen queueLen) (h : Inv queueLen s)
    {x : Nat} {free : List Nat} (hfree : Conserved queueLen s (x :: free))
    {c t : Nat} {l : List Nat} (hidxs : (s.chains c).idxs = l ++ [t])
    (hfreed : (s.chains c).freed = []) (b : Buf) :
    Inv queueLen (addAvailStep s c b) := by
  have hch := h.chain c
  have hx := h.free_lt hfree (List.mem_cons_self ..)
  have hrem : (s.chains c).rem = l ++ [t] := by
    rw [Chain.rem, hfreed, hidxs]
    rfl
  have hbufs : (s.chains c).bufs ≠ [] := by
    intro hnil
    have := hch.len_eq
    rw [hidxs, hnil] at this
    simp at this
  have hpub : c ∈ s.pub := h.pub_iff.2 (by simp [hidxs])
  have hnd := h.nodup hfree
  rw [List.cons_append, List.nodup_cons] at hnd
  have hxfree : x ∉ free := fun hm => hnd.1 (List.mem_append_left _ hm)
  have hxrem : x ∉ l ++ [t] :=
    hrem ▸ h.free_disjoint hfree (List.mem_cons_self ..)
  have htrem : t ∈ (s.chains c).rem := by
    rw [hrem]
    simp
  have htfree : t ∉ free := fun hm =>
    h.free_disjoint hfree (List.mem_cons_of_mem _ hm) htrem
  have hltnd : (l ++ [t]).Nodup := by
    have := (List.nodup_flatMap.1 (List.nodup_append.1 hnd.2).2.1).1 c hpub
    rwa [hrem] at this
  have htx : t ≠ x := fun e => hxrem (by simp [e])
  -- the chain itself
  have hnew : ChainInv queueLen (Function.update (Function.update s.mem.desc x
      ⟨b.addr, b.len, b.flag, queueLen⟩) t { s.mem.desc t with next := x })
      { s.chains c with
        obj := { (s.chains c).obj with cur := x }
        bufs := (s.chains c).bufs ++ [b]
        idxs := (s.chains c).idxs ++ [x] } := by
    refine hch.extend { (s.chains c).obj with cur := x } hfreed
      ?_ ?_ ?_ rfl ?_
    · have hlinks := hch.links
      rw [hrem] at hlinks
      rw [hidxs, nextOf_update, nextOf_update]
      have happ := hlinks.append_link hltnd hxrem (by omega)
      have hstart : (l ++ [t] ++ [x]).head?.getD queueLen
          = (l ++ [t]).head?.getD queueLen := by
        cases l <;> rfl
      rw [hstart]
      exact happ
    · intro y hy
      have hyx : y ≠ x := fun e => hxrem (hidxs ▸ e ▸ hy)
      by_cases hyt : y = t
      · subst hyt
        rw [Function.update_self]
        rfl
      · rw [Function.update_of_ne hyt, Function.update_of_ne hyx]
    · rw [Function.update_of_ne htx.symm, Function.update_self]
      rfl
    · rw [hch.obj_first, hidxs]
      cases l <;> rfl
  -- the others own neither `x` nor `t`
  have hold : ∀ d, d ≠ c → ChainInv queueLen (Function.update
      (Function.update s.mem.desc x ⟨b.addr, b.len, b.flag, queueLen⟩) t
      { s.mem.desc t with next := x }) (s.chains d) := by
    intro d hd
    refine (h.chain d).of_agree fun y hy => ?_
    have hyx : y ≠ x := by
      rintro rfl
      exact h.free_disjoint hfree (List.mem_cons_self ..) hy
    have hyt : y ≠ t := by
      rintro rfl
      exact h.rem_disjoint (Ne.symm hd) htrem hy
    rw [Function.update_of_ne hyt, Function.update_of_ne hyx]
  unfold addAvailStep
  simp only [addAvailable_next hq h hfree hidxs hfreed b, if_neg hbufs]
  exact
    { drv_len := h.drv_len
      dev_len := h.dev_len
      chain := forall_update hnew hold
      conserved := by
        refine ⟨free, extend_conserved (c := c) h hfree rfl ?_ ?_
          (fun d hd => Function.update_of_ne hd _ _) (Or.inl ⟨rfl, hpub⟩)⟩
        · intro y hy
          have hyx : y ≠ x := fun e => hxfree (e ▸ hy)
          have hyt : y ≠ t := fun e => htfree (e ▸ hy)
          exact (Function.update_of_ne hyt _ _).trans
            (Function.update_of_ne hyx _ _)
        · simp [Chain.rem, hfreed]
      phases := by
        rw [map_update Chain.view (by simp [Chain.view, hidxs])]
        exact h.phases
      avail := h.avail
      used := h.used }

/-- `virtqueue_add_available_buf` keeps the invariant. -/
theorem inv_addAvail (hq : QueueLen queueLen) (h : Inv queueLen s) (c : Nat)
    (b : Buf) (hfreed : (s.chains c).freed = []) :
    Inv queueLen (addAvailStep s c b) := by
  obtain ⟨free, hfree⟩ := h.conserved
  cases free with
  | nil =>
      have hsame : addAvailStep s c b = s := by
        unfold addAvailStep
        simp only [addAvailable_full h hfree, Function.update_eq_self]
      rwa [hsame]
  | cons x free =>
      rcases List.eq_nil_or_concat (s.chains c).idxs with hnil | ⟨l, t, ht⟩
      · exact inv_addAvail_first hq h hfree hnil b
      · exact inv_addAvail_next hq h hfree
          (ht.trans (List.concat_eq_append ..)) hfreed b

end ProjectsLibs.Virtqueue
