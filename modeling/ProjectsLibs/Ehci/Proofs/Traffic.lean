/-
The invariant of the asynchronous schedule in use is kept where queue
heads get work: one is added (`XferInv.add`), a transaction is enqueued
(`Layout.enqueue` and what follows it), and the controller finishes a
descriptor (`XferInv.finish`).

# What the invariant says here

The descriptors of a queue head are those of its groups, one group for
each request, in the order of the requests. The controller works on the
first that is not finished, and finishes them in order; so the finished
ones are a front of the list (`pairwise_front`), and the one that it
finishes next divides it.

Finishing writes a token and nothing else. The layout is that of
descriptors with the same links and callbacks (`SameTds`), the history is
the same calls, and the bytes that are counted for a request grow by what
the token leaves: those of all other requests stay, because the groups
have different numbers (`ids_ne`), and none has been called back yet
(`called_ne`). Enqueueing adds a group at the end whose descriptors are
all open. What the driver does for it is taken from Enqueue as a
statement about the host (`Grown`), and from there on no loop is looked
at.
-/
import ProjectsLibs.Ehci.Proofs.Pass

namespace ProjectsLibs.Ehci

open Lib

variable {s s' : XferHost} {gs : QhId → List Grp} {q : QhId}

-- ============================================================= finishing

/-- The controller works on the first descriptor that is not finished. -/
theorem firstOpen_eq {host : AsyncHost} {p : Option TdId} {tds : List TdId}
    {fuel : Nat} (h : Leads host.nextTd p tds none)
    (hfuel : tds.length ≤ fuel) :
    firstOpen host fuel p = tds.find? fun t => !isDone (host.tdns t) := by
  induction tds generalizing p fuel with
  | nil =>
      obtain rfl : p = none := h
      unfold firstOpen
      rfl
  | cons t tds ih =>
      obtain ⟨rfl, hrest⟩ := h
      obtain ⟨fuel, rfl⟩ : ∃ f, fuel = f + 1 :=
        ⟨fuel - 1, by rw [List.length_cons] at hfuel; omega⟩
      rw [firstOpen, List.find?_cons]
      by_cases ht : qtdGetStatus (host.tdns t).token = .success
      · have hdone : isDone (host.tdns t) = true := decide_eq_true ht
        rw [if_pos ht, hdone]
        exact ih hrest (Nat.le_of_succ_le_succ hfuel)
      · have hdone : isDone (host.tdns t) = false := decide_eq_false ht
        rw [if_neg ht, hdone]
        rfl

/-- What is in front of the descriptor that the controller works on. -/
theorem XferInv.current_split (h : XferInv s gs) (hq : q ∈ s.linked)
    {t : TdId} (ht : current s q = some t) :
    ∃ front back, flat (gs q) = front ++ t :: back
      ∧ (∀ u ∈ front, isDone (s.xfer.host.tdns u) = true)
      ∧ isDone (s.xfer.host.tdns t) = false := by
  have hlen := xferFuel_enough h.layout hq
  rw [current, firstOpen_eq (h.layout.leads (.inl hq)) (by omega)] at ht
  obtain ⟨hopen, front, back, heq, hfront⟩ :=
    List.find?_eq_some_iff_append.1 ht
  refine ⟨front, back, heq, fun u hu => ?_, ?_⟩
  · have hu := hfront u hu
    rwa [Bool.not_not] at hu
  · rwa [Bool.not_eq_true'] at hopen

/-- Elements that have a property come first. -/
theorem pairwise_front {α : Type*} {P : α → Prop} {a b : List α} {t : α}
    (ha : ∀ u ∈ a, P u) (ht : P t)
    (hb : b.Pairwise fun u v => P v → P u) :
    (a ++ t :: b).Pairwise fun u v => P v → P u := by
  rw [List.pairwise_append, List.pairwise_cons]
  refine ⟨?_, ⟨fun v _ _ => ht, hb⟩, fun u hu v _ _ => ha u hu⟩
  exact List.pairwise_of_forall_mem_list fun u hu v _ _ => ha u hu

/-- Descriptors with the same links and callbacks. -/
structure SameTds (s s' : AsyncHost) : Prop where
  next : ∀ t, s'.nextTd t = s.nextTd t
  td : ∀ t, (s'.tdns t).td = (s.tdns t).td
  cb : ∀ t, (s'.tdns t).cb = (s.tdns t).cb
  ioc : ∀ t, hasIoc (s'.tdns t) = hasIoc (s.tdns t)

/-- The queue heads and their groups stay. -/
theorem Layout.same (h : Layout s gs)
    (hsame : SameLinks q s.xfer.host s'.xfer.host)
    (hfirst : (s'.xfer.host.qhns q).tdns = (s.xfer.host.qhns q).tdns)
    (htds : SameTds s.xfer.host s'.xfer.host) (hrun : s'.crashed = false)
    (hlinked : s'.linked = s.linked) (hwaiting : s'.waiting = s.waiting)
    (hused : s'.used = s.used) : Layout s' gs := by
  have hheads : ∀ m, (s'.xfer.host.qhns m).tdns = (s.xfer.host.qhns m).tdns
      ∧ countOf s' m = countOf s m := by
    intro m
    unfold countOf
    by_cases hm : m = q
    · subst hm
      exact ⟨hfirst, hsame.count⟩
    · rw [hsame.others m hm]
      exact ⟨rfl, rfl⟩
  have hleads : ∀ m, m ∈ s.linked ∨ m ∈ s.waiting →
      Leads s'.xfer.host.nextTd (s'.xfer.host.qhns m).tdns (flat (gs m))
        none := by
    intro m hm
    rw [(hheads m).1]
    exact (h.leads hm).congr fun t _ => htds.next t
  constructor
  · obtain ⟨l, hl⟩ := h.ring
    refine ⟨l, hl.sameLinks hsame hrun hlinked hwaiting fun m hm => ?_⟩
    have hmap := h.mapped (Layout.mem_ring hl |>.1 hm)
    exact ⟨hleads m (.inl (Layout.mem_ring hl |>.1 hm)),
      fun t ht => (htds.td t).trans (hmap t ht)⟩
  · rw [hwaiting]
    exact fun m hm => hleads m (.inr hm)
  · rw [hwaiting]
    refine h.sorted.imp fun {a b} hab => ?_
    rw [(hheads a).2, (hheads b).2]
    exact hab
  · rw [hwaiting]
    intro m hm
    rw [(hheads m).2]
    exact h.counts m hm
  · rw [hlinked, hwaiting]
    exact h.idle
  · exact fun m g hg => (h.groups m g hg).congr fun t _ =>
      ⟨htds.cb t, htds.ioc t⟩
  · exact h.apart
  · rw [hused]
    exact h.used

section finish

variable {t : TdId} {token tdCur overlayNext : UInt32}

/-- The descriptors after one is finished. -/
theorem finishTd_tdns (u : TdId) :
    (finishTd s q t token tdCur overlayNext).xfer.host.tdns u
      = if u = t then { s.xfer.host.tdns t with token := token }
        else s.xfer.host.tdns u := by
  show Function.update s.xfer.host.tdns t _ u = _
  split
  · next hu =>
      rw [hu]
      exact Function.update_self ..
  · next hu => exact Function.update_of_ne hu ..

/-- The controller writes to the token only. -/
theorem finishTd_sameTds
    (hioc : testBit token tdtokIoc
      = testBit (s.xfer.host.tdns t).token tdtokIoc) :
    SameTds s.xfer.host
      (finishTd s q t token tdCur overlayNext).xfer.host := by
  have hcases : ∀ u,
      (finishTd s q t token tdCur overlayNext).xfer.host.tdns u
          = s.xfer.host.tdns u
        ∨ u = t ∧ (finishTd s q t token tdCur overlayNext).xfer.host.tdns u
          = { s.xfer.host.tdns t with token := token } := by
    intro u
    rw [finishTd_tdns]
    split
    · next hu => exact .inr ⟨hu, rfl⟩
    · exact .inl rfl
  constructor
  · intro u
    unfold AsyncHost.nextTd
    rcases hcases u with hu | ⟨rfl, hu⟩
    · rw [hu]
    · rw [hu]
  · intro u
    rcases hcases u with hu | ⟨rfl, hu⟩
    · rw [hu]
    · rw [hu]
  · intro u
    rcases hcases u with hu | ⟨rfl, hu⟩
    · rw [hu]
    · rw [hu]
  · intro u
    rcases hcases u with hu | ⟨rfl, hu⟩
    · rw [hu]
    · rw [hu]
      exact hioc

theorem finishTd_sameLinks : SameLinks q s.xfer.host
    (finishTd s q t token tdCur overlayNext).xfer.host := by
  have hself : (finishTd s q t token tdCur overlayNext).xfer.host.qhns q
      = { s.xfer.host.qhns q with
        tdCur := tdCur
        overlayNext := overlayNext } := Function.update_self ..
  constructor
  · exact fun m hm => Function.update_of_ne hm ..
  · rw [hself]
  · rw [hself]
  · rw [hself]
  · rw [hself]
  · rfl
  · rfl

/-- The bytes left of a descriptor are counted for the request that it
belongs to. -/
theorem finishTd_bytesOf (id : Nat) :
    bytesOf (finishTd s q t token tdCur overlayNext) id = bytesOf s id
      ++ (if s.owner t = id then [(tdtokGetBytes token).toNat] else []) := by
  unfold bytesOf
  show ((s.finished ++ [_]).filter _).map _ = _
  rw [List.filter_append, List.map_append]
  congr 1
  split
  · next hid => simp [hid]
  · next hid => simp [hid]

/-- Bytes of two runs of descriptors add up. -/
theorem doneBytes_append (tdns : TdId → TDn) (a b : List TdId) :
    doneBytes tdns (a ++ b) = doneBytes tdns a ++ doneBytes tdns b := by
  unfold doneBytes
  rw [List.filter_append, List.map_append]

/-- One more descriptor of a group is finished, behind which none is. -/
theorem doneBytes_finishTd {a b : List TdId} (hnd : (a ++ t :: b).Nodup)
    (hopen : isDone (s.xfer.host.tdns t) = false)
    (hb : ∀ u ∈ b, isDone (s.xfer.host.tdns u) = false)
    (hdone : qtdGetStatus token = .success) :
    doneBytes (finishTd s q t token tdCur overlayNext).xfer.host.tdns
        (a ++ t :: b)
      = doneBytes s.xfer.host.tdns (a ++ t :: b)
        ++ [(tdtokGetBytes token).toNat] := by
  obtain ⟨-, hnb, hab⟩ := List.nodup_append.1 hnd
  have hta : ∀ u ∈ a, u ≠ t := fun u hu => hab u hu t (by simp)
  have htb : ∀ u ∈ b, u ≠ t := by
    rintro u hu rfl
    exact (List.nodup_cons.1 hnb).1 hu
  have happend : ∀ tdns : TdId → TDn, doneBytes tdns (a ++ t :: b)
      = doneBytes tdns a ++ (doneBytes tdns [t] ++ doneBytes tdns b) := by
    intro tdns
    rw [← doneBytes_append, ← doneBytes_append, List.singleton_append]
  have hsame : ∀ l : List TdId, (∀ u ∈ l, u ≠ t) → doneBytes
      (finishTd s q t token tdCur overlayNext).xfer.host.tdns l
        = doneBytes s.xfer.host.tdns l := by
    intro l hl
    refine doneBytes_congr fun u hu => ?_
    rw [finishTd_tdns, if_neg (hl u hu)]
  have hnone : doneBytes s.xfer.host.tdns b = [] := doneBytes_of_none hb
  have hold : doneBytes s.xfer.host.tdns [t] = [] :=
    doneBytes_of_none fun u hu => by rw [List.mem_singleton.1 hu, hopen]
  have hnew : doneBytes
      (finishTd s q t token tdCur overlayNext).xfer.host.tdns [t]
        = [(tdtokGetBytes token).toNat] := by
    unfold doneBytes
    rw [List.filter_cons_of_pos (by
      rw [finishTd_tdns, if_pos rfl]
      exact decide_eq_true hdone), List.filter_nil, List.map_singleton,
      finishTd_tdns, if_pos rfl]
    rfl
  rw [happend, happend, hsame a hta, hsame b htb, hnone, hold, hnew]
  simp

/-- The groups of all queue heads have different numbers. -/
theorem XferInv.ids_ne (h : XferInv s gs) {m : QhId} {g g' : Grp}
    (hg : g ∈ gs q) (hg' : g' ∈ gs m) (hne : g' ≠ g) : g'.1 ≠ g.1 := by
  intro hid
  by_cases hm : m = q
  · subst hm
    exact hne (h.group_unique hg' hg hid)
  · exact h.ids_apart hm hg' hg hid

/-- The callbacks so far were for other transactions than those that are
still there. -/
theorem XferInv.called_ne (h : XferInv s gs) {m : QhId} {g : Grp}
    (hg : g ∈ gs q) {done rest : List Request}
    (henq : s.enqueued m = done ++ rest)
    (hrest : m ∉ s.xfer.destroyed → rest = asked (gs m))
    {r : Request} (hr : r ∈ done) : r.id ≠ g.1 := by
  by_cases hm : m = q
  · subst hm
    have hnd := h.history.distinct m
    rw [henq, hrest (h.live_of_group hg).2, List.map_append] at hnd
    refine (List.nodup_append.1 hnd).2.2 r.id
      (List.mem_map_of_mem hr) g.1 ?_
    exact List.mem_map.2 ⟨⟨g.1, g.2.length⟩,
      List.mem_map.2 ⟨g, hg, rfl⟩, rfl⟩
  · refine h.history.apart m q hm r ?_ _ (h.group_enqueued hg)
    rw [henq]
    exact List.mem_append_left _ hr

section finishGroup

variable {g : Grp} (h : XferInv s gs) (hg : g ∈ gs q) (htg : t ∈ g.2)

include h hg htg

/-- The bytes of the other transactions stay. -/
theorem XferInv.finish_bytesOf {id : Nat} (hid : id ≠ g.1) :
    bytesOf (finishTd s q t token tdCur overlayNext) id
      = bytesOf s id := by
  rw [finishTd_bytesOf, h.progress.owner q g hg t htg, if_neg hid.symm,
    List.append_nil]

/-- Those of the transaction itself get one number more. -/
theorem XferInv.finish_bytesOf_self :
    bytesOf (finishTd s q t token tdCur overlayNext) g.1
      = bytesOf s g.1 ++ [(tdtokGetBytes token).toNat] := by
  rw [finishTd_bytesOf, if_pos (h.progress.owner q g hg t htg)]

/-- No request is answered by the controller alone. -/
theorem XferInv.finish_history :
    History (finishTd s q t token tdCur overlayNext) gs := by
  constructor
  · exact h.history.gone
  · exact h.history.distinct
  · exact h.history.apart
  · exact h.history.known
  · intro id hid
    rw [h.finish_bytesOf hg htg]
    · exact h.history.quiet id hid
    · rintro rfl
      exact hid (h.history.known q _ (h.group_enqueued hg))
  · intro m
    obtain ⟨done, rest, henq, hrest, hcalls, hlen⟩ := h.history.calls m
    have hbytes : ∀ r ∈ done,
        bytesOf (finishTd s q t token tdCur overlayNext) r.id
          = bytesOf s r.id := fun r hr =>
      h.finish_bytesOf hg htg (h.called_ne hg henq hrest hr)
    refine ⟨done, rest, henq, hrest, ?_, ?_⟩
    · have hmap : done.map (completed
          (finishTd s q t token tdCur overlayNext) m)
            = done.map (completed s m) := by
        apply List.map_congr_left
        intro r hr
        unfold completed
        rw [hbytes r hr]
      rw [hmap]
      exact hcalls
    · intro r hr
      rw [hbytes r hr]
      exact hlen r hr

/-- The bytes of each group are still those of its descriptors that are
finished. -/
theorem XferInv.finish_bytes (hq : q ∈ s.linked)
    (hopen : isDone (s.xfer.host.tdns t) = false)
    (hdone : qtdGetStatus token = .success) {m : QhId} (hm : m ∈ s.linked)
    {g' : Grp} (hg' : g' ∈ gs m) :
    bytesOf (finishTd s q t token tdCur overlayNext) g'.1
      = doneBytes (finishTd s q t token tdCur overlayNext).xfer.host.tdns
          g'.2 := by
  by_cases hgg : g' = g
  · subst hgg
    obtain ⟨a, b, hab⟩ := List.append_of_mem htg
    have hsub : g'.2.Sublist (flat (gs q)) := sublist_flat hg
    have hpair := (h.progress.order q hq).sublist hsub
    have hnd := hsub.nodup (h.layout.nodup_flat q)
    rw [hab] at hpair hnd
    have hb : ∀ u ∈ b, isDone (s.xfer.host.tdns u) = false := by
      intro u hu
      by_contra hu'
      have hu' := Bool.of_not_eq_false hu'
      have htu := (List.pairwise_cons.1
        (List.pairwise_append.1 hpair).2.1).1 u hu hu'
      rw [hopen] at htu
      cases htu
    rw [h.finish_bytesOf_self hg htg, h.progress.bytes q hq g' hg, hab]
    exact (doneBytes_finishTd hnd hopen hb hdone).symm
  · have hid := h.ids_ne hg hg' hgg
    rw [h.finish_bytesOf hg htg hid, h.progress.bytes m hm g' hg']
    refine (doneBytes_congr fun u hu => ?_).symm
    rw [finishTd_tdns, if_neg]
    rintro rfl
    exact hid ((h.progress.owner m g' hg' u hu).symm.trans
      (h.progress.owner q g hg u htg))

end finishGroup

/-- The descriptors are still finished in their order. -/
theorem XferInv.finish_order (h : XferInv s gs) {front back : List TdId}
    (heq : flat (gs q) = front ++ t :: back)
    (hfront : ∀ u ∈ front, isDone (s.xfer.host.tdns u) = true)
    (hdone : qtdGetStatus token = .success) {m : QhId}
    (hm : m ∈ s.linked) :
    (flat (gs m)).Pairwise fun a b =>
      isDone ((finishTd s q t token tdCur overlayNext).xfer.host.tdns b)
          = true →
        isDone ((finishTd s q t token tdCur overlayNext).xfer.host.tdns a)
          = true := by
  have hord := h.progress.order m hm
  by_cases hmq : m = q
  · subst hmq
    have hnd := h.layout.nodup_flat m
    rw [heq] at hnd hord ⊢
    have hne : ∀ u ∈ front ++ back, u ≠ t := by
      rintro u hu rfl
      exact (List.nodup_middle.1 hnd |> List.nodup_cons.1).1 hu
    refine pairwise_front (fun u hu => ?_) ?_ ?_
    · rw [finishTd_tdns, if_neg (hne u (List.mem_append_left _ hu))]
      exact hfront u hu
    · rw [finishTd_tdns, if_pos rfl]
      exact decide_eq_true hdone
    · refine (List.pairwise_cons.1
        (List.pairwise_append.1 hord).2.1).2.imp_of_mem ?_
      intro u v hu hv huv
      rw [finishTd_tdns, finishTd_tdns,
        if_neg (hne u (List.mem_append_right _ hu)),
        if_neg (hne v (List.mem_append_right _ hv))]
      exact huv
  · have ht : t ∈ flat (gs q) := by
      rw [heq]
      simp
    have hne : ∀ w ∈ flat (gs m), w ≠ t := by
      rintro w hw rfl
      exact h.layout.apart m q hmq w hw ht
    refine hord.imp_of_mem ?_
    intro u v hu hv huv
    rw [finishTd_tdns, finishTd_tdns, if_neg (hne u hu),
      if_neg (hne v hv)]
    exact huv

/-- The controller finishes a descriptor. -/
theorem XferInv.finish (h : XferInv s gs) (hq : q ∈ s.linked)
    (ht : current s q = some t)
    (hfin : Finishes (s.xfer.host.tdns t).token token)
    (hok : (bytesOf s (s.owner t)).sum + (tdtokGetBytes token).toNat
      < 2 ^ 31) :
    XferInv (finishTd s q t token tdCur overlayNext) gs := by
  obtain ⟨front, back, heq, hfront, hopen⟩ := h.current_split hq ht
  obtain ⟨-, hdone, hioc⟩ := hfin
  obtain ⟨g, hg, htg⟩ := mem_flat.1
    (show t ∈ flat (gs q) by rw [heq]; simp)
  refine ⟨h.running, ?_, h.finish_history hg htg, ?_⟩
  · refine h.layout.same finishTd_sameLinks ?_ (finishTd_sameTds hioc)
      h.running rfl rfl rfl
    have hself : (finishTd s q t token tdCur overlayNext).xfer.host.qhns q
        = { s.xfer.host.qhns q with
          tdCur := tdCur
          overlayNext := overlayNext } := Function.update_self ..
    rw [hself]
  · constructor
    · exact h.progress.owner
    · exact fun m hm g' hg' => h.finish_bytes hg htg hq hopen hdone hm hg'
    · intro m hm g' hg'
      by_cases hgg : g' = g
      · subst hgg
        rw [h.finish_bytesOf_self hg htg, List.sum_append,
          List.sum_singleton]
        rw [h.progress.owner q g' hg t htg] at hok
        exact hok
      · rw [h.finish_bytesOf hg htg (h.ids_ne hg hg' hgg)]
        exact h.progress.small m hm g' hg'
    · exact fun m hm => h.finish_order heq hfront hdone hm

end finish

-- ================================================================ adding

/-- A queue head without descriptors is added. -/
theorem XferInv.add (h : XferInv s gs) (hq : q ∉ s.linked)
    (hw : q ∉ s.waiting) (hd : q ∉ s.xfer.destroyed)
    (hfirst : (s.xfer.host.qhns q).tdns = none) :
    XferInv { s with
      xfer := { s.xfer with host := ehciAddQhnAsync s.xfer.host q }
      linked := q :: s.linked } gs := by
  -- a queue head that is not in use has no requests
  have hnil : gs q = [] := h.layout.idle q hq hw
  obtain ⟨l, hl⟩ := h.layout.ring
  have hql : q ∉ l := fun hmem => hq (Layout.mem_ring hl |>.1 hmem)
  obtain ⟨hheads, htdns, -⟩ := add_keeps s.xfer.host q
  refine ⟨h.running, ?_, ?_, ?_⟩
  · constructor
    · refine hl.add hql hw ⟨?_, ?_⟩
      · show Leads _ (s.xfer.host.qhns q).tdns (flat (gs q)) none
        rw [hfirst, hnil]
        rfl
      · show Mapped _ (flat (gs q))
        rw [hnil]
        exact fun t ht => absurd ht List.not_mem_nil
    · intro m hm
      show Leads (fun t => ((ehciAddQhnAsync s.xfer.host q).tdns t).next)
        ((ehciAddQhnAsync s.xfer.host q).qhns m).tdns _ none
      rw [htdns, hheads.tdns m]
      exact h.layout.waits m hm
    · refine h.layout.sorted.imp fun {a b} hab => ?_
      unfold countOf
      dsimp only
      rw [hheads.count a, hheads.count b]
      exact hab
    · intro m hm
      unfold countOf
      dsimp only
      rw [hheads.count m]
      exact h.layout.counts m hm
    · exact fun m hm => h.layout.idle m fun hmem =>
        hm (List.mem_cons_of_mem _ hmem)
    · dsimp only
      rw [htdns]
      exact h.layout.groups
    · exact h.layout.apart
    · exact h.layout.used
  · constructor
    · intro m hm
      refine ⟨fun hmem => ?_, (h.history.gone m hm).2⟩
      rcases List.mem_cons.1 hmem with rfl | hmem
      · exact hd hm
      · exact (h.history.gone m hm).1 hmem
    · exact h.history.distinct
    · exact h.history.apart
    · exact h.history.known
    · exact h.history.quiet
    · exact h.history.calls
  · constructor
    · exact h.progress.owner
    · intro m hm g hg
      dsimp only
      rw [htdns]
      rcases List.mem_cons.1 hm with rfl | hm
      · rw [hnil] at hg
        cases hg
      · exact h.progress.bytes m hm g hg
    · intro m hm g hg
      rcases List.mem_cons.1 hm with rfl | hm
      · rw [hnil] at hg
        cases hg
      · exact h.progress.small m hm g hg
    · intro m hm
      dsimp only
      rw [htdns]
      rcases List.mem_cons.1 hm with rfl | hm
      · rw [hnil]
        exact List.Pairwise.nil
      · exact h.progress.order m hm

-- ============================================================= enqueueing

/-- Enabling a descriptor leaves the interrupt bit alone. -/
theorem TDn.enable_ioc (tdn : TDn) : hasIoc tdn.enable = hasIoc tdn := by
  show testBit (tdn.token &&& ~~~mask tdtokShalted ||| mask tdtokSactive)
    tdtokIoc = testBit tdn.token tdtokIoc
  rw [testBit_or_mask _ (by decide),
    testBit_and_not_mask _ (by decide) (by decide)]
  simp [tdtokShalted, tdtokSactive, tdtokIoc]

/-- A descriptor that is enabled is not finished. -/
theorem TDn.enable_open (tdn : TDn) : isDone tdn.enable = false := by
  apply decide_eq_false
  rw [status_success_iff]
  show ¬(testBit (tdn.token &&& ~~~mask tdtokShalted ||| mask tdtokSactive)
    tdtokSactive = false ∧ _)
  rw [testBit_or_mask _ (by decide)]
  simp

/-- The host with one more group. -/
structure Grown (q : QhId) (s s' : AsyncHost) (old : List TdId) (g : Grp) :
    Prop where
  links : SameLinks q s s'
  leads : Leads s'.nextTd (s'.qhns q).tdns (old ++ g.2) none
  group : IsGroup s'.tdns (some g.1) g.2
  mapped : Mapped s'.tdns g.2
  td : ∀ t ∉ g.2, (s'.tdns t).td = (s.tdns t).td
  opened : ∀ t ∈ g.2, isDone (s'.tdns t) = false
  same : ∀ t ∉ g.2, (s'.tdns t).cb = (s.tdns t).cb
    ∧ (s'.tdns t).token = (s.tdns t).token
  next : ∀ t ∉ g.2, t ∉ old → s'.tdns t = s.tdns t

/-- `qtd_alloc` and `qtd_enqueue` add a group. -/
theorem Layout.allocEnqueue_eq (h : Layout s gs) {id : Nat} {ep : Endpoint}
    {speed : Speed} {xact : List Xact} {blocks : List (TdId × UInt32)}
    (hen : Enqueues s q id ep speed xact blocks) :
    ∃ host', allocEnqueue s q id ep speed xact blocks
        = .ok { s.xfer with host := host' }
      ∧ Grown q s.xfer.host host' (flat (gs q)) (id, blocks.map Prod.fst)
      ∧ ∀ t ∈ blocks.map Prod.fst, (host'.tdns t).token
        = (qtdAlloc ep speed xact (some id) blocks
            s.xfer.host.tdns t).enable.token := by
  obtain ⟨hq, -, hxact, hlen, hnd, hnew⟩ := hen
  obtain ⟨hkeep, hleads, hgroup, hmapped⟩ := @qtdAlloc_eq ep speed xact
    (some id) blocks s.xfer.host.tdns hxact hlen hnd
  have hfuel := xferFuel_enough h hq
  have hblocks : (blocks.map Prod.fst).length = blocks.length :=
    List.length_map ..
  unfold allocEnqueue
  generalize blocks.map Prod.fst = tds at *
  generalize qtdAlloc ep speed xact (some id) blocks s.xfer.host.tdns
    = tdns₀ at *
  obtain ⟨t, rest, rfl⟩ : ∃ t rest, tds = t :: rest := by
    cases tds with
    | nil => exact hgroup.elim
    | cons t rest => exact ⟨t, rest, rfl⟩
  have hold : Leads (fun u => (tdns₀ u).next) (s.xfer.host.qhns q).tdns
      (flat (gs q)) none := by
    refine (h.leads (.inl hq)).congr fun u hu => ?_
    rw [hkeep u fun hmem => hnew u hmem (h.used q u hu)]
    rfl
  -- the allocator hands out descriptors that are on no queue head
  have hapart : ∀ u ∈ t :: rest, u ∉ flat (gs q) :=
    fun u hu hmem => hnew u hu (h.used q u hmem)
  have hmap : Mapped tdns₀ (flat (gs q)) := by
    intro u hu
    rw [hkeep u fun hmem => hnew u hmem (h.used q u hu)]
    exact h.mapped hq u hu
  obtain ⟨host', hrun, hE⟩ := @qtdEnqueue_eq q
    { s.xfer.host with tdns := tdns₀ } t (flat (gs q)) (t :: rest)
    (xferFuel s + blocks.length) hold hleads hmap hmapped hapart (by omega)
    (by omega)
  refine ⟨host', ?_, ?_, fun u hu => (hE.new u hu).2⟩
  · show Except.bind (qtdEnqueue ..) _ = _
    rw [hrun]
    rfl
  · constructor
    · exact ⟨hE.links.others, hE.links.next, hE.links.qhlptr, hE.links.pqh,
        hE.links.count, hE.links.tail, hE.links.pending⟩
    · exact hE.leads
    · refine hgroup.congr fun u hu => ⟨(hE.new u hu).1, ?_⟩
      unfold hasIoc
      rw [(hE.new u hu).2]
      exact TDn.enable_ioc _
    · exact fun u hu => (hE.td u).trans (hmapped u hu)
    · intro u hu
      rw [hE.td u]
      exact congrArg TDn.td (hkeep u hu)
    · intro u hu
      rw [isDone_congr (hE.new u hu).2]
      exact TDn.enable_open _
    · intro u hu
      have hsame := hE.same u hu
      dsimp only at hsame
      rw [hkeep u hu] at hsame
      exact hsame
    · intro u hu hmem
      rw [hE.next u hu hmem]
      exact hkeep u hu

/-- The groups with one more. -/
def addGroup (gs : QhId → List Grp) (q : QhId) (g : Grp) : QhId →
    List Grp :=
  Function.update gs q (gs q ++ [g])

/-- A new request is on its own queue head only. -/
theorem mem_addGroup {m : QhId} {g g' : Grp} :
    g' ∈ addGroup gs q g m ↔ g' ∈ gs m ∨ m = q ∧ g' = g := by
  unfold addGroup
  by_cases hm : m = q
  · subst hm
    simp
  · simp [hm]

theorem flat_addGroup (m : QhId) (g : Grp) :
    flat (addGroup gs q g m) = flat (gs m) ++ (if m = q then g.2 else []) := by
  unfold addGroup
  by_cases hm : m = q
  · subst hm
    rw [Function.update_self, flat_append, if_pos rfl]
    simp [flat]
  · rw [Function.update_of_ne hm, if_neg hm, List.append_nil]

theorem mem_flat_addGroup {m : QhId} {g : Grp} {t : TdId} :
    t ∈ flat (addGroup gs q g m)
      ↔ t ∈ flat (gs m) ∨ m = q ∧ t ∈ g.2 := by
  rw [flat_addGroup, List.mem_append]
  by_cases hm : m = q
  · simp [hm]
  · simp [hm]

section enqueue

variable {host' : AsyncHost} {g : Grp}

/-- Putting a request on a queue head keeps the layout. -/
theorem Layout.enqueue (h : Layout s gs) (hrun : s.crashed = false)
    (hq : q ∈ s.linked) (hnew : ∀ t ∈ g.2, t ∉ s.used)
    (hG : Grown q s.xfer.host host' (flat (gs q)) g) :
    Layout (record q g.1 g.2 { s with
      xfer := { s.xfer with host := host' } }) (addGroup gs q g) := by
  have hold : ∀ m, ∀ t ∈ flat (gs m), t ∉ g.2 :=
    fun m t ht hmem => hnew t hmem (h.used m t ht)
  have hleads : ∀ m, m ∈ s.linked ∨ m ∈ s.waiting →
      Leads host'.nextTd (host'.qhns m).tdns (flat (addGroup gs q g m))
        none := by
    intro m hm
    rw [flat_addGroup]
    -- the new descriptors hang on the end of one queue head
    by_cases hmq : m = q
    · rw [if_pos hmq, hmq]
      exact hG.leads
    · rw [if_neg hmq, List.append_nil, hG.links.others m hmq]
      refine (h.leads hm).congr fun t ht => ?_
      exact congrArg TDn.next
        (hG.next t (hold m t ht) (h.apart m q hmq t ht))
  have hmapped : ∀ m ∈ s.linked,
      Mapped host'.tdns (flat (addGroup gs q g m)) := by
    intro m hm t ht
    rcases mem_flat_addGroup.1 ht with ht | ⟨-, ht⟩
    · rw [hG.td t (hold m t ht)]
      exact h.mapped hm t ht
    · exact hG.mapped t ht
  have hcount : ∀ m, countOf { s with
      xfer := { s.xfer with host := host' } } m = countOf s m :=
    fun m => hG.links.countOf m
  constructor
  · obtain ⟨l, hl⟩ := h.ring
    refine ⟨l, hl.sameLinks hG.links hrun rfl rfl fun m hm => ?_⟩
    have hlink := Layout.mem_ring hl |>.1 hm
    exact ⟨hleads m (.inl hlink), hmapped m hlink⟩
  · exact fun m hm => hleads m (.inr hm)
  · refine h.sorted.imp fun {a b} hab => ?_
    exact (hcount b).trans_le (hab.trans_eq (hcount a).symm)
  · intro m hm
    rcases h.counts m hm with hone | htwo
    · exact .inl ((hcount m).trans hone)
    · exact .inr ((hcount m).trans htwo)
  · intro m hml hmw
    have hmq : m ≠ q := by
      rintro rfl
      exact hml hq
    unfold addGroup
    rw [Function.update_of_ne hmq]
    exact h.idle m hml hmw
  · intro m g' hg'
    rcases mem_addGroup.1 hg' with hg' | ⟨-, rfl⟩
    · refine (h.groups m g' hg').congr fun t ht => ?_
      obtain ⟨hcb, htoken⟩ :=
        hG.same t (hold m t (mem_flat.2 ⟨g', hg', ht⟩))
      refine ⟨hcb, ?_⟩
      show testBit (host'.tdns t).token tdtokIoc = _
      rw [htoken]
      rfl
    · exact hG.group
  · intro a b hab t hta htb
    rcases mem_flat_addGroup.1 hta with hta | ⟨ha, hta⟩
    · rcases mem_flat_addGroup.1 htb with htb | ⟨-, htb⟩
      · exact h.apart a b hab t hta htb
      · exact hold a t hta htb
    · rcases mem_flat_addGroup.1 htb with htb | ⟨hb, -⟩
      · exact hold b t htb hta
      · exact hab (ha.trans hb.symm)
  · intro m t ht
    rcases mem_flat_addGroup.1 ht with ht | ⟨-, ht⟩
    · exact List.mem_append_right _ (h.used m t ht)
    · exact List.mem_append_left _ ht

/-- It is recorded as one that is asked for and not answered yet. -/
theorem XferInv.enqueue_history (h : XferInv s gs) (hq : q ∈ s.linked)
    (hid : g.1 ∉ s.requests) :
    History (record q g.1 g.2 { s with
      xfer := { s.xfer with host := host' } }) (addGroup gs q g) := by
  have hd : q ∉ s.xfer.destroyed := fun hd => (h.history.gone q hd).1 hq
  -- the identifier was not used before
  have hfresh : ∀ m, ∀ r ∈ s.enqueued m, r.id ≠ g.1 := by
    intro m r hr he
    exact hid (he ▸ h.history.known m r hr)
  have hmem : ∀ m r, r ∈ Function.update s.enqueued q
      (s.enqueued q ++ [⟨g.1, g.2.length⟩]) m →
        r ∈ s.enqueued m ∨ m = q ∧ r.id = g.1 := by
    intro m r hr
    by_cases hm : m = q
    · subst hm
      rw [Function.update_self, List.mem_append, List.mem_singleton] at hr
      rcases hr with hr | rfl
      · exact .inl hr
      · exact .inr ⟨rfl, rfl⟩
    · rw [Function.update_of_ne hm] at hr
      exact .inl hr
  constructor
  · exact h.history.gone
  · intro m
    show (List.map Request.id (Function.update s.enqueued q _ m)).Nodup
    by_cases hm : m = q
    · subst hm
      rw [Function.update_self, List.map_append, List.nodup_append]
      refine ⟨h.history.distinct m, List.nodup_singleton _, ?_⟩
      intro a ha b hb
      obtain ⟨r, hr, rfl⟩ := List.mem_map.1 ha
      rw [List.map_singleton, List.mem_singleton] at hb
      rw [hb]
      exact hfresh m r hr
    · rw [Function.update_of_ne hm]
      exact h.history.distinct m
  · intro a b hab r hr r' hr'
    rcases hmem a r hr with hr | ⟨ha, hr⟩
    · rcases hmem b r' hr' with hr' | ⟨-, hr'⟩
      · exact h.history.apart a b hab r hr r' hr'
      · rw [hr']
        exact hfresh a r hr
    · rcases hmem b r' hr' with hr' | ⟨hb, -⟩
      · rw [hr]
        exact (hfresh b r' hr').symm
      · exact absurd (ha.trans hb.symm) hab
  · intro m r hr
    rcases hmem m r hr with hr | ⟨-, hr⟩
    · exact List.mem_cons_of_mem _ (h.history.known m r hr)
    · rw [hr]
      exact List.mem_cons_self ..
  · exact fun id hid' => h.history.quiet id fun hmem' =>
      hid' (List.mem_cons_of_mem _ hmem')
  · intro m
    show ∃ done rest, Function.update s.enqueued q _ m = done ++ rest ∧ _
    by_cases hm : m = q
    · subst hm
      obtain ⟨done, henq, hcalls, hlen⟩ := h.split_enqueued hd
      refine ⟨done, asked (gs m) ++ [⟨g.1, g.2.length⟩], ?_, ?_, ?_,
        hlen⟩
      · rw [Function.update_self, henq, List.append_assoc]
      · intro _
        unfold addGroup asked
        rw [Function.update_self, List.map_append]
        rfl
      · show callsOf s m = done.map (completed s m)
          ++ (if m ∈ s.xfer.destroyed then _ else [])
        rw [if_neg hd, List.append_nil]
        exact hcalls
    · rw [Function.update_of_ne hm, addGroup, Function.update_of_ne hm]
      exact h.history.calls m

/-- All of its descriptors are still open. -/
theorem XferInv.enqueue_progress (h : XferInv s gs)
    (hid : g.1 ∉ s.requests) (hnew : ∀ t ∈ g.2, t ∉ s.used)
    (hG : Grown q s.xfer.host host' (flat (gs q)) g) :
    Progress (record q g.1 g.2 { s with
      xfer := { s.xfer with host := host' } }) (addGroup gs q g) := by
  have hold : ∀ m, ∀ t ∈ flat (gs m), t ∉ g.2 :=
    fun m t ht hmem => hnew t hmem (h.layout.used m t ht)
  have hnone : bytesOf s g.1 = [] := h.history.quiet g.1 hid
  constructor
  · intro m g' hg' t ht
    show (if t ∈ g.2 then g.1 else s.owner t) = g'.1
    rcases mem_addGroup.1 hg' with hg' | ⟨-, rfl⟩
    · rw [if_neg (hold m t (mem_flat.2 ⟨g', hg', ht⟩))]
      exact h.progress.owner m g' hg' t ht
    · exact if_pos ht
  · intro m hm g' hg'
    show bytesOf s g'.1 = doneBytes host'.tdns g'.2
    rcases mem_addGroup.1 hg' with hg' | ⟨-, rfl⟩
    · rw [h.progress.bytes m hm g' hg']
      refine (doneBytes_congr fun t ht => ?_).symm
      exact (hG.same t (hold m t (mem_flat.2 ⟨g', hg', ht⟩))).2
    · rw [hnone, doneBytes_of_none hG.opened]
  · intro m hm g' hg'
    show (bytesOf s g'.1).sum < 2 ^ 31
    rcases mem_addGroup.1 hg' with hg' | ⟨-, rfl⟩
    · exact h.progress.small m hm g' hg'
    · rw [hnone]
      decide
  · intro m hm
    show (flat (addGroup gs q g m)).Pairwise fun a b =>
      isDone (host'.tdns b) = true → isDone (host'.tdns a) = true
    have hsame : ∀ t ∈ flat (gs m),
        isDone (host'.tdns t) = isDone (s.xfer.host.tdns t) :=
      fun t ht => isDone_congr (hG.same t (hold m t ht)).2
    have hopen : ∀ t ∈ (if m = q then g.2 else []),
        isDone (host'.tdns t) = false := by
      intro t ht
      split at ht
      · exact hG.opened t ht
      · cases ht
    rw [flat_addGroup, List.pairwise_append]
    refine ⟨?_, ?_, ?_⟩
    · refine (h.progress.order m hm).imp_of_mem ?_
      intro a b ha hb hab
      rw [hsame a ha, hsame b hb]
      exact hab
    · apply List.pairwise_of_forall_mem_list
      intro a _ b hb hdone
      rw [hopen b hb] at hdone
      cases hdone
    · intro a _ b hb hdone
      rw [hopen b hb] at hdone
      cases hdone

end enqueue

end ProjectsLibs.Ehci
