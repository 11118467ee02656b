/-
What holds of the asynchronous schedule in use, and that a pass of the
driver around the ring keeps it (`XferInv.complete`).

# The invariant

`XferInv s gs` ties the memory to the history: the descriptors of a queue
head are the groups `gs q`, one behind the other, of the transactions that
were enqueued on it and for which no callback was called yet. A step keeps
it with other groups: an enqueueing adds one, a pass takes the finished
ones from the front, and a queue head that is destroyed has none left.
-/
import ProjectsLibs.Lib.Loop
import ProjectsLibs.Ehci.Proofs.Enqueue

namespace ProjectsLibs.Ehci

open Lib

-- ======================================================== the invariant

/-- The transactions of groups. -/
def asked (gs : List Grp) : List Request :=
  gs.map fun g => ⟨g.1, g.2.length⟩

/-- The remaining bytes of the descriptors that are finished. -/
def doneBytes (tdns : TdId → TDn) (tds : List TdId) : List Nat :=
  (tds.filter fun t => isDone (tdns t)).map fun t => bytesLeft (tdns t)

/-- The ring, with the descriptors of the groups. -/
def xferRing (s : XferHost) (gs : QhId → List Grp) : RingHost :=
  ⟨s.xfer.host, s.linked, s.waiting, fun q => flat (gs q), s.crashed⟩

/-- A queue head's count of answers to the doorbell. -/
def countOf (s : XferHost) (q : QhId) : Nat :=
  (s.xfer.host.qhns q).wasCancelled

/-- The queue heads: the ring and those that wait, each with its
descriptors. -/
structure Layout (s : XferHost) (gs : QhId → List Grp) : Prop where
  ring : ∃ l, Ringed (xferRing s gs) l
  waits : ∀ q ∈ s.waiting, Leads s.xfer.host.nextTd
    (s.xfer.host.qhns q).tdns (flat (gs q)) none
  sorted : s.waiting.Pairwise fun a b => countOf s b ≤ countOf s a
  counts : ∀ q ∈ s.waiting, countOf s q = 1 ∨ countOf s q = 2
  idle : ∀ q, q ∉ s.linked → q ∉ s.waiting → gs q = []
  groups : ∀ q, ∀ g ∈ gs q, IsGroup s.xfer.host.tdns (some g.1) g.2
  apart : ∀ q m, q ≠ m → ∀ t ∈ flat (gs q), t ∉ flat (gs m)
  used : ∀ q, ∀ t ∈ flat (gs q), t ∈ s.used

/-- The callbacks: those of the first transactions of a queue head were
called, and those of its groups were not. -/
structure History (s : XferHost) (gs : QhId → List Grp) : Prop where
  gone : ∀ q ∈ s.xfer.destroyed, q ∉ s.linked ∧ q ∉ s.waiting
  distinct : ∀ q, ((s.enqueued q).map Request.id).Nodup
  apart : ∀ q m, q ≠ m → ∀ r ∈ s.enqueued q, ∀ r' ∈ s.enqueued m,
    r.id ≠ r'.id
  known : ∀ q, ∀ r ∈ s.enqueued q, r.id ∈ s.requests
  quiet : ∀ id, id ∉ s.requests → bytesOf s id = []
  calls : ∀ q, ∃ done rest, s.enqueued q = done ++ rest
    ∧ (q ∉ s.xfer.destroyed → rest = asked (gs q))
    ∧ callsOf s q = done.map (completed s q)
      ++ (if q ∈ s.xfer.destroyed then rest.map (cancelled q) else [])
    ∧ ∀ r ∈ done, (bytesOf s r.id).length = r.size

/-- The controller: the descriptors of a queue head are finished in their
order. -/
structure Progress (s : XferHost) (gs : QhId → List Grp) : Prop where
  owner : ∀ q, ∀ g ∈ gs q, ∀ t ∈ g.2, s.owner t = g.1
  bytes : ∀ q ∈ s.linked, ∀ g ∈ gs q,
    bytesOf s g.1 = doneBytes s.xfer.host.tdns g.2
  small : ∀ q ∈ s.linked, ∀ g ∈ gs q, (bytesOf s g.1).sum < 2 ^ 31
  order : ∀ q ∈ s.linked, (flat (gs q)).Pairwise fun a b =>
    isDone (s.xfer.host.tdns b) = true → isDone (s.xfer.host.tdns a) = true

structure XferInv (s : XferHost) (gs : QhId → List Grp) : Prop where
  running : s.crashed = false
  layout : Layout s gs
  history : History s gs
  progress : Progress s gs

variable {s s' : XferHost} {gs : QhId → List Grp} {q : QhId}

-- ============================================================ first facts

theorem Layout.mem_ring {l : List QhId} (hl : Ringed (xferRing s gs) l) :
    q ∈ l ↔ q ∈ s.linked := hl.perm.mem_iff

/-- The descriptors of a queue head that is linked or waits. -/
theorem Layout.leads (h : Layout s gs)
    (hq : q ∈ s.linked ∨ q ∈ s.waiting) :
    Leads s.xfer.host.nextTd (s.xfer.host.qhns q).tdns (flat (gs q))
      none := by
  rcases hq with hq | hq
  · obtain ⟨l, hl⟩ := h.ring
    exact (hl.tds q (mem_ring hl |>.2 hq)).1
  · exact h.waits q hq

/-- Those of a queue head that is linked have their `struct TD`. -/
theorem Layout.mapped (h : Layout s gs) (hq : q ∈ s.linked) :
    Mapped s.xfer.host.tdns (flat (gs q)) := by
  obtain ⟨l, hl⟩ := h.ring
  exact (hl.tds q (mem_ring hl |>.2 hq)).2

/-- No descriptor is on a queue head twice. -/
theorem Layout.nodup_flat (h : Layout s gs) (q : QhId) :
    (flat (gs q)).Nodup := by
  by_cases hl : q ∈ s.linked
  · exact (h.leads (.inl hl)).nodup
  · by_cases hw : q ∈ s.waiting
    · exact (h.leads (.inr hw)).nodup
    · rw [h.idle q hl hw]
      exact List.nodup_nil

/-- The walks are long enough. -/
theorem Layout.length_flat (h : Layout s gs) (q : QhId) :
    (flat (gs q)).length ≤ s.used.length :=
  ((h.nodup_flat q).subperm fun t ht => h.used q t ht).length_le

/-- A queue head in the ring is not waiting for its end. -/
theorem Layout.linked_not_waiting (h : Layout s gs) (hq : q ∈ s.linked) :
    q ∉ s.waiting := by
  obtain ⟨l, hl⟩ := h.ring
  exact fun hw => hl.apart q hw (mem_ring hl |>.2 hq)

/-- The ring, where nothing but the descriptors and the overlay of one
queue head has changed. -/
theorem Ringed.sameLinks {r r' : RingHost} {l : List QhId}
    (h : Ringed r l) (hsame : SameLinks q r.host r'.host)
    (hrun : r'.crashed = false) (hlinked : r'.linked = r.linked)
    (hremoved : r'.removed = r.removed) (htds : ∀ m ∈ l, HasTds r' m) :
    Ringed r' l := by
  have hnext : r'.host.nextOf = r.host.nextOf := hsame.nextOf_eq
  have hlinks : ∀ m, (r'.host.qhns m).qhlptr = (r.host.qhns m).qhlptr
      ∧ (r'.host.qhns m).pqh = (r.host.qhns m).pqh := by
    intro m
    by_cases hm : m = q
    · rw [hm]
      exact ⟨hsame.qhlptr, hsame.pqh⟩
    · rw [hsame.others m hm]
      exact ⟨rfl, rfl⟩
  constructor
  · exact hrun
  · rw [hnext]
    exact h.ring
  · rw [hlinked]
    exact h.perm
  · exact h.nodup
  · rw [hsame.tail]
    exact h.tail
  · rw [hsame.tail]
    exact h.tail_mem
  · intro m hm
    obtain ⟨n, hn, hlink⟩ := h.links m hm
    refine ⟨n, ?_, ?_⟩
    · rw [hnext]
      exact hn
    · unfold qhLink
      rw [(hlinks m).1, (hlinks n).2]
      exact hlink
  · rw [hnext, hsame.pending, hremoved]
    exact h.pending
  · rw [hremoved]
    exact h.apart
  · exact htds

namespace XferInv

variable (h : XferInv s gs)

include h

/-- A queue head with groups is not destroyed. -/
theorem live_of_group {g : Grp} (hg : g ∈ gs q) :
    (q ∈ s.linked ∨ q ∈ s.waiting) ∧ q ∉ s.xfer.destroyed := by
  have hlive : q ∈ s.linked ∨ q ∈ s.waiting := by
    by_contra hno
    push Not at hno
    rw [h.layout.idle q hno.1 hno.2] at hg
    cases hg
  refine ⟨hlive, fun hd => ?_⟩
  obtain ⟨hl, hw⟩ := h.history.gone q hd
  exact hlive.elim hl hw

/-- The transactions of a queue head that is not destroyed. -/
theorem split_enqueued (hd : q ∉ s.xfer.destroyed) :
    ∃ done, s.enqueued q = done ++ asked (gs q)
      ∧ callsOf s q = done.map (completed s q)
      ∧ ∀ r ∈ done, (bytesOf s r.id).length = r.size := by
  obtain ⟨done, rest, heq, hrest, hcalls, hlen⟩ := h.history.calls q
  rw [if_neg hd, List.append_nil] at hcalls
  rw [hrest hd] at heq
  exact ⟨done, heq, hcalls, hlen⟩

/-- Every request on a queue head was asked for. -/
theorem group_enqueued {g : Grp} (hg : g ∈ gs q) :
    (⟨g.1, g.2.length⟩ : Request) ∈ s.enqueued q := by
  obtain ⟨done, heq, -⟩ := h.split_enqueued (h.live_of_group hg).2
  rw [heq]
  exact List.mem_append_right _ (List.mem_map.2 ⟨g, hg, rfl⟩)

/-- The groups of a queue head are for different transactions. -/
theorem nodup_ids (q : QhId) : ((gs q).map Prod.fst).Nodup := by
  by_cases hd : q ∈ s.xfer.destroyed
  · have hnil : gs q = [] := by
      obtain ⟨hl, hw⟩ := h.history.gone q hd
      exact h.layout.idle q hl hw
    rw [hnil]
    exact List.nodup_nil
  · obtain ⟨done, heq, -⟩ := h.split_enqueued hd
    have hnd := h.history.distinct q
    rw [heq, List.map_append] at hnd
    have hmap : (asked (gs q)).map Request.id = (gs q).map Prod.fst := by
      unfold asked
      rw [List.map_map]
      rfl
    rw [hmap] at hnd
    exact (List.nodup_append.1 hnd).2.1

theorem group_unique {g g' : Grp} (hg : g ∈ gs q) (hg' : g' ∈ gs q)
    (hid : g.1 = g'.1) : g = g' :=
  List.inj_on_of_nodup_map (h.nodup_ids q) hg hg' hid

/-- Groups of different queue heads are for different transactions. -/
theorem ids_apart {m : QhId} (hne : q ≠ m) {g g' : Grp} (hg : g ∈ gs q)
    (hg' : g' ∈ gs m) : g.1 ≠ g'.1 :=
  h.history.apart q m hne _ (h.group_enqueued hg) _ (h.group_enqueued hg')

end XferInv

-- ================================================================= a pass

/-- Whether a descriptor is done is read off its token. -/
theorem isDone_congr {a b : TDn} (h : a.token = b.token) :
    isDone a = isDone b := by
  unfold isDone
  rw [h]

theorem doneBytes_congr {tdns tdns' : TdId → TDn} {tds : List TdId}
    (h : ∀ t ∈ tds, (tdns' t).token = (tdns t).token) :
    doneBytes tdns' tds = doneBytes tdns tds := by
  unfold doneBytes
  have hfilter : tds.filter (fun t => isDone (tdns' t))
      = tds.filter (fun t => isDone (tdns t)) :=
    List.filter_congr fun t ht => isDone_congr (h t ht)
  rw [hfilter]
  apply List.map_congr_left
  intro t ht
  unfold bytesLeft
  rw [h t (List.mem_of_mem_filter ht)]

/-- No descriptor is finished. -/
theorem doneBytes_of_none {tdns : TdId → TDn} {tds : List TdId}
    (h : ∀ t ∈ tds, isDone (tdns t) = false) : doneBytes tdns tds = [] := by
  unfold doneBytes
  rw [List.filter_eq_nil_iff.2 fun t ht => by rw [h t ht]; nofun]
  rfl

/-- All descriptors of a group are finished. -/
theorem doneBytes_of_done {tdns : TdId → TDn} {tds : List TdId}
    (h : ∀ t ∈ tds, isDone (tdns t) = true) :
    (doneBytes tdns tds).sum = bytesOfTds tdns tds
      ∧ (doneBytes tdns tds).length = tds.length := by
  have hall : tds.filter (fun t => isDone (tdns t)) = tds :=
    List.filter_eq_self.2 h
  unfold doneBytes bytesOfTds
  rw [hall]
  exact ⟨rfl, List.length_map ..⟩

/-- One of them is not. -/
theorem doneBytes_of_open {tdns : TdId → TDn} {tds : List TdId}
    (h : ∃ t ∈ tds, isDone (tdns t) = false) :
    (doneBytes tdns tds).length < tds.length := by
  obtain ⟨t, ht, hopen⟩ := h
  unfold doneBytes
  rw [List.length_map]
  exact List.length_filter_lt_length_iff_exists.2
    ⟨t, ht, by rw [hopen]; exact Bool.false_ne_true⟩

/-- The calls of a queue head among those of a pass over one. -/
theorem filter_successCalls (tdns : TdId → TDn) (q m : QhId)
    (fin : List Grp) :
    (fin.map (successCall q tdns)).filter (fun c => c.qhn = m)
      = if q = m then fin.map (successCall q tdns) else [] := by
  split
  · next hqm =>
      apply List.filter_eq_self.2
      intro c hc
      obtain ⟨g, -, rfl⟩ := List.mem_map.1 hc
      exact decide_eq_true hqm
  · next hqm =>
      apply List.filter_eq_nil_iff.2
      intro c hc
      obtain ⟨g, -, rfl⟩ := List.mem_map.1 hc
      exact fun he => hqm (of_decide_eq_true he)

/-- The counts are as before. -/
theorem SameLinks.countOf {x' : Xfer}
    (hsame : SameLinks q s.xfer.host x'.host) (m : QhId) :
    countOf { s with xfer := x' } m = countOf s m := by
  unfold Ehci.countOf
  by_cases hm : m = q
  · rw [hm]
    exact hsame.count
  · dsimp only
    rw [hsame.others m hm]

namespace Collected

variable {junk : Junk} {x' : Xfer} {fin rest : List Grp}

/-- The descriptors that a pass over `q` leaves as they are. -/
theorem kept (hc : Collected junk q s.xfer x' fin rest)
    (h : Layout s gs) (heq : gs q = fin ++ rest) :
    (∀ t ∈ flat rest, x'.host.tdns t = s.xfer.host.tdns t)
      ∧ ∀ m, m ≠ q → ∀ t ∈ flat (gs m),
        x'.host.tdns t = s.xfer.host.tdns t := by
  have hnd := h.nodup_flat q
  rw [heq, flat_append] at hnd
  constructor
  · intro t ht
    rw [hc.tdns]
    exact freed_of_notMem fun hmem =>
      (List.nodup_append.1 hnd).2.2 t hmem t ht rfl
  · intro m hm t ht
    rw [hc.tdns]
    refine freed_of_notMem fun hmem => h.apart m q hm t ht ?_
    rw [heq, flat_append]
    exact List.mem_append_left _ hmem

/-- The same, with the groups after the pass. -/
theorem kept_all (hc : Collected junk q s.xfer x' fin rest)
    (h : Layout s gs) (heq : gs q = fin ++ rest) (m : QhId) :
    (Function.update gs q rest m).Sublist (gs m)
      ∧ ∀ t ∈ flat (Function.update gs q rest m),
        x'.host.tdns t = s.xfer.host.tdns t := by
  obtain ⟨hrest, hother⟩ := hc.kept h heq
  by_cases hm : m = q
  · rw [hm, Function.update_self, heq]
    exact ⟨List.sublist_append_right .., hrest⟩
  · rw [Function.update_of_ne hm]
    exact ⟨List.Sublist.refl _, hother m hm⟩

/-- Taking off what is finished keeps the layout. -/
theorem layout (hc : Collected junk q s.xfer x' fin rest)
    (h : Layout s gs) (hrun : s.crashed = false) (hq : q ∈ s.linked)
    (heq : gs q = fin ++ rest) :
    Layout { s with xfer := x' } (Function.update gs q rest) := by
  have hkept := hc.kept_all h heq
  have hsub : ∀ m, ∀ t ∈ flat (Function.update gs q rest m),
      t ∈ flat (gs m) := by
    intro m t ht
    obtain ⟨g, hg, htg⟩ := mem_flat.1 ht
    exact mem_flat.2 ⟨g, (hkept m).1.subset hg, htg⟩
  have hleads : ∀ m, m ∈ s.linked ∨ m ∈ s.waiting →
      Leads x'.host.nextTd (x'.host.qhns m).tdns
        (flat (Function.update gs q rest m)) none := by
    intro m hm
    have hold := h.leads hm
    have hnext : ∀ t ∈ flat (Function.update gs q rest m),
        x'.host.nextTd t = s.xfer.host.nextTd t :=
      fun t ht => congrArg TDn.next ((hkept m).2 t ht)
    -- only the queue head that is collected loses descriptors, from its
    -- front
    by_cases hmq : m = q
    · subst hmq
      rw [Function.update_self] at hnext ⊢
      rw [heq, flat_append] at hold
      obtain ⟨r, -, hback⟩ := Leads.append_iff.1 hold
      rw [hc.first, ← hback.eq_head]
      exact hback.congr hnext
    · rw [Function.update_of_ne hmq] at hnext ⊢
      rw [hc.links.others m hmq]
      exact hold.congr hnext
  constructor
  · obtain ⟨l, hl⟩ := h.ring
    refine ⟨l, hl.sameLinks hc.links hrun rfl rfl fun m hm => ?_⟩
    have hm : m ∈ s.linked := Layout.mem_ring hl |>.1 hm
    refine ⟨hleads m (.inl hm), fun t ht => ?_⟩
    have hold : (s.xfer.host.tdns t).td = true :=
      h.mapped hm t (hsub m t ht)
    show (x'.host.tdns t).td = true
    rw [(hkept m).2 t ht]
    exact hold
  · exact fun m hm => hleads m (.inr hm)
  · refine h.sorted.imp fun {a b} hab => ?_
    rw [hc.links.countOf, hc.links.countOf]
    exact hab
  · intro m hm
    rw [hc.links.countOf]
    exact h.counts m hm
  · intro m hl hw
    have hmq : m ≠ q := by
      rintro rfl
      exact hl hq
    rw [Function.update_of_ne hmq]
    exact h.idle m hl hw
  · intro m g hg
    refine (h.groups m g ((hkept m).1.subset hg)).congr fun t ht => ?_
    have hsame := (hkept m).2 t (mem_flat.2 ⟨g, hg, ht⟩)
    dsimp only
    rw [hsame]
    exact ⟨rfl, rfl⟩
  · intro a b hab t ht hmem
    exact h.apart a b hab t (hsub a t ht) (hsub b t hmem)
  · exact fun m t ht => h.used m t (hsub m t ht)

/-- The requests that were taken off are those answered, each once. -/
theorem history (hc : Collected junk q s.xfer x' fin rest)
    (h : XferInv s gs) (hq : q ∈ s.linked) (heq : gs q = fin ++ rest)
    (hfin : ∀ g ∈ fin, ∀ t ∈ g.2, isDone (s.xfer.host.tdns t) = true) :
    History { s with xfer := x' } (Function.update gs q rest) := by
  have hd : q ∉ s.xfer.destroyed := fun hd => (h.history.gone q hd).1 hq
  have hcalls : ∀ m, callsOf { s with xfer := x' } m = callsOf s m
      ++ (if q = m then fin.map (successCall q s.xfer.host.tdns)
        else []) := by
    intro m
    unfold callsOf
    dsimp only
    rw [hc.log, List.filter_append, filter_successCalls]
  constructor
  · dsimp only
    rw [hc.destroyed]
    exact h.history.gone
  · exact h.history.distinct
  · exact h.history.apart
  · exact h.history.known
  · exact h.history.quiet
  · intro m
    dsimp only
    rw [hc.destroyed, hcalls m]
    by_cases hm : m = q
    · subst hm
      obtain ⟨done, henq, hcs, hlen⟩ := h.split_enqueued hd
      have hbytes : ∀ g ∈ fin, bytesOf s g.1
          = doneBytes s.xfer.host.tdns g.2 := fun g hg =>
        h.progress.bytes m hq g (heq ▸ List.mem_append_left _ hg)
      rw [heq, asked, List.map_append] at henq
      refine ⟨done ++ asked fin, asked rest, ?_, ?_, ?_, ?_⟩
      · rw [List.append_assoc]
        exact henq
      · intro _
        rw [Function.update_self]
      · rw [if_pos rfl, if_neg hd, List.append_nil, hcs, List.map_append]
        congr 1
        unfold asked
        rw [List.map_map]
        apply List.map_congr_left
        intro g hg
        have hsum := (doneBytes_of_done (hfin g hg)).1
        rw [← hbytes g hg] at hsum
        rw [successCall, ← hsum]
        rfl
      · intro r hr
        rcases List.mem_append.1 hr with hr | hr
        · exact hlen r hr
        · obtain ⟨g, hg, rfl⟩ := List.mem_map.1 hr
          have hlg := (doneBytes_of_done (hfin g hg)).2
          rw [← hbytes g hg] at hlg
          exact hlg
    · rw [if_neg fun he => hm he.symm, List.append_nil,
        Function.update_of_ne hm]
      exact h.history.calls m

theorem progress (hc : Collected junk q s.xfer x' fin rest)
    (h : XferInv s gs) (heq : gs q = fin ++ rest) :
    Progress { s with xfer := x' } (Function.update gs q rest) := by
  have hkept := hc.kept_all h.layout heq
  have hgroup : ∀ m, ∀ g ∈ Function.update gs q rest m,
      doneBytes x'.host.tdns g.2 = doneBytes s.xfer.host.tdns g.2 := by
    intro m g hg
    exact doneBytes_congr fun t ht =>
      congrArg TDn.token ((hkept m).2 t (mem_flat.2 ⟨g, hg, ht⟩))
  constructor
  · exact fun m g hg => h.progress.owner m g ((hkept m).1.subset hg)
  · intro m hm g hg
    dsimp only
    rw [hgroup m g hg]
    exact h.progress.bytes m hm g ((hkept m).1.subset hg)
  · exact fun m hm g hg =>
      h.progress.small m hm g ((hkept m).1.subset hg)
  · intro m hm
    have hsub : (flat (Function.update gs q rest m)).Sublist
        (flat (gs m)) := (hkept m).1.flatMap Prod.snd
    refine ((h.progress.order m hm).sublist hsub).imp_of_mem ?_
    intro a b ha hb hab
    dsimp only
    rw [(hkept m).2 a ha, (hkept m).2 b hb]
    exact hab

end Collected

/-- The links of the last descriptors of the groups survive freeing. -/
def LinksStay (junk : Junk) (s : XferHost) (gs : QhId → List Grp)
    (q : QhId) : Prop :=
  ∀ t ∈ flat (gs q), (s.xfer.host.tdns t).cb ≠ none →
    (junk.td t).next = s.xfer.host.nextTd t

/-- The first group of a queue head is not finished. -/
def Swept (x : Xfer) (gs : QhId → List Grp) (q : QhId) : Prop :=
  ∀ g ∈ (gs q).head?, ∃ t ∈ g.2, isDone (x.host.tdns t) = false

section congr

variable {gs' : QhId → List Grp} {x : Xfer} (hgs : gs' q = gs q)
  (htds : ∀ t ∈ flat (gs q), x.host.tdns t = s.xfer.host.tdns t)

include hgs htds

/-- The assumption on freed memory carries over to the next queue head of a
pass. -/
theorem LinksStay.congr {junk : Junk} (h : LinksStay junk s gs q) :
    LinksStay junk { s with xfer := x } gs' q := by
  intro t ht hcb
  rw [hgs] at ht
  dsimp only at hcb ⊢
  rw [htds t ht] at hcb
  rw [AsyncHost.nextTd, htds t ht]
  exact h t ht hcb

/-- What has been swept stays so while others are. -/
theorem Swept.congr (h : Swept s.xfer gs q) : Swept x gs' q := by
  intro g hg
  rw [hgs] at hg
  obtain ⟨t, ht, hopen⟩ := h g hg
  refine ⟨t, ht, ?_⟩
  rw [htds t (mem_flat.2 ⟨g, List.mem_of_mem_head? hg, ht⟩)]
  exact hopen

end congr

/-- The fuel is more than the descriptors there are. -/
theorem xferFuel_enough (h : Layout s gs) (hq : q ∈ s.linked) :
    (flat (gs q)).length + 1 < xferFuel s := by
  have hlen := h.length_flat q
  have hpos : 0 < s.linked.length := List.length_pos_of_mem hq
  unfold xferFuel
  omega

/-- A pass over one queue head. -/
theorem XferInv.collect (h : XferInv s gs) (hq : q ∈ s.linked)
    {junk : Junk} (hlink : LinksStay junk s gs q) :
    ∃ x' rest, collectTds junk (xferFuel s) q (xferFuel s) s.xfer
        (s.xfer.host.qhns q).tdns (s.xfer.host.qhns q).tdns 0 = .ok x'
      ∧ XferInv { s with xfer := x' } (Function.update gs q rest)
      ∧ SameLinks q s.xfer.host x'.host
      ∧ Swept x' (Function.update gs q rest) q
      ∧ ∀ m, m ≠ q → ∀ t ∈ flat (gs m),
        x'.host.tdns t = s.xfer.host.tdns t := by
  have hfuel := xferFuel_enough h.layout hq
  have hsmall : ∀ g ∈ gs q,
      (∀ t ∈ g.2, isDone (s.xfer.host.tdns t) = true) →
        bytesOfTds s.xfer.host.tdns g.2 < 2 ^ 31 := by
    intro g hg hdone
    rw [← (doneBytes_of_done hdone).1, ← h.progress.bytes q hq g hg]
    exact h.progress.small q hq g hg
  obtain ⟨x', fin, rest, heq, hfin, hrest, hrun, hc⟩ := collectGroups_eq
    (h.layout.leads (.inl hq)) (h.layout.mapped hq) (h.layout.groups q)
    hsmall hlink
    (show (flat (gs q)).length ≤ xferFuel s by omega) hfuel
  obtain ⟨hkept, hother⟩ := hc.kept h.layout heq
  refine ⟨x', rest, hrun, ⟨h.running, ?_, ?_, ?_⟩, hc.links, ?_, hother⟩
  · exact hc.layout h.layout h.running hq heq
  · exact hc.history h hq heq hfin
  · exact hc.progress h heq
  · intro g hg
    rw [Function.update_self] at hg
    obtain ⟨t, ht, hopen⟩ := hrest g hg
    refine ⟨t, ht, ?_⟩
    rw [hkept t (mem_flat.2 ⟨g, List.mem_of_mem_head? hg, ht⟩)]
    exact hopen

/-- One queue head of the pass around the ring. -/
theorem collectRing_succ {junk : Junk} {free fuel : Nat} {x x' : Xfer}
    {c d : QhId}
    (hrun : collectTds junk free c free x (x.host.qhns c).tdns
      (x.host.qhns c).tdns 0 = .ok x')
    (hnext : x'.host.nextOf c = some d) :
    collectRing junk free (fuel + 1) x c
      = if some d = x'.host.alistTail then .ok x'
        else collectRing junk free fuel x' d := by
  rw [collectRing]
  simp only [hrun, ok_bind, hnext]

/-- The pass around the ring, from `c` on. -/
theorem collectRing_eq {junk : Junk} {a : QhId} (r : List QhId) :
    ∀ (c : QhId) (s : XferHost) (gs : QhId → List Grp) (fuel : Nat),
      XferInv s gs → Leads s.xfer.host.nextOf (some c) (c :: r) (some a) →
      s.xfer.host.alistTail = some a → (c :: r).Nodup → a ∉ r →
      (∀ m ∈ c :: r, m ∈ s.linked) →
      (∀ m ∈ c :: r, LinksStay junk s gs m) → r.length < fuel →
      ∃ x' gs', collectRing junk (xferFuel s) fuel s.xfer c = .ok x'
        ∧ XferInv { s with xfer := x' } gs'
        ∧ (∀ m ∈ c :: r, Swept x' gs' m)
        ∧ ∀ m, m ∉ c :: r → gs' m = gs m
          ∧ ∀ t ∈ flat (gs m), x'.host.tdns t = s.xfer.host.tdns t := by
  -- the walk along the ring: collect one queue head, then go on with those
  -- behind, until it is back at the tail
  induction r with
  | nil =>
      intro c s gs fuel h hleads htail _ _ hmem hlink hfuel
      obtain ⟨fuel, rfl⟩ : ∃ f, fuel = f + 1 := ⟨fuel - 1, by
        rw [List.length_nil] at hfuel
        omega⟩
      obtain ⟨x', rest, hrun, hI, hsame, hswept, hother⟩ :=
        h.collect (hmem c (by simp)) (hlink c (by simp))
      have hnext : x'.host.nextOf c = some a := by
        rw [hsame.nextOf_eq]
        exact hleads.2
      refine ⟨x', Function.update gs c rest, ?_, hI, ?_, ?_⟩
      · rw [collectRing_succ hrun hnext, hsame.tail, htail, if_pos rfl]
      · intro m hm
        rw [List.mem_singleton.1 hm]
        exact hswept
      · intro m hm
        have hmc : m ≠ c := fun he => hm (by simp [he])
        rw [Function.update_of_ne hmc]
        exact ⟨rfl, hother m hmc⟩
  | cons d r ih =>
      intro c s gs fuel h hleads htail hnd har hmem hlink hfuel
      obtain ⟨fuel, rfl⟩ : ∃ f, fuel = f + 1 := ⟨fuel - 1, by omega⟩
      obtain ⟨hc, hnd'⟩ := List.nodup_cons.1 hnd
      obtain ⟨x₁, rest, hrun, hI, hsame, hswept, hother⟩ :=
        h.collect (hmem c (by simp)) (hlink c (by simp))
      have hnext : x₁.host.nextOf c = some d := by
        rw [hsame.nextOf_eq]
        exact hleads.2.1
      have hne : ∀ m ∈ d :: r, m ≠ c := by
        rintro m hm rfl
        exact hc hm
      obtain ⟨x', gs', hloop, hI', hswept', hother'⟩ := ih d
        { s with xfer := x₁ } (Function.update gs c rest) fuel hI
        (by
          show Leads x₁.host.nextOf _ _ _
          rw [hsame.nextOf_eq, ← hleads.2.1]
          exact hleads.2)
        (hsame.tail.trans htail) hnd'
        (fun hmem => har (List.mem_cons_of_mem _ hmem))
        (fun m hm => hmem m (List.mem_cons_of_mem _ hm))
        (fun m hm => (hlink m (List.mem_cons_of_mem _ hm)).congr
          (Function.update_of_ne (hne m hm) ..) (hother m (hne m hm)))
        (by rw [List.length_cons] at hfuel; omega)
      refine ⟨x', gs', ?_, hI', ?_, ?_⟩
      · have hda : ¬some d = x₁.host.alistTail := by
          rw [hsame.tail, htail]
          intro he
          exact har (by simp [Option.some.inj he])
        rw [collectRing_succ hrun hnext, if_neg hda]
        exact hloop
      · intro m hm
        rcases List.mem_cons.1 hm with rfl | hm
        · obtain ⟨hgs, htds⟩ := hother' m hc
          exact Swept.congr (s := { s with xfer := x₁ }) hgs htds hswept
        · exact hswept' m hm
      · intro m hm
        have hmc : m ≠ c := fun he => hm (by simp [he])
        obtain ⟨hgs, htds⟩ := hother' m fun hmem =>
          hm (List.mem_cons_of_mem _ hmem)
        rw [Function.update_of_ne hmc] at hgs htds
        exact ⟨hgs, fun t ht => (htds t ht).trans (hother m hmc t ht)⟩

/-- A pass of the driver. -/
theorem XferInv.complete (h : XferInv s gs) {junk : Junk}
    (hlink : ∀ m ∈ s.linked, LinksStay junk s gs m) :
    ∃ x' gs', ehciAsyncComplete junk (xferFuel s) s.xfer = .ok x'
      ∧ XferInv { s with xfer := x' } gs'
      ∧ ∀ m ∈ s.linked, Swept x' gs' m := by
  obtain ⟨l, hl⟩ := h.layout.ring
  unfold ehciAsyncComplete
  cases htail : s.xfer.host.alistTail with
  | none =>
      have hnil : s.linked = [] := by
        have hperm := hl.perm
        rw [hl.tail htail] at hperm
        exact hperm.nil_eq.symm
      refine ⟨s.xfer, gs, rfl, h, fun m hm => ?_⟩
      rw [hnil] at hm
      cases hm
  | some a =>
      obtain ⟨r, hring, hperm⟩ := hl.ring.cut (hl.tail_mem a htail)
      have hnd : (a :: r).Nodup := hperm.nodup_iff.2 hl.nodup
      have hmem : ∀ m, m ∈ a :: r ↔ m ∈ s.linked := fun m =>
        (hperm.trans hl.perm).mem_iff
      have hlen : r.length < xferFuel s := by
        have hlen := (hperm.trans hl.perm).length_eq
        rw [List.length_cons] at hlen
        have hlinked : (xferRing s gs).linked.length = s.linked.length := rfl
        unfold xferFuel
        omega
      obtain ⟨x', gs', hrun, hI, hswept, -⟩ := collectRing_eq r a s gs
        (xferFuel s) h hring.leads htail hnd (List.nodup_cons.1 hnd).1
        (fun m hm => (hmem m).1 hm)
        (fun m hm => hlink m ((hmem m).1 hm)) hlen
      exact ⟨x', gs', hrun, hI, fun m hm => hswept m ((hmem m).2 hm)⟩

/-- The walk along a queue head finds the descriptors of its requests. -/
theorem Layout.tdsOf_eq (h : Layout s gs) (hq : q ∈ s.linked) :
    tdsOf s q = flat (gs q) := by
  have hlen := xferFuel_enough h hq
  exact (h.leads (.inl hq)).follow_eq (by omega)

/-- The condition of a pass. -/
theorem XferInv.linksStay (h : XferInv s gs) {junk : Junk}
    (hok : XferOk s (.complete junk)) (hq : q ∈ s.linked) :
    LinksStay junk s gs q :=
  fun t ht => hok q hq t (h.layout.tdsOf_eq hq ▸ ht)

end ProjectsLibs.Ehci
