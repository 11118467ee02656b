/-
The invariant of the asynchronous schedule in use is kept where a queue
head is taken away: it is removed from the ring (`XferInv.del`), and an
answer to the doorbell destroys it (`XferInv.doorbell`).

# A queue head is taken out in two steps

`ehci_del_qhn_async` takes it off the ring, halts its descriptors and
puts it at the end of the waiting list. Nothing calls back there, so the
history of calls stays; what has to be shown is that halting leaves the
groups as they were told apart, and makes no descriptor finished that was
not. The structure of the invariant is kept in the names: there is one
lemma each for `Layout`, `History` and `Progress`.

An answer to the doorbell counts the waiting queue heads and destroys
those that were counted twice. As they were put at the end, these stand
in front (`Layout.waiting_eq`), and the loop, which goes through the list
from there, is a run over `dueNow` that leaves `keptNow`. What the run
leaves is written in closed form (`rungXfer`), and the parts of the
invariant are proved of that. The calls it has made are those of the
groups that were pending, one each, which is what the history needs.
-/
import ProjectsLibs.Ehci.Proofs.Traffic

namespace ProjectsLibs.Ehci

open Lib

variable {s : XferHost} {gs : QhId → List Grp} {q m : QhId}

-- =============================================================== removing

/-- A halted descriptor still knows its callback. -/
theorem TDn.halt_cb (tdn : TDn) : tdn.halt.cb = tdn.cb := by
  unfold TDn.halt
  split
  · rfl
  · rfl

theorem TDn.halt_ioc (tdn : TDn) : hasIoc tdn.halt = hasIoc tdn := by
  unfold TDn.halt
  split
  · show testBit (tdn.token &&& ~~~mask tdtokSactive ||| mask tdtokShalted)
      tdtokIoc = testBit tdn.token tdtokIoc
    rw [testBit_or_mask _ (by decide),
      testBit_and_not_mask _ (by decide) (by decide)]
    simp [tdtokShalted, tdtokSactive, tdtokIoc]
  · rfl

/-- A descriptor that is finished is not active: it is not touched. One
that is active is not finished, and neither is it when it is halted. -/
theorem TDn.halt_done (tdn : TDn) :
    isDone tdn.halt = isDone tdn
      ∧ (isDone tdn = true → tdn.halt = tdn) := by
  unfold TDn.halt
  split
  · next hactive =>
      rw [and_mask_iff _ (by decide)] at hactive
      have hopen : isDone tdn = false := by
        apply decide_eq_false
        rw [status_success_iff, hactive]
        nofun
      refine ⟨?_, fun hdone => ?_⟩
      · rw [hopen]
        apply decide_eq_false
        rw [status_success_iff]
        rintro ⟨-, hhalt⟩
        have hhalt : testBit (tdn.token &&& ~~~mask tdtokSactive
          ||| mask tdtokShalted) tdtokShalted = false := hhalt
        rw [testBit_or_mask _ (by decide)] at hhalt
        simp at hhalt
      · rw [hopen] at hdone
        cases hdone
  · exact ⟨rfl, fun _ => rfl⟩

namespace Removed

variable {host host' : AsyncHost}

/-- Cancelling halts descriptors; none counts as done for that. -/
theorem isDone_eq (h : Removed q host host') (t : TdId) :
    isDone (host'.tdns t) = isDone (host.tdns t) := by
  rcases h.tds t with ht | ht
  · rw [ht]
  · rw [ht]
    exact (TDn.halt_done _).1

/-- So the bytes of the descriptors that are done are as before. -/
theorem doneBytes_eq (h : Removed q host host') (tds : List TdId) :
    doneBytes host'.tdns tds = doneBytes host.tdns tds := by
  unfold doneBytes
  have hfilter : tds.filter (fun t => isDone (host'.tdns t))
      = tds.filter (fun t => isDone (host.tdns t)) :=
    List.filter_congr fun t _ => h.isDone_eq t
  rw [hfilter]
  apply List.map_congr_left
  intro t ht
  rcases h.tds t with hsame | hhalt
  · rw [hsame]
  · rw [hhalt, (TDn.halt_done _).2 (List.mem_filter.1 ht).2]

/-- And the requests on a queue head are still told apart in the same way. -/
theorem group (h : Removed q host host') {cb : Option Nat}
    {tds : List TdId} (hg : IsGroup host.tdns cb tds) :
    IsGroup host'.tdns cb tds := by
  refine hg.congr fun t _ => ?_
  rcases h.tds t with ht | ht
  · rw [ht]
    exact ⟨rfl, rfl⟩
  · rw [ht]
    exact ⟨TDn.halt_cb _, TDn.halt_ioc _⟩

end Removed

/-- The host after `ehci_del_qhn_async` has returned `host`. -/
def removedHost (s : XferHost) (q : QhId) (host : AsyncHost) : XferHost :=
  moveToWaiting q { s with xfer := { s.xfer with host := host } }

section del

variable {host' : AsyncHost}

/-- Cancelling moves a queue head from the ring to the end of the waiting
list; all else about the layout stays. -/
theorem Layout.del (h : Layout s gs) (hq : q ∈ s.linked)
    (hremoved : Removed q s.xfer.host host') {l : List QhId}
    (hring : Ringed (xferRing (removedHost s q host') gs) l) :
    Layout (removedHost s q host') gs := by
  have hcount : ∀ m ∈ s.waiting,
      (host'.qhns m).wasCancelled = countOf s m := by
    intro m hm
    refine hremoved.count m ?_
    rintro rfl
    exact h.linked_not_waiting hq hm
  have hleads : ∀ m, m ∈ s.linked ∨ m ∈ s.waiting →
      Leads host'.nextTd (host'.qhns m).tdns (flat (gs m)) none := by
    intro m hm
    rw [hremoved.first m]
    exact (h.leads hm).congr fun t _ => hremoved.nextTd t
  constructor
  · exact ⟨l, hring⟩
  · intro m hm
    rcases List.mem_append.1 hm with hm | hm
    · exact hleads m (.inr hm)
    · rw [List.mem_singleton.1 hm]
      exact hleads q (.inl hq)
  -- the queue head just cancelled has the lowest count, so it belongs at
  -- the end
  · show (s.waiting ++ [q]).Pairwise fun a b =>
      (host'.qhns b).wasCancelled ≤ (host'.qhns a).wasCancelled
    rw [List.pairwise_append]
    refine ⟨?_, List.pairwise_singleton .., ?_⟩
    · refine h.sorted.imp_of_mem ?_
      intro a b ha hb hab
      rw [hcount a ha, hcount b hb]
      exact hab
    · intro a ha b hb
      rw [List.mem_singleton.1 hb, hremoved.counted, hcount a ha]
      rcases h.counts a ha with hone | htwo
      · omega
      · omega
  · intro m hm
    show (host'.qhns m).wasCancelled = 1 ∨ (host'.qhns m).wasCancelled = 2
    rcases List.mem_append.1 hm with hm | hm
    · rw [hcount m hm]
      exact h.counts m hm
    · rw [List.mem_singleton.1 hm]
      exact .inl hremoved.counted
  · intro m hml hmw
    have hmq : m ≠ q := by
      rintro rfl
      exact hmw (List.mem_append_right _ (List.mem_singleton_self m))
    refine h.idle m (fun hmem => ?_) fun hmem => ?_
    · exact hml ((List.mem_erase_of_ne hmq).2 hmem)
    · exact hmw (List.mem_append_left _ hmem)
  · exact fun m g hg => hremoved.group (h.groups m g hg)
  · exact h.apart
  · exact h.used

/-- No request is answered by cancelling its queue head, not yet. -/
theorem History.del (h : History s gs) (hq : q ∈ s.linked) :
    History (removedHost s q host') gs := by
  constructor
  · intro m hm
    obtain ⟨hml, hmw⟩ := h.gone m hm
    refine ⟨fun hmem => hml (List.mem_of_mem_erase hmem), fun hmem => ?_⟩
    rcases List.mem_append.1 hmem with hmem | hmem
    · exact hmw hmem
    · rw [List.mem_singleton.1 hmem] at hml
      exact hml hq
  · exact h.distinct
  · exact h.apart
  · exact h.known
  · exact h.quiet
  · exact h.calls

theorem Progress.del (h : Progress s gs)
    (hremoved : Removed q s.xfer.host host') :
    Progress (removedHost s q host') gs := by
  constructor
  · exact h.owner
  · intro m hm g hg
    show bytesOf s g.1 = doneBytes host'.tdns g.2
    rw [hremoved.doneBytes_eq]
    exact h.bytes m (List.mem_of_mem_erase hm) g hg
  · exact fun m hm => h.small m (List.mem_of_mem_erase hm)
  · intro m hm
    refine (h.order m (List.mem_of_mem_erase hm)).imp ?_
    intro a b hab
    show isDone (host'.tdns b) = true → isDone (host'.tdns a) = true
    rw [hremoved.isDone_eq, hremoved.isDone_eq]
    exact hab

end del

/-- A queue head is removed. -/
theorem XferInv.del (h : XferInv s gs) (hq : q ∈ s.linked)
    (hother : ∃ m ∈ s.linked, m ≠ q) :
    ∃ host', ehciDelQhnAsync (xferFuel s) s.xfer.host q = .ok host'
      ∧ XferInv (removedHost s q host') gs := by
  obtain ⟨l, hl⟩ := h.layout.ring
  obtain ⟨m₀, hm₀, hne₀⟩ := hother
  have hfuel : ringFuel (xferRing s gs) q ≤ xferFuel s := by
    have hlen := h.layout.length_flat q
    show s.linked.length + s.waiting.length + (flat (gs q)).length + 1 ≤ _
    unfold xferFuel
    omega
  obtain ⟨host', l', hrun, hremoved, hring⟩ := hl.del
    (Layout.mem_ring hl |>.2 hq) ⟨m₀, Layout.mem_ring hl |>.2 hm₀,
      hne₀⟩
    hfuel
  exact ⟨host', hrun, h.running, h.layout.del hq hremoved hring,
    h.history.del hq, h.progress.del hremoved⟩

-- ============================================================ the doorbell

/-- The queue heads that the next call destroys, and those that stay. -/
def dueNow (s : XferHost) : List QhId := s.waiting.filter (isDue s)

def keptNow (s : XferHost) : List QhId := s.waiting.filter fun q => !isDue s q

/-- Due are the waiting queue heads that were counted twice. -/
theorem mem_dueNow : q ∈ dueNow s
    ↔ q ∈ s.waiting ∧ 1 < countOf s q := by
  unfold dueNow
  rw [List.mem_filter, isDue, decide_eq_true_eq]
  rfl

theorem mem_keptNow : q ∈ keptNow s
    ↔ q ∈ s.waiting ∧ countOf s q ≤ 1 := by
  unfold keptNow
  rw [List.mem_filter, isDue, Bool.not_eq_true', decide_eq_false_iff_not,
    Nat.not_lt]
  rfl

theorem not_mem_dueNow (hq : q ∈ keptNow s) : q ∉ dueNow s :=
  fun hdue => Nat.not_lt.2 (mem_keptNow.1 hq).2 (mem_dueNow.1 hdue).2

/-- Those that are due stand in front, since they have waited longest. -/
theorem Layout.waiting_eq (h : Layout s gs) :
    s.waiting = dueNow s ++ keptNow s := by
  unfold dueNow keptNow
  rw [← filter_split]
  · exact (List.filter_eq_self.2 fun q _ => by simp).symm
  · intro q hq
    rw [hq]
    rfl
  · refine h.sorted.imp fun {a b} hab ha => ?_
    have ha : ¬1 < countOf s a := by simpa [isDue, countOf] using ha
    exact decide_eq_false fun hb => ha (Nat.lt_of_lt_of_le hb hab)

theorem Layout.nodup_waiting (h : Layout s gs) : s.waiting.Nodup := by
  obtain ⟨l, hl⟩ := h.ring
  exact hl.pending.nodup

/-- A queue head that is destroyed has no groups. -/
def dropGroups (gs : QhId → List Grp) (due : List QhId) : QhId → List Grp :=
  fun q => if q ∈ due then [] else gs q

/-- The requests of the queue heads that are due are dropped, and no
others. -/
theorem mem_dropGroups {due : List QhId} {g : Grp} :
    g ∈ dropGroups gs due q ↔ q ∉ due ∧ g ∈ gs q := by
  unfold dropGroups
  split
  · next hq => simp [hq]
  · next hq => simp [hq]

theorem flat_dropGroups {due : List QhId} {t : TdId} :
    t ∈ flat (dropGroups gs due q) ↔ q ∉ due ∧ t ∈ flat (gs q) := by
  rw [mem_flat, mem_flat]
  constructor
  · rintro ⟨g, hg, ht⟩
    obtain ⟨hq, hg⟩ := mem_dropGroups.1 hg
    exact ⟨hq, g, hg, ht⟩
  · rintro ⟨hq, g, hg, ht⟩
    exact ⟨g, mem_dropGroups.2 ⟨hq, hg⟩, ht⟩

/-- The callbacks of the groups of a queue head that is destroyed. -/
theorem cancelCalls_flat {tdns : TdId → TDn} {groups : List Grp}
    (h : ∀ g ∈ groups, IsGroup tdns (some g.1) g.2) :
    cancelCalls q tdns (flat groups)
      = (asked groups).map (cancelled q) := by
  induction groups with
  | nil => rfl
  | cons g groups ih =>
      obtain ⟨front, t, heq, hcb, hfront⟩ :=
        (h g (List.mem_cons_self ..)).last
      have hnone : front.filterMap (fun u => (tdns u).cb) = [] :=
        List.filterMap_eq_nil_iff.2 hfront
      have hgroup : g.2.filterMap (fun u => (tdns u).cb) = [g.1] := by
        rw [heq, List.filterMap_append, hnone]
        simp [hcb]
      have ih := ih fun g' hg' => h g' (List.mem_cons_of_mem _ hg')
      unfold cancelCalls at ih ⊢
      rw [flat_cons, List.filterMap_append, List.map_append, ih, hgroup]
      rfl

/-- The calls for one queue head among those of all that are
destroyed. -/
theorem filter_flatMap_calls {f : QhId → List Call} {due : List QhId}
    (hf : ∀ d, ∀ c ∈ f d, c.qhn = d) (hnd : due.Nodup) (m : QhId) :
    (due.flatMap f).filter (fun c => c.qhn = m)
      = if m ∈ due then f m else [] := by
  induction due with
  | nil => rfl
  | cons d due ih =>
      obtain ⟨hd, hnd⟩ := List.nodup_cons.1 hnd
      rw [List.flatMap_cons, List.filter_append, ih hnd]
      by_cases hmd : m = d
      · subst hmd
        have hall : (f m).filter (fun c => c.qhn = m) = f m :=
          List.filter_eq_self.2 fun c hc => decide_eq_true (hf m c hc)
        rw [hall, if_neg hd, List.append_nil,
          if_pos (List.mem_cons_self ..)]
      · have hnone : (f d).filter (fun c => c.qhn = m) = [] := by
          apply List.filter_eq_nil_iff.2
          intro c hc hcm
          exact hmd ((of_decide_eq_true hcm).symm.trans (hf d c hc))
        rw [hnone, List.nil_append]
        by_cases hm : m ∈ due
        · rw [if_pos hm, if_pos (List.mem_cons_of_mem _ hm)]
        · rw [if_neg hm, if_neg (List.not_mem_cons_of_ne_of_not_mem hmd hm)]

/-- The driver after an answer to the doorbell. -/
def rungXfer (junk : Junk) (s : XferHost) (gs : QhId → List Grp) : Xfer where
  host := s.xfer.host.afterBell junk (dueNow s) (keptNow s)
    ((dueNow s).flatMap fun q => flat (gs q))
  log := s.xfer.log ++ (dueNow s).flatMap fun q =>
    cancelCalls q s.xfer.host.tdns (flat (gs q))
  destroyed := s.xfer.destroyed ++ dueNow s

section doorbell

variable {junk : Junk}

/-- A doorbell ends without a fault, and what it leaves is known in closed
form. -/
theorem Layout.doorbell_run (h : Layout s gs) :
    checkDoorbell junk (xferFuel s) s.xfer = .ok (rungXfer junk s gs) := by
  obtain ⟨l, hl⟩ := h.ring
  have hpending : Leads s.xfer.host.nextOf s.xfer.host.dbPending
      (dueNow s ++ keptNow s) none := by
    rw [← h.waiting_eq]
    exact hl.pending
  have hnd : (dueNow s).Nodup := h.nodup_waiting.filter _
  have hwait : ∀ d ∈ dueNow s, d ∈ s.waiting :=
    fun d hd => (mem_dueNow.1 hd).1
  have hdisj : (dueNow s).Pairwise fun a b => ∀ t ∈ flat (gs b),
      t ∉ flat (gs a) := by
    refine hnd.imp fun {a b} hab t ht => ?_
    exact h.apart b a (Ne.symm hab) t ht
  have hfree : ((dueNow s).flatMap fun q => flat (gs q)).length
      ≤ s.used.length := by
    have hflat : ((dueNow s).flatMap fun q => flat (gs q)).Nodup := by
      refine List.nodup_flatMap.2 ⟨fun d _ => h.nodup_flat d, ?_⟩
      refine hdisj.imp fun {a b} hab => ?_
      exact fun t hta htb => hab t htb hta
    refine (hflat.subperm fun t ht => ?_).length_le
    obtain ⟨d, -, ht⟩ := List.mem_flatMap.1 ht
    exact h.used d t ht
  have hlen : (dueNow s ++ keptNow s).length = s.waiting.length := by
    rw [← h.waiting_eq]
  exact checkDoorbell_eq hpending (fun d hd => (mem_dueNow.1 hd).2)
    (fun k hk => (mem_keptNow.1 hk).2)
    (fun d hd => h.leads (.inr (hwait d hd))) hdisj
    (by unfold xferFuel; omega) (by unfold xferFuel; omega)

/-- The queue heads after the call. -/
theorem rungXfer_qhns (m : QhId) : (rungXfer junk s gs).host.qhns m
    = if m ∈ dueNow s then junk.qh m
      else if m ∈ keptNow s then (s.xfer.host.qhns m).count
      else s.xfer.host.qhns m := rfl

/-- A queue head that is kept has one more doorbell on its count. -/
theorem rungXfer_kept (hm : m ∈ keptNow s) :
    (rungXfer junk s gs).host.qhns m = (s.xfer.host.qhns m).count := by
  rw [rungXfer_qhns, if_neg (not_mem_dueNow hm), if_pos hm]

/-- The descriptors of the queue heads that are not destroyed. -/
theorem Layout.rungXfer_tdns (h : Layout s gs) {t : TdId}
    (ht : t ∈ flat (dropGroups gs (dueNow s) q)) :
    (rungXfer junk s gs).host.tdns t = s.xfer.host.tdns t := by
  obtain ⟨hq, ht⟩ := flat_dropGroups.1 ht
  refine freed_of_notMem fun hmem => ?_
  obtain ⟨d, hd, htd⟩ := List.mem_flatMap.1 hmem
  refine h.apart q d ?_ t ht htd
  rintro rfl
  exact hq hd

/-- The queue heads of the ring are not waiting. -/
theorem Layout.linked_stays (h : Layout s gs) (hm : m ∈ s.linked) :
    m ∉ dueNow s
      ∧ (rungXfer junk s gs).host.qhns m = s.xfer.host.qhns m := by
  have hw := h.linked_not_waiting hm
  have hdue : m ∉ dueNow s := fun hd => hw (mem_dueNow.1 hd).1
  have hkept : m ∉ keptNow s := fun hk => hw (mem_keptNow.1 hk).1
  refine ⟨hdue, ?_⟩
  rw [rungXfer_qhns, if_neg hdue, if_neg hkept]

/-- Each queue head that stays has its descriptors. -/
theorem Layout.doorbell_leads (h : Layout s gs)
    (hm : m ∈ s.linked ∨ m ∈ keptNow s) :
    Leads (rungXfer junk s gs).host.nextTd
      ((rungXfer junk s gs).host.qhns m).tdns
      (flat (dropGroups gs (dueNow s) m)) none := by
  have hnext : ∀ t ∈ flat (dropGroups gs (dueNow s) m),
      (rungXfer junk s gs).host.nextTd t = s.xfer.host.nextTd t :=
    fun t ht => congrArg TDn.next (h.rungXfer_tdns ht)
  have hdrop : m ∉ dueNow s → dropGroups gs (dueNow s) m = gs m :=
    fun hdue => if_neg hdue
  rcases hm with hm | hm
  · obtain ⟨hdue, hsame⟩ := h.linked_stays hm
    rw [hsame]
    rw [hdrop hdue] at hnext ⊢
    exact (h.leads (.inl hm)).congr hnext
  · rw [rungXfer_kept hm]
    rw [hdrop (not_mem_dueNow hm)] at hnext ⊢
    exact (h.leads (.inr (mem_keptNow.1 hm).1)).congr hnext

/-- Those of a queue head of the ring have their `struct TD`. -/
theorem Layout.doorbell_mapped (h : Layout s gs) (hm : m ∈ s.linked) :
    Mapped (rungXfer junk s gs).host.tdns
      (flat (dropGroups gs (dueNow s) m)) := by
  intro t ht
  rw [h.rungXfer_tdns ht]
  exact h.mapped hm t (flat_dropGroups.1 ht).2

/-- Those that are not due wait for the second time. -/
theorem Layout.doorbell_count (h : Layout s gs) (hm : m ∈ keptNow s) :
    ((rungXfer junk s gs).host.qhns m).wasCancelled = 2 := by
  obtain ⟨hw, hle⟩ := mem_keptNow.1 hm
  rw [rungXfer_kept hm]
  show countOf s m + 1 = 2
  rcases h.counts m hw with hone | htwo
  · omega
  · omega

/-- The ring stays, and those that are not due are the list from
`db_pending`. -/
theorem Layout.doorbell_ring (h : Layout s gs) (hrun : s.crashed = false)
    {l : List QhId} (hl : Ringed (xferRing s gs) l) :
    Ringed (xferRing (leaveWaiting s { s with xfer := rungXfer junk s gs })
      (dropGroups gs (dueNow s))) l := by
  refine hl.frame hrun rfl rfl ?_ ?_ ?_ ?_
  · exact fun m hm => (h.linked_stays (Layout.mem_ring hl |>.1 hm)).2
  · have hpending := hl.pending
    show Leads (rungXfer junk s gs).host.nextOf (keptNow s).head?
      (keptNow s) none
    have hwaits : (xferRing s gs).removed = dueNow s ++ keptNow s :=
      h.waiting_eq
    rw [hwaits] at hpending
    obtain ⟨r, -, hback⟩ := Leads.append_iff.1 hpending
    rw [← hback.eq_head]
    refine hback.congr fun k hk => ?_
    show ((rungXfer junk s gs).host.qhns k).next = _
    rw [rungXfer_kept hk]
    rfl
  · exact fun m hm => hl.apart m (mem_keptNow.1 hm).1
  · intro m hm
    have hlink := Layout.mem_ring hl |>.1 hm
    exact ⟨h.doorbell_leads (.inl hlink), h.doorbell_mapped hlink⟩

/-- A doorbell keeps the layout of all queue heads that remain. -/
theorem Layout.doorbell (h : Layout s gs) (hrun : s.crashed = false) :
    Layout (leaveWaiting s { s with xfer := rungXfer junk s gs })
      (dropGroups gs (dueNow s)) := by
  obtain ⟨l, hl⟩ := h.ring
  constructor
  · exact ⟨l, h.doorbell_ring hrun hl⟩
  · exact fun m hm => h.doorbell_leads (.inr hm)
  · apply List.pairwise_of_forall_mem_list
    intro a ha b hb
    exact Nat.le_of_eq
      ((h.doorbell_count hb).trans (h.doorbell_count ha).symm)
  · exact fun m hm => .inr (h.doorbell_count hm)
  · intro m hml hmk
    unfold dropGroups
    split
    · rfl
    · next hdue =>
        refine h.idle m hml fun hw => ?_
        rw [h.waiting_eq] at hw
        exact (List.mem_append.1 hw).elim hdue hmk
  · intro m g hg
    refine (h.groups m g (mem_dropGroups.1 hg).2).congr fun t ht => ?_
    have hsame : (rungXfer junk s gs).host.tdns t = s.xfer.host.tdns t :=
      h.rungXfer_tdns (mem_flat.2 ⟨g, hg, ht⟩)
    show ((rungXfer junk s gs).host.tdns t).cb = _
      ∧ hasIoc ((rungXfer junk s gs).host.tdns t) = _
    rw [hsame]
    exact ⟨rfl, rfl⟩
  · intro a b hab t hta htb
    exact h.apart a b hab t (flat_dropGroups.1 hta).2 (flat_dropGroups.1 htb).2
  · exact fun m t ht => h.used m t (flat_dropGroups.1 ht).2

/-- All requests that were pending on the queue heads destroyed are
answered once, as cancelled. -/
theorem XferInv.doorbell_history (h : XferInv s gs) :
    History (leaveWaiting s { s with xfer := rungXfer junk s gs })
      (dropGroups gs (dueNow s)) := by
  have hlive : ∀ m ∈ s.waiting, m ∉ s.xfer.destroyed :=
    fun m hm hd => (h.history.gone m hd).2 hm
  have hcalls : ∀ m, callsOf (leaveWaiting s { s with
      xfer := rungXfer junk s gs }) m = callsOf s m
        ++ (if m ∈ dueNow s then (asked (gs m)).map (cancelled m)
          else []) := by
    intro m
    show List.filter _ (s.xfer.log ++ _) = _
    rw [List.filter_append, filter_flatMap_calls]
    · congr 1
      split
      · exact cancelCalls_flat (h.layout.groups m)
      · rfl
    · intro d c hc
      obtain ⟨cb, -, rfl⟩ := List.mem_map.1 hc
      rfl
    · exact h.layout.nodup_waiting.filter _
  constructor
  · intro m hm
    rcases List.mem_append.1 hm with hm | hm
    · obtain ⟨hml, hmw⟩ := h.history.gone m hm
      exact ⟨hml, fun hk => hmw (mem_keptNow.1 hk).1⟩
    · obtain ⟨hw, hlt⟩ := mem_dueNow.1 hm
      refine ⟨fun hml => h.layout.linked_not_waiting hml hw, fun hk => ?_⟩
      exact absurd hlt (Nat.not_lt.2 (mem_keptNow.1 hk).2)
  · exact h.history.distinct
  · exact h.history.apart
  · exact h.history.known
  · exact h.history.quiet
  · intro m
    have hmem : m ∈ (rungXfer junk s gs).destroyed
        ↔ m ∈ s.xfer.destroyed ∨ m ∈ dueNow s := List.mem_append
    rw [hcalls m]
    -- destroyed now: what was pending is answered; otherwise nothing is
    by_cases hdue : m ∈ dueNow s
    · obtain ⟨done, henq, hcs, hlen⟩ :=
        h.split_enqueued (hlive m (mem_dueNow.1 hdue).1)
      refine ⟨done, asked (gs m), henq, ?_, ?_, hlen⟩
      · exact fun hnot => absurd (hmem.2 (.inr hdue)) hnot
      · rw [if_pos hdue, hcs]
        congr 1
        exact (if_pos (hmem.2 (.inr hdue))).symm
    · obtain ⟨done, rest, henq, hrest, hcs, hlen⟩ := h.history.calls m
      refine ⟨done, rest, henq, fun hnot => ?_, ?_, hlen⟩
      · unfold dropGroups
        rw [if_neg hdue]
        exact hrest fun hd => hnot (hmem.2 (.inl hd))
      · rw [if_neg hdue, List.append_nil, hcs]
        congr 1
        by_cases hd : m ∈ s.xfer.destroyed
        · rw [if_pos hd]
          exact (if_pos (hmem.2 (.inl hd))).symm
        · rw [if_neg hd]
          exact (if_neg fun hd' => (hmem.1 hd').elim hd hdue).symm

/-- The progress of the others is as before. -/
theorem XferInv.doorbell_progress (h : XferInv s gs) :
    Progress (leaveWaiting s { s with xfer := rungXfer junk s gs })
      (dropGroups gs (dueNow s)) := by
  constructor
  · exact fun m g hg => h.progress.owner m g (mem_dropGroups.1 hg).2
  · intro m hm g hg
    show bytesOf s g.1 = doneBytes (rungXfer junk s gs).host.tdns g.2
    rw [h.progress.bytes m hm g (mem_dropGroups.1 hg).2]
    refine (doneBytes_congr fun t ht => ?_).symm
    rw [h.layout.rungXfer_tdns (mem_flat.2 ⟨g, hg, ht⟩)]
  · exact fun m hm g hg => h.progress.small m hm g (mem_dropGroups.1 hg).2
  · intro m hm
    have hdue : m ∉ dueNow s := fun hd =>
      h.layout.linked_not_waiting hm (mem_dueNow.1 hd).1
    have hsame : ∀ t ∈ flat (gs m),
        (rungXfer junk s gs).host.tdns t = s.xfer.host.tdns t :=
      fun t ht => h.layout.rungXfer_tdns (flat_dropGroups.2 ⟨hdue, ht⟩)
    show (flat (dropGroups gs (dueNow s) m)).Pairwise fun a b =>
      isDone ((rungXfer junk s gs).host.tdns b) = true →
        isDone ((rungXfer junk s gs).host.tdns a) = true
    unfold dropGroups
    rw [if_neg hdue]
    refine (h.progress.order m hm).imp_of_mem ?_
    intro a b ha hb hab
    rw [hsame a ha, hsame b hb]
    exact hab

theorem XferInv.doorbell (h : XferInv s gs) :
    XferInv (leaveWaiting s { s with xfer := rungXfer junk s gs })
      (dropGroups gs (dueNow s)) where
  running := h.running
  layout := h.layout.doorbell h.running
  history := h.doorbell_history
  progress := h.doorbell_progress

end doorbell

end ProjectsLibs.Ehci
