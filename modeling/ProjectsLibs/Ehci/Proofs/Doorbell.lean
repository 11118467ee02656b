/-
The queue heads that were removed wait in `db_pending` for two answers of
the controller to the doorbell.

`check_doorbell` goes through the list and builds it again in place, and
it never ends the new list. That is right because the counts do not
increase along the list: the queue heads that are due are at its front,
and the others keep their links (`checkDoorbell_eq`).

# The invariant

The counts along the list say how many answers there were since a queue
head was put there, so with removals appended at the end they do not
increase. `BellInv` has this as an equation: the list is what was removed
in order, without those that are destroyed. A call then destroys a front
of the list and counts the rest, in closed form (`afterBell`), and every
part of the invariant is checked against that form.

The loop that destroys one queue head is followed first, by induction on
its descriptors: each is freed and called back once, and the others are
not touched. Adding and removing are taken from the proofs about the
ring; what is new here is that neither changes a queue head that waits.
-/
import ProjectsLibs.Ehci.Doorbell
import ProjectsLibs.Ehci.Proofs.Ring

namespace ProjectsLibs.Ehci

open Lib

variable {x : Xfer} {q : QhId} {junk : Junk}

-- ========================================================== destruction

/-- The descriptors with some of them freed. -/
def freed (junk : Junk) (tds : List TdId) (tdns : TdId → TDn) : TdId →
    TDn :=
  fun t => if t ∈ tds then junk.td t else tdns t

theorem freed_of_notMem {tds : List TdId} {tdns : TdId → TDn} {t : TdId}
    (h : t ∉ tds) : freed junk tds tdns t = tdns t := if_neg h

theorem freed_nil (tdns : TdId → TDn) : freed junk [] tdns = tdns := rfl

theorem freed_freed (tds tds' : List TdId) (tdns : TdId → TDn) :
    freed junk tds' (freed junk tds tdns) = freed junk (tds ++ tds') tdns := by
  funext t
  unfold freed
  by_cases h : t ∈ tds
  · by_cases h' : t ∈ tds'
    · simp [h, h']
    · simp [h, h']
  · by_cases h' : t ∈ tds'
    · simp [h, h']
    · simp [h, h']

theorem freed_cons (t : TdId) (tds : List TdId) (tdns : TdId → TDn) :
    freed junk tds (Function.update tdns t (junk.td t))
      = freed junk (t :: tds) tdns := by
  funext u
  unfold freed
  by_cases hu : u = t
  · subst hu
    by_cases h : u ∈ tds
    · simp [h]
    · simp [h]
  · simp [hu]

/-- The callbacks of descriptors that are cancelled. -/
def cancelCalls (q : QhId) (tdns : TdId → TDn) (tds : List TdId) :
    List Call :=
  (tds.filterMap fun t => (tdns t).cb).map fun cb => ⟨q, cb, .cancelled, 0⟩

/-- The callbacks depend on those noted in the descriptors. -/
theorem cancelCalls_congr {tdns tdns' : TdId → TDn} {tds : List TdId}
    (h : ∀ t ∈ tds, (tdns' t).cb = (tdns t).cb) :
    cancelCalls q tdns' tds = cancelCalls q tdns tds := by
  unfold cancelCalls
  rw [List.filterMap_congr h]

/-- The loop of a destruction calls the callbacks and frees all. -/
theorem destroyTds_eq {p : Option TdId} {tds : List TdId} {fuel : Nat}
    (h : Leads x.host.nextTd p tds none) (hfuel : tds.length ≤ fuel) :
    destroyTds junk q fuel x p = .ok { x with
      host := { x.host with tdns := freed junk tds x.host.tdns }
      log := x.log ++ cancelCalls q x.host.tdns tds } := by
  induction tds generalizing p fuel x with
  | nil =>
      have hp : p = none := h
      rw [hp, freed_nil]
      unfold destroyTds
      simp [cancelCalls]
  | cons t tds ih =>
      have ht := (List.nodup_cons.1 h.nodup).1
      obtain ⟨hp, hrest⟩ := h
      have hother : ∀ u ∈ tds,
          (freeTd junk x.host t).tdns u = x.host.tdns u := by
        intro u hu
        have hut : u ≠ t := fun he => ht (he ▸ hu)
        simp [freeTd, hut]
      cases fuel with
      | zero => cases hfuel
      | succ fuel =>
          have hleads : Leads (freeTd junk x.host t).nextTd
              (x.host.nextTd t) tds none := by
            apply hrest.congr
            intro u hu
            exact congrArg TDn.next (hother u hu)
          rw [hp]
          show destroyTds junk q fuel { x with
            host := freeTd junk x.host t
            log := _ } (x.host.nextTd t) = _
          rw [ih hleads (Nat.le_of_succ_le_succ hfuel)]
          simp only []
          rw [cancelCalls_congr fun u hu => congrArg TDn.cb (hother u hu)]
          simp only [freeTd, freed_cons, Except.ok.injEq, Xfer.mk.injEq,
            true_and, and_true]
          cases hcb : (x.host.tdns t).cb with
          | none => simp [cancelCalls, hcb]
          | some cb => simp [cancelCalls, hcb]

/-- A queue head is destroyed. -/
theorem qhnDestroy_eq {tds : List TdId} {fuel : Nat}
    (h : Leads x.host.nextTd (x.host.qhns q).tdns tds none)
    (hfuel : tds.length ≤ fuel) :
    qhnDestroy junk fuel x q = .ok {
      host := { x.host with
        qhns := Function.update x.host.qhns q (junk.qh q)
        tdns := freed junk tds x.host.tdns }
      log := x.log ++ cancelCalls q x.host.tdns tds
      destroyed := x.destroyed ++ [q] } := by
  unfold qhnDestroy
  rw [destroyTds_eq h hfuel]
  rfl

-- ======================================================== the doorbell

/-- Another answer is counted. -/
def QHn.count (qhn : QHn) : QHn :=
  { qhn with wasCancelled := qhn.wasCancelled + 1 }

/-- The queue heads after a call: some were destroyed, some counted. -/
def rung (junk : Junk) (due kept : List QhId) (qhns : QhId → QHn) :
    QhId → QHn :=
  fun m => if m ∈ due then junk.qh m
    else if m ∈ kept then (qhns m).count else qhns m

theorem rung_nil (qhns : QhId → QHn) : rung junk [] [] qhns = qhns := by
  funext m
  simp [rung]

/-- A queue head that is kept is counted once more. -/
theorem rung_kept {k : QhId} {kept : List QhId} (hk : k ∉ kept)
    (qhns : QhId → QHn) :
    rung junk [] kept (Function.update qhns k (qhns k).count)
      = rung junk [] (k :: kept) qhns := by
  funext m
  unfold rung
  by_cases hm : m = k
  · subst hm
    simp [hk]
  · simp [hm]

/-- A queue head that is due is freed. -/
theorem rung_due {d : QhId} {due kept : List QhId} (hd : d ∉ kept)
    (qhns : QhId → QHn) :
    rung junk due kept (Function.update qhns d (junk.qh d))
      = rung junk (d :: due) kept qhns := by
  funext m
  unfold rung
  by_cases hm : m = d
  · subst hm
    simp [hd]
  · simp [hm]

/-- A queue head that stays is counted, and its place is what it was. -/
theorem keepPending_eq (x : Xfer) (tail : Option QhId) (k : QhId)
    (htail : x.host.dbPending = none ∨ ∃ t, tail = some t ∧ t ≠ k
      ∧ x.host.nextOf t = some k) :
    keepPending x k tail = .ok { x with host := { x.host with
      qhns := Function.update x.host.qhns k (x.host.qhns k).count
      dbPending := x.host.dbPending.or (some k) } } := by
  unfold keepPending
  rcases htail with hdb | ⟨t, rfl, htk, hnext⟩
  · simp only [AsyncHost.setQh_dbPending, hdb]
    rfl
  · cases hdb : x.host.dbPending with
    | none =>
        simp only [AsyncHost.setQh_dbPending, hdb]
        rfl
    | some d =>
        -- the link that is written is already there
        have hsame : ((x.host.setQh k QHn.count).setQh t fun qhn =>
            { qhn with next := some k }) = x.host.setQh k QHn.count := by
          unfold AsyncHost.setQh
          congr 1
          simp only [Function.update_eq_self_iff, Function.update_of_ne htk,
            ← hnext, AsyncHost.nextOf]
        simp only [AsyncHost.setQh_dbPending, hdb, Option.some_or]
        show Except.ok { x with host :=
          (x.host.setQh k QHn.count).setQh t fun qhn =>
            { qhn with next := some k } } = _
        rw [hsame]
        simp only [AsyncHost.setQh, ← hdb]

/-- The queue heads that are not due stay in the list. -/
theorem doorbellLoop_kept {p tail : Option QhId} {kept : List QhId}
    {again : Bool} {free fuel : Nat}
    (h : Leads x.host.nextOf p kept none)
    (hcount : ∀ k ∈ kept, (x.host.qhns k).wasCancelled ≤ 1)
    (htail : x.host.dbPending = none ∨ ∃ t, tail = some t ∧ t ∉ kept
      ∧ x.host.nextOf t = p)
    (hfuel : kept.length ≤ fuel) :
    doorbellLoop junk free fuel x p tail again = .ok ({ x with
      host := { x.host with
        qhns := rung junk [] kept x.host.qhns
        dbPending := x.host.dbPending.or kept.head? } },
      again || !kept.isEmpty) := by
  induction kept generalizing p tail fuel x again with
  | nil =>
      have hp : p = none := h
      rw [hp, rung_nil]
      unfold doorbellLoop
      simp
  | cons k kept ih =>
      have hk := (List.nodup_cons.1 h.nodup).1
      obtain ⟨hp, hrest⟩ := h
      cases fuel with
      | zero => cases hfuel
      | succ fuel =>
          have hnot : ¬1 < (x.host.qhns k).wasCancelled :=
            Nat.not_lt.2 (hcount k (List.mem_cons_self ..))
          have hkeep := keepPending_eq x tail k (by
            rcases htail with hdb | ⟨t, ht, hmem, hnext⟩
            · exact .inl hdb
            · refine .inr ⟨t, ht, ?_, hnext.trans hp⟩
              exact fun he => hmem (he ▸ List.mem_cons_self ..))
          have hother : ∀ m ∈ kept, Function.update x.host.qhns k
              (x.host.qhns k).count m = x.host.qhns m := by
            intro m hm
            have hmk : m ≠ k := fun he => hk (he ▸ hm)
            exact Function.update_of_ne hmk ..
          rw [hp]
          unfold doorbellLoop
          simp only [hnot, if_false, hkeep, Bind.bind, Except.bind]
          rw [ih]
          · simp only [rung_kept hk, Option.or_assoc, Option.some_or,
              List.head?_cons, List.isEmpty_cons, Bool.not_false,
              Bool.or_true, Bool.true_or]
          · apply hrest.congr
            exact fun m hm => congrArg QHn.next (hother m hm)
          · intro m hm
            simp only [hother m hm]
            exact hcount m (List.mem_cons_of_mem _ hm)
          · refine .inr ⟨k, rfl, hk, ?_⟩
            simp [AsyncHost.nextOf, QHn.count]
          · exact Nat.le_of_succ_le_succ hfuel

/-- The queue heads at the front are due and are destroyed. -/
theorem doorbellLoop_eq {p tail : Option QhId} {due kept : List QhId}
    {tds : QhId → List TdId} {again : Bool} {free fuel : Nat}
    (h : Leads x.host.nextOf p (due ++ kept) none)
    (hdue : ∀ d ∈ due, 1 < (x.host.qhns d).wasCancelled)
    (hkept : ∀ k ∈ kept, (x.host.qhns k).wasCancelled ≤ 1)
    (htds : ∀ d ∈ due,
      Leads x.host.nextTd (x.host.qhns d).tdns (tds d) none)
    (hapart : due.Pairwise fun a b => ∀ t ∈ tds b, t ∉ tds a)
    (hdb : x.host.dbPending = none)
    (hfuel : (due ++ kept).length ≤ fuel)
    (hfree : (due.flatMap tds).length ≤ free) :
    doorbellLoop junk free fuel x p tail again = .ok ({
        host := { x.host with
          qhns := rung junk due kept x.host.qhns
          tdns := freed junk (due.flatMap tds) x.host.tdns
          dbPending := kept.head? }
        log := x.log ++ due.flatMap fun d =>
          cancelCalls d x.host.tdns (tds d)
        destroyed := x.destroyed ++ due },
      again || !kept.isEmpty) := by
  -- the queue heads that are due come first in the list; each is unlinked
  -- from its front and destroyed
  induction due generalizing p tail fuel x again with
  | nil =>
      rw [doorbellLoop_kept h hkept (.inl hdb) hfuel]
      simp [hdb, freed_nil]
  | cons d due ih =>
      rw [List.cons_append] at h
      have hd := (List.nodup_cons.1 h.nodup).1
      obtain ⟨hp, hrest⟩ := h
      have hapart' := List.pairwise_cons.1 hapart
      rw [List.mem_append, not_or] at hd
      have hlen : (tds d).length ≤ free
          ∧ (due.flatMap tds).length ≤ free := by
        simp only [List.flatMap_cons, List.length_append] at hfree
        omega
      cases fuel with
      | zero => cases hfuel
      | succ fuel =>
          have hyes : 1 < (x.host.qhns d).wasCancelled :=
            hdue d (List.mem_cons_self ..)
          have hheads : ∀ m, m ≠ d → Function.update x.host.qhns d
              (junk.qh d) m = x.host.qhns m :=
            fun m hm => Function.update_of_ne hm ..
          have hne : ∀ m ∈ due, m ≠ d := fun m hm he => hd.1 (he ▸ hm)
          have hne' : ∀ m ∈ kept, m ≠ d := fun m hm he => hd.2 (he ▸ hm)
          -- freeing the descriptors of one does not touch those of another
          have hother : ∀ m ∈ due, ∀ t ∈ tds m,
              freed junk (tds d) x.host.tdns t = x.host.tdns t :=
            fun m hm t ht => freed_of_notMem (hapart'.1 m hm t ht)
          rw [hp]
          unfold doorbellLoop
          simp only [hyes, if_true, Bind.bind, Except.bind]
          rw [qhnDestroy_eq (htds d (List.mem_cons_self ..)) hlen.1]
          simp only []
          rw [ih]
          · simp only [rung_due hd.2, freed_freed, List.flatMap_cons,
              List.append_assoc, List.singleton_append]
            congr 5
            apply List.flatMap_congr
            intro m hm
            exact cancelCalls_congr fun t ht =>
              congrArg TDn.cb (hother m hm t ht)
          · apply hrest.congr
            intro m hm
            rcases List.mem_append.1 hm with hm | hm
            · exact congrArg QHn.next (hheads m (hne m hm))
            · exact congrArg QHn.next (hheads m (hne' m hm))
          · intro m hm
            simp only [hheads m (hne m hm)]
            exact hdue m (List.mem_cons_of_mem _ hm)
          · intro m hm
            simp only [hheads m (hne' m hm)]
            exact hkept m hm
          · intro m hm
            simp only [hheads m (hne m hm)]
            apply (htds m (List.mem_cons_of_mem _ hm)).congr
            exact fun t ht => congrArg TDn.next (hother m hm t ht)
          · exact hapart'.2
          · exact hdb
          · exact Nat.le_of_succ_le_succ hfuel
          · exact hlen.2

/-- The host after a call. -/
def AsyncHost.afterBell (junk : Junk) (s : AsyncHost) (due kept : List QhId)
    (tds : List TdId) : AsyncHost :=
  { s with
    qhns := rung junk due kept s.qhns
    tdns := freed junk tds s.tdns
    dbPending := kept.head?
    usbcmd := if kept = [] then s.usbcmd
      else s.usbcmd ||| mask ehcicmdAsyncDb }

/-- What a call does to a list whose counts do not increase. -/
theorem checkDoorbell_eq {due kept : List QhId} {tds : QhId → List TdId}
    {fuel : Nat}
    (h : Leads x.host.nextOf x.host.dbPending (due ++ kept) none)
    (hdue : ∀ d ∈ due, 1 < (x.host.qhns d).wasCancelled)
    (hkept : ∀ k ∈ kept, (x.host.qhns k).wasCancelled ≤ 1)
    (htds : ∀ d ∈ due,
      Leads x.host.nextTd (x.host.qhns d).tdns (tds d) none)
    (hapart : due.Pairwise fun a b => ∀ t ∈ tds b, t ∉ tds a)
    (hfuel : (due ++ kept).length ≤ fuel)
    (hfree : (due.flatMap tds).length ≤ fuel) :
    checkDoorbell junk fuel x = .ok {
      host := x.host.afterBell junk due kept (due.flatMap tds)
      log := x.log ++ due.flatMap fun d =>
        cancelCalls d x.host.tdns (tds d)
      destroyed := x.destroyed ++ due } := by
  unfold checkDoorbell
  have hloop : doorbellLoop junk fuel fuel { x with
      host := { x.host with dbPending := none } } x.host.dbPending none false
      = _ := doorbellLoop_eq h hdue hkept htds hapart rfl hfuel hfree
  simp only [hloop, Bind.bind, Except.bind, Bool.false_or]
  cases kept with
  | nil => rfl
  | cons k kept => rfl

-- ======================================================== the invariant

variable {s s' : BellHost}

/-- The ring of the queue heads that are linked. -/
def toRing (s : BellHost) : RingHost :=
  ⟨s.xfer.host, s.linked, pendingOf s, s.tds, s.crashed⟩

/-- The queue heads that the next call destroys. -/
def dueOf (s : BellHost) : List QhId :=
  (s.cancelled.filter fun c => c.2 = 1).map Prod.fst

/-- The queue heads that wait for one more call. -/
def keptOf (s : BellHost) : List QhId :=
  (s.cancelled.filter fun c => c.2 = 0).map Prod.fst

/-- Two kinds of elements, of which one comes first. -/
theorem filter_split {α : Type*} {l : List α} {p r : α → Bool}
    (hdisj : ∀ a, p a = true → r a = false)
    (h : l.Pairwise fun a b => r a = true → p b = false) :
    l.filter (fun a => p a || r a) = l.filter p ++ l.filter r := by
  induction l with
  | nil => rfl
  | cons a l ih =>
      obtain ⟨hrest, hl⟩ := List.pairwise_cons.1 h
      cases hp : p a with
      | true => simp [hp, hdisj a hp, ih hl]
      | false =>
          cases hr : r a with
          | true =>
              have hnone : l.filter p = [] := by
                apply List.filter_eq_nil_iff.2
                intro b hb
                simp [hrest b hb hr]
              simp [hp, hr, ih hl, hnone]
          | false => simp [hp, hr, ih hl]

/-- What the doorbell keeps. Older removals come first. -/
structure BellInv (s : BellHost) : Prop where
  running : s.crashed = false
  ring : s.linked = [] ∨ ∃ l, Ringed (toRing s) l
  distinct : (everOf s).Nodup
  pending : Leads s.xfer.host.nextOf s.xfer.host.dbPending (pendingOf s) none
  sorted : s.cancelled.Pairwise fun a b => b.2 ≤ a.2
  counts : ∀ c ∈ s.cancelled, c.2 < 2 →
    (s.xfer.host.qhns c.1).wasCancelled = c.2 + 1
  tds : ∀ q ∈ pendingOf s,
    Leads s.xfer.host.nextTd (s.xfer.host.qhns q).tdns (s.tds q) none
  apart : ∀ a ∈ everOf s, ∀ b ∈ everOf s, a ≠ b →
    ∀ t ∈ s.tds a, t ∉ s.tds b
  destroyed : s.xfer.destroyed
    = (s.cancelled.filter fun c => 2 ≤ c.2).map Prod.fst
  fresh : s.answered = true → isRung s.xfer.host = true → keptOf s ≠ []

/-- Pending are those that were cancelled less than two doorbells ago. -/
theorem mem_pendingOf : q ∈ pendingOf s
    ↔ ∃ n < 2, (q, n) ∈ s.cancelled := by
  simp only [pendingOf, List.mem_map, List.mem_filter, decide_eq_true_eq,
    Prod.exists]
  constructor
  · rintro ⟨m, n, ⟨hmem, hn⟩, rfl⟩
    exact ⟨n, hn, hmem⟩
  · rintro ⟨n, hn, hmem⟩
    exact ⟨q, n, ⟨hmem, hn⟩, rfl⟩

/-- They are among the queue heads that ever were. -/
theorem pendingOf_sub (h : q ∈ pendingOf s) : q ∈ everOf s := by
  obtain ⟨n, -, hmem⟩ := mem_pendingOf.1 h
  exact List.mem_append_right _ (List.mem_map.2 ⟨(q, n), hmem, rfl⟩)

namespace BellInv

/-- The removals of `t` calls ago, by two parts of them: the older part is
in front. -/
theorem filter_count (h : BellInv s) (p r t : Nat → Prop)
    [DecidablePred p] [DecidablePred r] [DecidablePred t]
    (hsplit : ∀ n, t n ↔ p n ∨ r n)
    (hlt : ∀ m n, p m → r n → n < m) :
    s.cancelled.filter (fun c => t c.2)
      = s.cancelled.filter (fun c => p c.2)
        ++ s.cancelled.filter fun c => r c.2 := by
  rw [← filter_split]
  · apply List.filter_congr
    intro c _
    rw [← Bool.decide_or, decide_eq_decide]
    exact hsplit c.2
  · intro c hp
    have hp := of_decide_eq_true hp
    exact decide_eq_false fun hr => Nat.lt_irrefl _ (hlt _ _ hp hr)
  · apply h.sorted.imp
    intro a b hle hr
    have hr := of_decide_eq_true hr
    exact decide_eq_false fun hp => Nat.not_lt.2 hle (hlt _ _ hp hr)

/-- Those that are due are at the front. -/
theorem pendingOf_eq (h : BellInv s) : pendingOf s = dueOf s ++ keptOf s := by
  unfold pendingOf dueOf keptOf
  rw [← List.map_append]
  congr 1
  refine h.filter_count (· = 1) (· = 0) (· < 2) (fun n => ?_)
    fun m n hm hn => ?_
  · omega
  · omega

/-- Those that are due come after those that were destroyed. -/
theorem destroyed_eq (h : BellInv s) :
    (s.cancelled.filter fun c => 1 ≤ c.2).map Prod.fst
      = s.xfer.destroyed ++ dueOf s := by
  rw [h.destroyed]
  unfold dueOf
  rw [← List.map_append]
  congr 1
  refine h.filter_count (2 ≤ ·) (· = 1) (1 ≤ ·) (fun n => ?_)
    fun m n hm hn => ?_
  · omega
  · omega

/-- A ring of which nothing is linked. -/
theorem ringed_nil (h : BellInv s) (hlinked : s.linked = [])
    (htail : s.xfer.host.alistTail = none) : Ringed (toRing s) [] where
  running := h.running
  ring := rfl
  perm := by
    show List.Perm [] s.linked
    rw [hlinked]
  nodup := List.nodup_nil
  tail _ := rfl
  tail_mem t ht := by
    have hsome : s.xfer.host.alistTail = some t := ht
    rw [htail] at hsome
    cases hsome
  links := nofun
  pending := h.pending
  apart := nofun
  tds := nofun

/-- A queue head is added. -/
theorem add (h : BellInv s) (hq : Addable s q) : BellInv { s with
    xfer := { s.xfer with host := ehciAddQhnAsync s.xfer.host q }
    linked := q :: s.linked } := by
  obtain ⟨hnew, htail, hleads, hmapped, hapart⟩ := hq
  have hqlinked : q ∉ s.linked :=
    fun hmem => hnew (List.mem_append_left _ hmem)
  have hqpending : q ∉ pendingOf s := fun hmem => hnew (pendingOf_sub hmem)
  obtain ⟨l, hring⟩ : ∃ l, Ringed (toRing s) l := by
    rcases h.ring with hnil | hring
    · refine ⟨[], h.ringed_nil hnil ?_⟩
      cases hsome : s.xfer.host.alistTail with
      | none => rfl
      | some t =>
          have hmem := htail t hsome
          rw [hnil] at hmem
          cases hmem
    · exact hring
  have hql : q ∉ l := fun hmem => hqlinked (hring.perm.mem_iff.1 hmem)
  obtain ⟨hsame, htd, -, hbell, -⟩ := add_keeps s.xfer.host q
  obtain ⟨l', hring'⟩ := hring.add hql hqpending ⟨hleads, hmapped⟩
  constructor
  · exact h.running
  · exact .inr ⟨l', hring'⟩
  · exact List.nodup_cons.2 ⟨hnew, h.distinct⟩
  · exact hring'.pending
  · exact h.sorted
  · intro c hc hn
    rw [hsame.count]
    exact h.counts c hc hn
  · intro m hm
    rw [hsame.tdns]
    apply (h.tds m hm).congr
    intro t _
    show ((ehciAddQhnAsync s.xfer.host q).tdns t).next = _
    rw [htd]
    rfl
  · intro a ha b hb hab t hta htb
    rcases List.mem_cons.1 ha with rfl | ha
    · rcases List.mem_cons.1 hb with rfl | hb
      · exact hab rfl
      · exact hapart b hb t hta htb
    · rcases List.mem_cons.1 hb with rfl | hb
      · exact hapart a ha t htb hta
      · exact h.apart a ha b hb hab t hta htb
  · exact h.destroyed
  · intro hans hrung
    apply h.fresh hans
    unfold isRung at hrung ⊢
    rw [← hbell]
    exact hrung

/-- Fuel for all descriptors there are suffices for some of them. -/
theorem length_tds_le {l : List QhId} (h : l.Sublist (everOf s)) :
    (l.flatMap s.tds).length ≤ ((everOf s).flatMap s.tds).length :=
  (h.flatMap s.tds).length_le

theorem fuel_enough (s : BellHost) (hq : q ∈ s.linked) :
    ringFuel (toRing s) q ≤ bellFuel s := by
  have hpend : (pendingOf s).length ≤ s.cancelled.length := by
    unfold pendingOf
    rw [List.length_map]
    exact List.length_filter_le ..
  have hsub : [q].Sublist (everOf s) :=
    List.singleton_sublist.2 (List.mem_append_left _ hq)
  have htds := length_tds_le hsub
  rw [List.flatMap_singleton] at htds
  unfold ringFuel bellFuel
  simp only [toRing]
  unfold everOf at htds ⊢
  rw [List.length_append, List.length_map]
  omega

/-- A queue head is removed. -/
theorem del (h : BellInv s) (hq : q ∈ s.linked) :
    ∃ host, ehciDelQhnAsync (bellFuel s) s.xfer.host q = .ok host
      ∧ BellInv { s with
        xfer := { s.xfer with host := host }
        linked := s.linked.erase q
        cancelled := s.cancelled ++ [(q, 0)] } := by
  obtain ⟨l, hring⟩ : ∃ l, Ringed (toRing s) l := by
    rcases h.ring with hnil | hring
    · rw [hnil] at hq
      cases hq
    · exact hring
  obtain ⟨host, hdel, hremoved, hpending, hring'⟩ := hring.del_any
    (hring.perm.mem_iff.2 hq) (fuel_enough s hq)
  have hpendingOf : ∀ xfer linked, pendingOf { s with
      xfer := xfer
      linked := linked
      cancelled := s.cancelled ++ [(q, 0)] } = pendingOf s ++ [q] := by
    intro xfer linked
    simp [pendingOf]
  -- the queue head only moves from one list to the other
  have hperm : (everOf { s with
      xfer := { s.xfer with host := host }
      linked := s.linked.erase q
      cancelled := s.cancelled ++ [(q, 0)] }).Perm (everOf s) := by
    unfold everOf
    rw [List.map_append, ← List.append_assoc]
    refine (List.perm_append_comm ..).trans ?_
    show (q :: (s.linked.erase q ++ s.cancelled.map Prod.fst)).Perm _
    exact (List.perm_cons_erase hq).symm.append_right _
  have hneq : ∀ c ∈ s.cancelled, c.1 ≠ q := by
    intro c hc he
    have hdisj := (List.nodup_append.1 h.distinct).2.2
    exact hdisj q hq c.1 (List.mem_map.2 ⟨c, hc, rfl⟩) he.symm
  refine ⟨host, hdel, ?_⟩
  constructor
  · exact h.running
  · rcases hring' with hnil | ⟨l', hring'⟩
    · exact .inl hnil
    · refine .inr ⟨l', ?_⟩
      unfold toRing
      rw [hpendingOf]
      exact hring'
  · exact hperm.nodup_iff.2 h.distinct
  · rw [hpendingOf]
    exact hpending
  · rw [List.pairwise_append]
    refine ⟨h.sorted, List.pairwise_singleton .., ?_⟩
    intro a _ b hb
    rw [List.mem_singleton.1 hb]
    exact Nat.zero_le _
  · intro c hc hn
    rcases List.mem_append.1 hc with hc | hc
    · rw [hremoved.count c.1 (hneq c hc)]
      exact h.counts c hc hn
    · rw [List.mem_singleton.1 hc]
      exact hremoved.counted
  · intro m hm
    rw [hpendingOf] at hm
    have hold : Leads s.xfer.host.nextTd (s.xfer.host.qhns m).tdns
        (s.tds m) none := by
      rcases List.mem_append.1 hm with hm | hm
      · exact h.tds m hm
      · rw [List.mem_singleton.1 hm]
        exact (hring.tds q (hring.perm.mem_iff.2 hq)).1
    rw [hremoved.first]
    exact hold.congr fun t _ => hremoved.nextTd t
  · intro a ha b hb
    exact h.apart a (hperm.mem_iff.1 ha) b (hperm.mem_iff.1 hb)
  · simp only [List.filter_append, List.map_append]
    rw [h.destroyed]
    simp
  · intro _ _
    simp [keptOf]

/-- The controller answers. -/
theorem answer (h : BellInv s) : BellInv { s with
    xfer := { s.xfer with host := { s.xfer.host with
      usbcmd := s.xfer.host.usbcmd &&& ~~~mask ehcicmdAsyncDb } }
    answered := true } := by
  constructor
  · exact h.running
  · rcases h.ring with hnil | ⟨l, hring⟩
    · exact .inl hnil
    · refine .inr ⟨l, hring.frame h.running rfl rfl (fun _ _ => rfl)
        h.pending hring.apart hring.tds⟩
  · exact h.distinct
  · exact h.pending
  · exact h.sorted
  · exact h.counts
  · exact h.tds
  · exact h.apart
  · exact h.destroyed
  · intro _ hrung
    have hclear : isRung { s.xfer.host with
        usbcmd := s.xfer.host.usbcmd &&& ~~~mask ehcicmdAsyncDb }
        = false := by
      unfold isRung
      rw [testBit_and_not_mask _ (by decide) (by decide)]
      simp
    rw [hclear] at hrung
    cases hrung

theorem dueOf_sub : (dueOf s).Sublist (everOf s) :=
  (List.filter_sublist.map Prod.fst).trans (List.sublist_append_right ..)

/-- Those that still wait were removed after those that are due. -/
theorem kept_not_due (h : BellInv s) (hq : q ∈ keptOf s) : q ∉ dueOf s := by
  have hnd := h.pending.nodup
  rw [h.pendingOf_eq] at hnd
  have hdisj := (List.nodup_append.1 hnd).2.2
  exact fun hmem => hdisj q hmem q hq rfl

/-- The call destroys what is due. -/
theorem doorbell (h : BellInv s) (junk : Junk) :
    checkDoorbell junk (bellFuel s) s.xfer = .ok {
      host := s.xfer.host.afterBell junk (dueOf s) (keptOf s)
        ((dueOf s).flatMap s.tds)
      log := s.xfer.log ++ (dueOf s).flatMap fun d =>
        cancelCalls d s.xfer.host.tdns (s.tds d)
      destroyed := s.xfer.destroyed ++ dueOf s } := by
  have hcount : ∀ n < 2, ∀ d ∈ (s.cancelled.filter fun c => c.2 = n).map
      Prod.fst, (s.xfer.host.qhns d).wasCancelled = n + 1 := by
    intro n hn d hd
    obtain ⟨c, hc, rfl⟩ := List.mem_map.1 hd
    obtain ⟨hmem, hcn⟩ := List.mem_filter.1 hc
    have hcn := of_decide_eq_true hcn
    rw [h.counts c hmem (hcn ▸ hn), hcn]
  have hsub : pendingOf s = dueOf s ++ keptOf s := h.pendingOf_eq
  apply checkDoorbell_eq
  · rw [← hsub]
    exact h.pending
  · intro d hd
    rw [hcount 1 (by decide) d hd]
    decide
  · intro k hk
    rw [hcount 0 (by decide) k hk]
  · intro d hd
    apply h.tds d
    rw [hsub]
    exact List.mem_append_left _ hd
  · have hnd : (dueOf s).Nodup := h.distinct.sublist dueOf_sub
    apply hnd.imp_of_mem
    intro a b ha hb hab t htb
    exact h.apart b (dueOf_sub.subset hb) a (dueOf_sub.subset ha) hab.symm
      t htb
  · have hlen : (pendingOf s).length ≤ s.cancelled.length := by
      unfold pendingOf
      rw [List.length_map]
      exact List.length_filter_le ..
    rw [← hsub]
    unfold bellFuel everOf
    rw [List.length_append, List.length_map]
    omega
  · have hlen := length_tds_le (s := s) dueOf_sub
    unfold bellFuel
    omega

end BellInv

/-- The state after the handler. -/
def rangBell (junk : Junk) (s : BellHost) : BellHost :=
  { s with
    xfer := {
      host := s.xfer.host.afterBell junk (dueOf s) (keptOf s)
        ((dueOf s).flatMap s.tds)
      log := s.xfer.log ++ (dueOf s).flatMap fun d =>
        cancelCalls d s.xfer.host.tdns (s.tds d)
      destroyed := s.xfer.destroyed ++ dueOf s }
    cancelled := s.cancelled.map fun c => (c.1, c.2 + 1)
    answered := false }

theorem everOf_rang : everOf (rangBell junk s) = everOf s := by
  unfold everOf rangBell
  rw [List.map_map]
  rfl

/-- The queue heads with a number of answers, after one more. -/
theorem counted_rang (p p' : Nat → Bool) (hp : ∀ n, p (n + 1) = p' n) :
    ((rangBell junk s).cancelled.filter fun c => p c.2).map Prod.fst
      = (s.cancelled.filter fun c => p' c.2).map Prod.fst := by
  unfold rangBell
  simp only [List.filter_map, List.map_map]
  have hfst : Prod.fst ∘ (fun c : QhId × Nat => (c.1, c.2 + 1))
      = Prod.fst := rfl
  rw [hfst]
  congr 1
  exact List.filter_congr fun c _ => hp c.2

/-- After a doorbell those that were kept are pending. -/
theorem pendingOf_rang : pendingOf (rangBell junk s) = keptOf s := by
  refine counted_rang (fun n => n < 2) (fun n => n = 0) fun n => ?_
  rw [decide_eq_decide]
  omega

namespace BellInv

theorem mem_pending (h : BellInv s) (hq : q ∈ keptOf s) :
    q ∈ pendingOf s := by
  rw [h.pendingOf_eq]
  exact List.mem_append_right _ hq

/-- A queue head that waits on is counted. -/
theorem rang_kept (h : BellInv s) (hq : q ∈ keptOf s) :
    (rangBell junk s).xfer.host.qhns q = (s.xfer.host.qhns q).count := by
  simp [rangBell, AsyncHost.afterBell, rung, h.kept_not_due hq, hq]

/-- A queue head in the ring is not pending. -/
theorem linked_apart (h : BellInv s) (hq : q ∈ s.linked) :
    q ∉ dueOf s ∧ q ∉ keptOf s := by
  have hnot : q ∉ s.cancelled.map Prod.fst := fun hmem =>
    (List.nodup_append.1 h.distinct).2.2 q hq q hmem rfl
  exact ⟨fun hmem => hnot ((List.filter_sublist.map Prod.fst).subset hmem),
    fun hmem => hnot ((List.filter_sublist.map Prod.fst).subset hmem)⟩

/-- The queue heads of the ring stay. -/
theorem rang_linked (h : BellInv s) (hq : q ∈ s.linked) :
    (rangBell junk s).xfer.host.qhns q = s.xfer.host.qhns q := by
  obtain ⟨hdue, hkept⟩ := h.linked_apart hq
  simp [rangBell, AsyncHost.afterBell, rung, hdue, hkept]

/-- The descriptors of a queue head that is not destroyed stay. -/
theorem rang_tdns (h : BellInv s) (hq : q ∈ everOf s)
    (hdue : q ∉ dueOf s) {t : TdId} (ht : t ∈ s.tds q) :
    (rangBell junk s).xfer.host.tdns t = s.xfer.host.tdns t := by
  refine freed_of_notMem fun hmem => ?_
  obtain ⟨d, hd, htd⟩ := List.mem_flatMap.1 hmem
  have hqd : q ≠ d := fun he => hdue (he ▸ hd)
  exact h.apart q hq d (dueOf_sub.subset hd) hqd t ht htd

/-- The pending list holds exactly those that were kept, in order. -/
theorem rang_pending (h : BellInv s) :
    Leads (rangBell junk s).xfer.host.nextOf
      (rangBell junk s).xfer.host.dbPending (keptOf s) none := by
  have hback := h.pending
  rw [h.pendingOf_eq, Leads.append_iff] at hback
  obtain ⟨p, -, hback⟩ := hback
  show Leads _ (keptOf s).head? (keptOf s) none
  rw [← hback.eq_head]
  apply hback.congr
  intro k hk
  rw [AsyncHost.nextOf, h.rang_kept hk]
  rfl

/-- The ring is not touched by a doorbell. -/
theorem rang_ring (h : BellInv s) {l : List QhId}
    (hring : Ringed (toRing s) l) :
    Ringed (toRing (rangBell junk s)) l := by
  have hl : ∀ q ∈ l, q ∈ s.linked := fun q => hring.perm.mem_iff.1
  have hqh : ∀ q ∈ l, (toRing (rangBell junk s)).host.qhns q
      = s.xfer.host.qhns q := fun q hq => h.rang_linked (hl q hq)
  refine hring.frame h.running rfl rfl hqh ?_ ?_ ?_
  · show Leads _ _ (pendingOf (rangBell junk s)) none
    rw [pendingOf_rang]
    exact h.rang_pending
  · intro q hq hmem
    have hq : q ∈ pendingOf (rangBell junk s) := hq
    rw [pendingOf_rang] at hq
    exact (h.linked_apart (hl q hmem)).2 hq
  · intro q hq
    unfold HasTds
    rw [hqh q hq]
    have hever : q ∈ everOf s := List.mem_append_left _ (hl q hq)
    have hsame : ∀ t ∈ s.tds q,
        (rangBell junk s).xfer.host.tdns t = s.xfer.host.tdns t :=
      fun t ht => h.rang_tdns hever (h.linked_apart (hl q hq)).1 ht
    obtain ⟨hleads, hmapped⟩ := hring.tds q hq
    refine ⟨hleads.congr fun t ht => congrArg TDn.next (hsame t ht), ?_⟩
    intro t ht
    exact (congrArg TDn.td (hsame t ht)).trans (hmapped t ht)

/-- The handler keeps the invariant. -/
theorem rang (h : BellInv s) : BellInv (rangBell junk s) := by
  constructor
  · exact h.running
  · exact h.ring.imp id fun ⟨l, hring⟩ => ⟨l, h.rang_ring hring⟩
  · rw [everOf_rang]
    exact h.distinct
  · rw [pendingOf_rang]
    exact h.rang_pending
  · apply List.pairwise_map.2
    apply h.sorted.imp
    exact fun hle => Nat.succ_le_succ hle
  · intro c hc hn
    obtain ⟨c', hc', rfl⟩ := List.mem_map.1 hc
    have hzero : c'.2 = 0 := by
      simp only at hn
      omega
    have hk : c'.1 ∈ keptOf s :=
      List.mem_map.2 ⟨c', List.mem_filter.2 ⟨hc', decide_eq_true hzero⟩,
        rfl⟩
    rw [h.rang_kept hk]
    exact congrArg (· + 1) (h.counts c' hc' (by omega))
  · intro k hk
    rw [pendingOf_rang] at hk
    rw [h.rang_kept hk]
    apply (h.tds k (h.mem_pending hk)).congr
    intro t ht
    refine congrArg TDn.next ?_
    exact h.rang_tdns (pendingOf_sub (h.mem_pending hk))
      (h.kept_not_due hk) ht
  · rw [everOf_rang]
    exact h.apart
  · show s.xfer.destroyed ++ dueOf s = _
    rw [← h.destroyed_eq]
    refine (counted_rang (fun n => 2 ≤ n) (fun n => 1 ≤ n) fun n => ?_).symm
    rw [decide_eq_decide]
    omega
  · nofun

end BellInv

-- ================================================================= runs

/-- What a step can be. -/
theorem bellStep_cases {op : BellOp} (h : BellInv s)
    (hstep : bellStep s op = some s') :
    (∃ q, op = .add q ∧ Addable s q ∧ { s with
        xfer := { s.xfer with host := ehciAddQhnAsync s.xfer.host q }
        linked := q :: s.linked } = s')
      ∨ (∃ q host, op = .del q ∧ q ∈ s.linked
        ∧ ehciDelQhnAsync (bellFuel s) s.xfer.host q = .ok host
        ∧ { s with
          xfer := { s.xfer with host := host }
          linked := s.linked.erase q
          cancelled := s.cancelled ++ [(q, 0)] } = s')
      ∨ (op = .answer ∧ { s with
        xfer := { s.xfer with host := { s.xfer.host with
          usbcmd := s.xfer.host.usbcmd &&& ~~~mask ehcicmdAsyncDb } }
        answered := true } = s')
      ∨ ∃ junk, op = .doorbell junk ∧ s.answered = true
        ∧ rangBell junk s = s' := by
  cases op with
  | add q =>
      simp only [bellStep] at hstep
      split_ifs at hstep with hc
      exact .inl ⟨q, rfl, hc.2, Option.some.inj hstep⟩
  | del q =>
      simp only [bellStep] at hstep
      split_ifs at hstep with hc
      obtain ⟨host, hdel, -⟩ := h.del hc.2
      simp only [hdel, Except.map, bellOutcome, Option.some.injEq] at hstep
      exact .inr (.inl ⟨q, host, rfl, hc.2, hdel, hstep⟩)
  | answer =>
      simp only [bellStep] at hstep
      split_ifs at hstep with hc
      exact .inr (.inr (.inl ⟨rfl, Option.some.inj hstep⟩))
  | doorbell junk =>
      simp only [bellStep] at hstep
      split_ifs at hstep with hc
      simp only [h.doorbell junk, bellOutcome, Option.some.injEq] at hstep
      exact .inr (.inr (.inr ⟨junk, rfl, hc.2, hstep⟩))

theorem BellInv.step {op : BellOp} (h : BellInv s)
    (hstep : bellStep s op = some s') : BellInv s' := by
  obtain ⟨q, -, hq, rfl⟩ | ⟨q, host, -, hq, hdel, rfl⟩ | ⟨-, rfl⟩
      | ⟨junk, -, -, rfl⟩ := bellStep_cases h hstep
  · exact h.add hq
  · obtain ⟨host', hdel', hinv⟩ := h.del hq
    rw [hdel] at hdel'
    cases hdel'
    exact hinv
  · exact h.answer
  · exact h.rang

/-- After the handler the doorbell is rung exactly if one still waits. -/
theorem BellInv.rings (h : BellInv s) (hans : s.answered = true) :
    isRung (rangBell junk s).xfer.host = true
      ↔ pendingOf (rangBell junk s) ≠ [] := by
  rw [pendingOf_rang]
  unfold isRung rangBell AsyncHost.afterBell
  by_cases hkept : keptOf s = []
  · simp only [hkept, if_true, ne_eq, not_true, iff_false]
    intro hrung
    exact h.fresh hans hrung hkept
  · simp only [hkept, if_false, ne_eq, not_false_eq_true, iff_true]
    rw [testBit_or_mask _ (by decide)]
    simp

/-- What the invariant says about the memory: freed once, at the second
doorbell. -/
theorem BellInv.recycled (h : BellInv s) : RecycledOnce s where
  running := h.running
  distinct := (List.nodup_append.1 h.distinct).2.1
  destroyed := h.destroyed
  pending := h.pending
  apart := by
    intro q hq hmem
    obtain ⟨n, hn, hc⟩ := mem_pendingOf.1 hq
    rw [h.destroyed] at hmem
    obtain ⟨c, hc', rfl⟩ := List.mem_map.1 hmem
    obtain ⟨hc', hle⟩ := List.mem_filter.1 hc'
    have hle := of_decide_eq_true hle
    have hnd := (List.nodup_append.1 h.distinct).2.1
    have heq := List.inj_on_of_nodup_map hnd hc hc' rfl
    rw [← heq] at hle
    exact absurd hn (Nat.not_lt.2 hle)
  rings := by
    intro junk s' hstep
    obtain ⟨q, hop, -⟩ | ⟨q, host, hop, -⟩ | ⟨hop, -⟩
      | ⟨junk', -, hans, rfl⟩ := bellStep_cases h hstep
    · cases hop
    · cases hop
    · cases hop
    · exact h.rings hans

theorem BellInit.inv (h : BellInit s) : BellInv s := by
  have hpending : pendingOf s = [] := by
    unfold pendingOf
    rw [h.cancelled]
    rfl
  have hever : everOf s = [] := by
    unfold everOf
    rw [h.linked, h.cancelled]
    rfl
  constructor
  · exact h.crashed
  · exact .inl h.linked
  · rw [hever]
    exact List.nodup_nil
  · rw [hpending]
    exact h.dbPending
  · rw [h.cancelled]
    exact List.Pairwise.nil
  · rw [h.cancelled]
    nofun
  · rw [hpending]
    nofun
  · rw [hever]
    nofun
  · rw [h.destroyed, h.cancelled]
    rfl
  · rw [h.answered]
    nofun

/-- Every queue head that is removed is destroyed once, by the second call
of `check_doorbell` after that, in every order of additions, removals,
answers and calls. -/
theorem recycled_once (h : Reachable BellInit bellStep anyStep s) :
    RecycledOnce s := by
  have hinv : BellInv s := by
    apply Reachable.invariant _ _ h
    · exact fun _ hinit => hinit.inv
    · exact fun _ _ _ hinv _ hstep => hinv.step hstep
  exact hinv.recycled

/-- A host with no queue heads in the ring, each to be added with one
descriptor. -/
def emptyBell : BellHost where
  xfer := {
    host := { emptyRing.host with
      qhns := fun q => { emptyRing.host.qhns q with tdns := some (q + 10) } }
    log := []
    destroyed := [] }
  linked := []
  cancelled := []
  tds := fun q => [q + 10]
  answered := false
  crashed := false

theorem emptyBell_init : BellInit emptyBell :=
  ⟨rfl, rfl, rfl, rfl, rfl, rfl, rfl⟩

/-- Memory that is freed and holds zeros. -/
def zeroJunk : Junk where
  td := fun _ => ⟨false, 0, 0, 0, none, none⟩
  qh := fun _ => {
    pqh := 0
    qhlptr := 0
    epc0 := 0
    tdCur := 0
    overlayNext := 0
    tdns := none
    rate := 0
    wasCancelled := 0
    next := none }

/-- Two removals, with a call between them and one after both. -/
theorem recycled_once_sample :
    ∃ s, run bellStep emptyBell [.add 1, .add 2, .add 3, .del 1, .answer,
        .doorbell zeroJunk, .del 2, .answer, .doorbell zeroJunk] = some s
      ∧ s.xfer.destroyed = [1] ∧ pendingOf s = [2] ∧ RecycledOnce s := by
  have hany : (run bellStep emptyBell [.add 1, .add 2, .add 3, .del 1,
      .answer, .doorbell zeroJunk, .del 2, .answer,
      .doorbell zeroJunk]).any (fun s => decide
        (s.xfer.destroyed = [1] ∧ pendingOf s = [2])) = true := by
    decide +kernel
  obtain ⟨s, hrun, hbool⟩ := (Option.any_eq_true ..).1 hany
  obtain ⟨hdestroyed, hpending⟩ := of_decide_eq_true hbool
  have hreach : Reachable BellInit bellStep anyStep s :=
    (Reachable.init emptyBell_init).run hrun
  exact ⟨s, hrun, hdestroyed, hpending, recycled_once hreach⟩

end ProjectsLibs.Ehci
