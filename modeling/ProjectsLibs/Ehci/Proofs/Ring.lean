/-
The ring of the asynchronous schedule is exact as long as no queue head is
removed that is the only one.

A ring may be cut at any of its queue heads. An addition is an edit behind
`alist_tail`, and a removal one behind the queue head in front of the one
that is removed. `Ringed` has what the calls keep: the ring, the link
words that mirror it, and the list `db_pending` apart from it.

When the only queue head is removed, `alist_tail` is set to its link,
which leads to itself (`del_only`).

# The shape of the proofs

The links of a ring are a chain from its tail to its tail, and the lemmas
of Lib/Chain say what becomes of a chain when a cell is put in or taken
out. A call of the driver is brought into the form of
such an edit, in the software links and in the link words, and what else
it writes is listed: the H-bit, the descriptors that are halted, the list
of what was removed.

With two or more queue heads a removal is an edit behind the one in
front. With one it is not: its link leads to itself, and the driver takes
it for the next. Both directions over runs come from one lemma each, a
step that meets the condition keeps the ring and one that does not breaks
it.
-/
import Mathlib.Data.List.TakeWhile
import ProjectsLibs.Ehci.Async

namespace ProjectsLibs.Ehci

open Lib

variable {s s' : AsyncHost} {q : QhId} {l : List QhId}

-- ========================================================== descriptors

@[simp] theorem TDn.halt_next (tdn : TDn) : tdn.halt.next = tdn.next := by
  unfold TDn.halt
  split
  · rfl
  · rfl

@[simp] theorem TDn.halt_td (tdn : TDn) : tdn.halt.td = tdn.td := by
  unfold TDn.halt
  split
  · rfl
  · rfl

/-- A descriptor that is halted is not active. -/
theorem TDn.halt_inactive (tdn : TDn) :
    ¬tdn.halt.token &&& mask tdtokSactive ≠ 0 := by
  have hlt : tdtokSactive < 32 := by decide
  rw [and_mask_iff _ hlt]
  unfold TDn.halt
  split
  · show ¬testBit (tdn.token &&& ~~~mask tdtokSactive
      ||| mask tdtokShalted) tdtokSactive = true
    rw [testBit_or_mask _ (by decide), testBit_and_not_mask _ hlt hlt]
    simp [tdtokSactive, tdtokShalted]
  · next h =>
      rw [and_mask_iff _ hlt] at h
      exact h

theorem TDn.halt_halt (tdn : TDn) : tdn.halt.halt = tdn.halt := by
  rw [TDn.halt.eq_def tdn.halt, if_neg tdn.halt_inactive]

/-- The loop over the descriptors ends, and halts descriptors only. -/
theorem haltTds_eq {tdns : TdId → TDn} {p : Option TdId} {tds : List TdId}
    (h : Leads (fun t => (tdns t).next) p tds none) (hm : Mapped tdns tds)
    {fuel : Nat} (hfuel : tds.length ≤ fuel) :
    ∃ tdns', haltTds fuel p tdns = .ok tdns'
      ∧ ∀ t, tdns' t = tdns t ∨ tdns' t = (tdns t).halt := by
  induction tds generalizing p fuel tdns with
  | nil =>
      have hp : p = none := h
      refine ⟨tdns, ?_, fun _ => .inl rfl⟩
      rw [hp]
      unfold haltTds
      rfl
  | cons x tds ih =>
      obtain ⟨hp, hrest⟩ := h
      cases fuel with
      | zero => cases hfuel
      | succ fuel =>
          have hnext : ∀ t, (Function.update tdns x (tdns x).halt t).next
              = (tdns t).next := by
            intro t
            by_cases ht : t = x
            · subst ht
              simp
            · simp [ht]
          have htd : (tdns x).td = true := hm x (List.mem_cons_self ..)
          have hm' : Mapped (Function.update tdns x (tdns x).halt) tds := by
            intro t ht
            by_cases htx : t = x
            · rw [htx, Function.update_self, TDn.halt_td, htd]
            · rw [Function.update_of_ne htx]
              exact hm t (List.mem_cons_of_mem _ ht)
          obtain ⟨tdns', hrun, hhalt⟩ := ih
            (hrest.congr fun t _ => hnext t) hm'
            (Nat.le_of_succ_le_succ hfuel)
          refine ⟨tdns', ?_, fun t => ?_⟩
          · rw [hp, haltTds, if_neg (by rw [htd]; decide)]
            exact hrun
          · have ht := hhalt t
            by_cases htx : t = x
            · subst htx
              rw [Function.update_self, TDn.halt_halt, or_self] at ht
              exact .inr ht
            · rw [Function.update_of_ne htx] at ht
              exact ht

-- ========================================================= what is kept

/-- The fields of the queue heads that the schedule only reads. -/
structure SameHeads (s s' : AsyncHost) : Prop where
  pqh : ∀ q, (s'.qhns q).pqh = (s.qhns q).pqh
  tdns : ∀ q, (s'.qhns q).tdns = (s.qhns q).tdns
  count : ∀ q, (s'.qhns q).wasCancelled = (s.qhns q).wasCancelled

/-- A write that leaves the address alone does so for all queue heads. -/
theorem AsyncHost.setQh_pqh {f : QHn → QHn} (hf : ∀ x, (f x).pqh = x.pqh)
    (m : QhId) : ((s.setQh q f).qhns m).pqh = (s.qhns m).pqh := by
  by_cases hm : m = q
  · subst hm
    simp [hf]
  · simp [hm]

theorem AsyncHost.setQh_tds {f : QHn → QHn} (hf : ∀ x, (f x).tdns = x.tdns)
    (m : QhId) : ((s.setQh q f).qhns m).tdns = (s.qhns m).tdns := by
  by_cases hm : m = q
  · subst hm
    simp [hf]
  · simp [hm]

theorem AsyncHost.setQh_count {f : QHn → QHn}
    (hf : ∀ x, (f x).wasCancelled = x.wasCancelled) (m : QhId) :
    ((s.setQh q f).qhns m).wasCancelled = (s.qhns m).wasCancelled := by
  by_cases hm : m = q
  · subst hm
    simp [hf]
  · simp [hm]

theorem SameHeads.refl (s : AsyncHost) : SameHeads s s :=
  ⟨fun _ => rfl, fun _ => rfl, fun _ => rfl⟩

/-- The word that points to a queue head is the same if its address is. -/
theorem SameHeads.qhLink_eq (h : SameHeads s s') (n : QhId) :
    qhLink (s'.qhns n) = qhLink (s.qhns n) := by
  unfold qhLink
  rw [h.pqh n]

-- ============================================================= the calls

/-- What an addition leaves. -/
theorem add_keeps (s : AsyncHost) (q : QhId) :
    SameHeads s (ehciAddQhnAsync s q)
      ∧ (ehciAddQhnAsync s q).tdns = s.tdns
      ∧ (ehciAddQhnAsync s q).dbPending = s.dbPending
      ∧ (ehciAddQhnAsync s q).usbcmd = s.usbcmd
      ∧ (ehciAddQhnAsync s q).alistTail = some q := by
  unfold ehciAddQhnAsync
  cases htail : s.alistTail with
  | none =>
      refine ⟨⟨fun m => ?_, fun m => ?_, fun m => ?_⟩, rfl, rfl, rfl,
        rfl⟩
      · simp [AsyncHost.setQh_pqh]
      · simp [AsyncHost.setQh_tds]
      · simp [AsyncHost.setQh_count]
  | some t =>
      refine ⟨⟨fun m => ?_, fun m => ?_, fun m => ?_⟩, rfl, rfl, rfl,
        rfl⟩
      · simp [AsyncHost.setQh_pqh]
      · simp [AsyncHost.setQh_tds]
      · simp [AsyncHost.setQh_count]

/-- What an addition to a ring does. -/
theorem add_eq {t : QhId} (htail : s.alistTail = some t) (hne : t ≠ q) :
    (ehciAddQhnAsync s q).nextOf t = some q
      ∧ (ehciAddQhnAsync s q).nextOf q = s.nextOf t
      ∧ ((ehciAddQhnAsync s q).qhns t).qhlptr = qhLink (s.qhns q)
      ∧ ((ehciAddQhnAsync s q).qhns q).qhlptr = (s.qhns t).qhlptr
      ∧ ∀ m, m ≠ t → m ≠ q →
        (ehciAddQhnAsync s q).qhns m = s.qhns m := by
  unfold ehciAddQhnAsync
  rw [htail]
  simp +contextual [AsyncHost.nextOf, hne, hne.symm, qhLink]

/-- What the first addition does. -/
theorem add_first (htail : s.alistTail = none) :
    (ehciAddQhnAsync s q).nextOf q = some q
      ∧ ((ehciAddQhnAsync s q).qhns q).qhlptr = qhLink (s.qhns q)
      ∧ ∀ m, m ≠ q → (ehciAddQhnAsync s q).qhns m = s.qhns m := by
  unfold ehciAddQhnAsync
  rw [htail]
  simp +contextual [AsyncHost.nextOf, qhLink]

/-- What the change of the H-bit leaves. -/
theorem moveHBit_eq (s : AsyncHost) (q : QhId) :
    SameHeads s (moveHBit s q) ∧ (moveHBit s q).tdns = s.tdns
      ∧ (moveHBit s q).alistTail = s.alistTail
      ∧ (moveHBit s q).dbPending = s.dbPending
      ∧ (moveHBit s q).nextOf = s.nextOf
      ∧ ∀ m, ((moveHBit s q).qhns m).qhlptr = (s.qhns m).qhlptr := by
  unfold moveHBit
  split
  · cases hn : s.nextOf q with
    | none => exact ⟨SameHeads.refl s, rfl, rfl, rfl, rfl,
        fun _ => rfl⟩
    | some n =>
        refine ⟨⟨fun m => ?_, fun m => ?_, fun m => ?_⟩, rfl, rfl, rfl,
          ?_, fun m => ?_⟩
        · simp [AsyncHost.setQh_pqh]
        · simp [AsyncHost.setQh_tds]
        · simp [AsyncHost.setQh_count]
        · funext m
          unfold AsyncHost.nextOf
          by_cases hm : m = n
          · subst hm
            simp
          · simp [hm]
        · by_cases hm : m = n
          · subst hm
            simp
          · simp [hm]
  · exact ⟨SameHeads.refl s, rfl, rfl, rfl, rfl, fun _ => rfl⟩

/-- The edit that takes `q` out behind `p`. -/
theorem unlinkAsync_eq {t p : QhId} {fuel : Nat}
    (htail : s.alistTail = some t)
    (hwalk : walkWhile s.nextOf (fun m => m ≠ q) fuel t = some p)
    (hp : s.nextOf p = some q) :
    ∃ s', unlinkAsync fuel s q = .ok s' ∧ SameHeads s s'
      ∧ s'.tdns = s.tdns
      ∧ s'.alistTail = (if t = q then s.nextOf q else some t)
      ∧ s'.dbPending = s.dbPending ∧ s'.nextOf p = s.nextOf q
      ∧ (s'.qhns p).qhlptr = (s.qhns q).qhlptr
      ∧ ∀ m, m ≠ p → s'.qhns m = s.qhns m := by
  have hsome : ¬s.nextOf p = none := by
    rw [hp]
    exact nofun
  unfold unlinkAsync
  simp only [htail, hwalk, hsome, if_false]
  have hnext : (s.setQh p fun qhn => { qhn with
      qhlptr := (s.qhns q).qhlptr }).nextOf q = s.nextOf q := by
    unfold AsyncHost.nextOf
    by_cases hqp : q = p
    · subst hqp
      simp
    · simp [hqp]
  rw [hnext]
  by_cases htq : t = q
  · simp only [AsyncHost.setQh_alistTail, htail, if_true, htq]
    refine ⟨_, rfl, ⟨fun m => ?_, fun m => ?_, fun m => ?_⟩, rfl, ?_, rfl,
      ?_⟩
    · simp [AsyncHost.setQh_pqh]
    · simp [AsyncHost.setQh_tds]
    · simp [AsyncHost.setQh_count]
    · by_cases hqp : q = p
      · subst hqp
        simp [AsyncHost.nextOf]
      · simp [AsyncHost.nextOf, hqp]
    · simp +contextual [AsyncHost.nextOf]
  · simp only [AsyncHost.setQh_alistTail, htail, Option.some.injEq, htq,
      if_false]
    refine ⟨_, rfl, ⟨fun m => ?_, fun m => ?_, fun m => ?_⟩, rfl, htail,
      rfl, ?_⟩
    · simp [AsyncHost.setQh_pqh]
    · simp [AsyncHost.setQh_tds]
    · simp [AsyncHost.setQh_count]
    · simp +contextual [AsyncHost.nextOf]

/-- The end of `db_pending`. -/
theorem appendPending_eq {r : List QhId}
    (h : Leads s.nextOf s.dbPending r none) (hq : q ∉ r) {fuel : Nat}
    (hfuel : r.length ≤ fuel) :
    ∃ s', appendPending fuel s q = .ok s' ∧ SameHeads s s'
      ∧ s'.tdns = s.tdns ∧ s'.alistTail = s.alistTail
      ∧ Leads s'.nextOf s'.dbPending r (some q)
      ∧ ∀ m, m ∉ r → s'.qhns m = s.qhns m := by
  unfold appendPending
  cases r with
  | nil =>
      have hnone : s.dbPending = none := h
      rw [hnone]
      exact ⟨_, rfl, ⟨fun _ => rfl, fun _ => rfl, fun _ => rfl⟩, rfl, rfl,
        rfl, fun _ _ => rfl⟩
  | cons x r =>
      have hnd := h.nodup
      obtain ⟨hfirst, hrest⟩ := h
      obtain ⟨r₁, y, hwalk, heq⟩ := hrest.walkWhile_eq
        (c := fun _ => true) hfuel
      rw [List.takeWhile_eq_self_iff.2 (fun _ _ => rfl)] at heq
      simp only [hfirst, hwalk]
      refine ⟨_, rfl, ⟨fun m => ?_, fun m => ?_, fun m => ?_⟩, rfl, rfl,
        ?_, ?_⟩
      · simp [AsyncHost.setQh_pqh]
      · simp [AsyncHost.setQh_tds]
      · simp [AsyncHost.setQh_count]
      · show Leads _ s.dbPending (x :: r) (some q)
        rw [← heq]
        rw [← heq] at hnd
        have hold : Leads s.nextOf s.dbPending (r₁ ++ [y]) none := by
          rw [heq]
          exact ⟨hfirst, hrest⟩
        apply hold.relink
        · intro m hm
          have hmy : m ≠ y := by
            rintro rfl
            have hdisj := (List.nodup_append.1 hnd).2.2
            exact hdisj m hm m (List.mem_singleton.2 rfl) rfl
          simp [AsyncHost.nextOf, hmy]
        · simp [AsyncHost.nextOf]
      · intro m hm
        have hmy : m ≠ y := by
          rintro rfl
          apply hm
          rw [← heq]
          simp
        simp [hmy]

-- ============================================================ the ring

/-- The ring `l`, its link words, and the list of what was removed. -/
structure Ringed (s : RingHost) (l : List QhId) : Prop where
  running : s.crashed = false
  ring : IsRing s.host.nextOf l
  perm : l.Perm s.linked
  nodup : l.Nodup
  tail : s.host.alistTail = none → l = []
  tail_mem : ∀ t, s.host.alistTail = some t → t ∈ l
  links : ∀ q ∈ l, ∃ n, s.host.nextOf q = some n
    ∧ (s.host.qhns q).qhlptr = qhLink (s.host.qhns n)
  pending : Leads s.host.nextOf s.host.dbPending s.removed none
  apart : ∀ q ∈ s.removed, q ∉ l
  tds : ∀ q ∈ l, HasTds s q

variable {r r' : RingHost}

/-- What is reached from `alist_tail` is in the ring. -/
theorem Ringed.reaches (h : Ringed r l) (hq : Reaches r.host q) : q ∈ l := by
  induction hq with
  | tail ht => exact h.tail_mem _ ht
  | next _ hnext ih => exact h.ring.next_mem ih hnext

/-- A ring that is known as a list is what the driver's links say. -/
theorem Ringed.exact (h : Ringed r l) : RingExact r := by
  refine ⟨h.running, ?_, ?_, ?_, ?_⟩
  · constructor
    · intro hnone
      have hperm := h.perm
      rw [h.tail hnone] at hperm
      exact hperm.nil_eq.symm
    · intro hnil
      cases htail : r.host.alistTail with
      | none => rfl
      | some t =>
          have hmem := h.perm.mem_iff.1 (h.tail_mem t htail)
          rw [hnil] at hmem
          cases hmem
  · intro t ht
    obtain ⟨l', hring, hperm⟩ := h.ring.cut (h.tail_mem t ht)
    refine ⟨l', hring.leads, hperm.nodup_iff.2 h.nodup, ?_⟩
    exact fun q => (hperm.trans h.perm).mem_iff
  · exact fun q hq => h.links q (h.perm.mem_iff.2 hq)
  · exact fun q hq hreach => h.apart q hq (h.reaches hreach)

/-- The ring cut at another place. -/
theorem Ringed.cut (h : Ringed r l) {l' : List QhId}
    (hring : IsRing r.host.nextOf l') (hperm : l'.Perm l) : Ringed r l' where
  running := h.running
  ring := hring
  perm := hperm.trans h.perm
  nodup := hperm.nodup_iff.2 h.nodup
  tail hnone := by
    rw [h.tail hnone] at hperm
    exact hperm.eq_nil
  tail_mem t ht := hperm.mem_iff.2 (h.tail_mem t ht)
  links q hq := h.links q (hperm.mem_iff.1 hq)
  pending := h.pending
  apart q hq hmem := h.apart q hq (hperm.mem_iff.1 hmem)
  tds q hq := h.tds q (hperm.mem_iff.1 hq)

/-- The ring is not touched. -/
theorem Ringed.frame (h : Ringed r l) (hrun : r'.crashed = false)
    (hlinked : r'.linked = r.linked)
    (htail : r'.host.alistTail = r.host.alistTail)
    (hqh : ∀ q ∈ l, r'.host.qhns q = r.host.qhns q)
    (hpending : Leads r'.host.nextOf r'.host.dbPending r'.removed none)
    (hapart : ∀ q ∈ r'.removed, q ∉ l) (htds : ∀ q ∈ l, HasTds r' q) :
    Ringed r' l where
  running := hrun
  ring := Leads.congr h.ring fun q hq => congrArg QHn.next (hqh q hq)
  perm := hlinked ▸ h.perm
  nodup := h.nodup
  tail := htail ▸ h.tail
  tail_mem := htail ▸ h.tail_mem
  links q hq := by
    obtain ⟨n, hn, hlink⟩ := h.links q hq
    refine ⟨n, ?_, ?_⟩
    · exact (congrArg QHn.next (hqh q hq)).trans hn
    · rw [hqh q hq, hqh n (h.ring.next_mem hq hn)]
      exact hlink
  pending := hpending
  apart := hapart
  tds := htds

/-- The descriptors of a queue head are those that it was given, if the
links are kept. -/
theorem HasTds.congr (h : HasTds r q)
    (hnext : ∀ t, r'.host.nextTd t = r.host.nextTd t)
    (htd : ∀ t, (r'.host.tdns t).td = (r.host.tdns t).td)
    (hfirst : (r'.host.qhns q).tdns = (r.host.qhns q).tdns)
    (htds : r'.tds = r.tds) : HasTds r' q := by
  unfold HasTds
  rw [hfirst, htds]
  exact ⟨h.1.congr fun t _ => hnext t,
    fun t ht => (htd t).trans (h.2 t ht)⟩

/-- The first queue head is added. -/
theorem Ringed.add_first (h : Ringed r []) (htail : r.host.alistTail = none)
    (hrem : q ∉ r.removed) (htds : HasTds r q) :
    Ringed { r with
      host := ehciAddQhnAsync r.host q
      linked := q :: r.linked } [q] := by
  obtain ⟨hsame, htd, hdb, -, htail'⟩ := add_keeps r.host q
  obtain ⟨hnext, hlink, hrest⟩ := Ehci.add_first (q := q) htail
  constructor
  · exact h.running
  · exact ⟨rfl, hnext⟩
  · exact h.perm.cons q
  · exact List.nodup_singleton q
  · intro hnone
    rw [htail'] at hnone
    cases hnone
  · intro t ht
    rw [htail'] at ht
    cases ht
    exact List.mem_singleton.2 rfl
  · intro m hm
    rw [List.mem_singleton.1 hm]
    exact ⟨q, hnext, hlink.trans (hsame.qhLink_eq q).symm⟩
  · rw [hdb]
    apply h.pending.congr
    intro m hm
    have hmq : m ≠ q := fun he => hrem (he ▸ hm)
    show ((ehciAddQhnAsync r.host q).qhns m).next = (r.host.qhns m).next
    rw [hrest m hmq]
  · intro m hm hmem
    rw [List.mem_singleton.1 hmem] at hm
    exact hrem hm
  · intro m hm
    rw [List.mem_singleton.1 hm]
    apply htds.congr
    · intro t
      unfold AsyncHost.nextTd
      rw [htd]
    · intro t
      rw [htd]
    · exact hsame.tdns q
    · rfl

/-- A queue head is added behind `alist_tail`. -/
theorem Ringed.add_behind {t : QhId} (h : Ringed r (t :: l))
    (htail : r.host.alistTail = some t) (hq : q ∉ t :: l)
    (hrem : q ∉ r.removed) (htds : HasTds r q) :
    Ringed { r with
      host := ehciAddQhnAsync r.host q
      linked := q :: r.linked } (t :: q :: l) := by
  have hne : t ≠ q := fun he => hq (he ▸ List.mem_cons_self ..)
  obtain ⟨hsame, htd, hdb, -, htail'⟩ := add_keeps r.host q
  obtain ⟨hnt, hnq, hlt, hlq, hrest⟩ := add_eq htail hne
  obtain ⟨htl, hnd⟩ := List.nodup_cons.1 h.nodup
  have hkeep : ∀ m, m ∉ t :: q :: l →
      (ehciAddQhnAsync r.host q).qhns m = r.host.qhns m := by
    intro m hm
    simp only [List.mem_cons, not_or] at hm
    exact hrest m hm.1 hm.2.1
  have hkeep' : ∀ m ∈ l,
      (ehciAddQhnAsync r.host q).qhns m = r.host.qhns m := by
    intro m hm
    apply hrest m
    · exact fun he => htl (he ▸ hm)
    · exact fun he => hq (List.mem_cons_of_mem t (he ▸ hm))
  -- what was removed is still not in the ring
  have happart : ∀ m ∈ r.removed, m ∉ t :: q :: l := by
    intro m hm hmem
    have hnot := h.apart m hm
    simp only [List.mem_cons] at hmem hnot
    rcases hmem with hmt | rfl | hml
    · exact hnot (.inl hmt)
    · exact hrem hm
    · exact hnot (.inr hml)
  constructor
  · exact h.running
  · apply h.ring.insert _ hnt hnq
    intro m hm
    unfold AsyncHost.nextOf
    rw [hkeep' m hm]
  · exact (List.Perm.swap q t l).trans (h.perm.cons q)
  · have hnd' : (q :: t :: l).Nodup := List.nodup_cons.2 ⟨hq, h.nodup⟩
    exact (List.Perm.swap q t l).nodup_iff.2 hnd'
  · intro hnone
    rw [htail'] at hnone
    cases hnone
  · intro t' ht
    rw [htail'] at ht
    cases ht
    simp
  · intro m hm
    simp only [hsame.qhLink_eq]
    rcases List.mem_cons.1 hm with rfl | hm
    · exact ⟨q, hnt, hlt⟩
    · rcases List.mem_cons.1 hm with rfl | hm
      · rw [hnq, hlq]
        exact h.links t (List.mem_cons_self ..)
      · unfold AsyncHost.nextOf
        rw [hkeep' m hm]
        exact h.links m (List.mem_cons_of_mem t hm)
  · rw [hdb]
    apply h.pending.congr
    intro m hm
    unfold AsyncHost.nextOf
    rw [hkeep m (happart m hm)]
  · exact happart
  · intro m hm
    have hold : HasTds r m := by
      rcases List.mem_cons.1 hm with rfl | hm
      · exact h.tds m (List.mem_cons_self ..)
      · rcases List.mem_cons.1 hm with rfl | hm
        · exact htds
        · exact h.tds m (List.mem_cons_of_mem t hm)
    apply hold.congr
    · intro t
      unfold AsyncHost.nextTd
      rw [htd]
    · intro t
      rw [htd]
    · exact hsame.tdns m
    · rfl

/-- A queue head is added. -/
theorem Ringed.add (h : Ringed r l) (hq : q ∉ l) (hrem : q ∉ r.removed)
    (htds : HasTds r q) :
    ∃ l', Ringed { r with
      host := ehciAddQhnAsync r.host q
      linked := q :: r.linked } l' := by
  cases htail : r.host.alistTail with
  | none =>
      have hnil := h.tail htail
      subst hnil
      exact ⟨[q], h.add_first htail hrem htds⟩
  | some t =>
      obtain ⟨l', hring, hperm⟩ := h.ring.cut (h.tail_mem t htail)
      refine ⟨t :: q :: l',
        (h.cut hring hperm).add_behind htail ?_ hrem htds⟩
      exact fun hmem => hq (hperm.mem_iff.1 hmem)

/-- What a removal leaves, but for the ring and the list of what was
removed. -/
structure Removed (q : QhId) (s s' : AsyncHost) : Prop where
  pqh : ∀ m, (s'.qhns m).pqh = (s.qhns m).pqh
  first : ∀ m, (s'.qhns m).tdns = (s.qhns m).tdns
  tds : ∀ t, s'.tdns t = s.tdns t ∨ s'.tdns t = (s.tdns t).halt
  count : ∀ m, m ≠ q →
    (s'.qhns m).wasCancelled = (s.qhns m).wasCancelled
  counted : (s'.qhns q).wasCancelled = 1

/-- Removing a queue head halts its descriptors and keeps their links. -/
theorem Removed.nextTd (h : Removed q s s') (t : TdId) :
    s'.nextTd t = s.nextTd t := by
  unfold AsyncHost.nextTd
  rcases h.tds t with ht | ht
  · rw [ht]
  · rw [ht, TDn.halt_next]

theorem Removed.td (h : Removed q s s') (t : TdId) :
    (s'.tdns t).td = (s.tdns t).td := by
  rcases h.tds t with ht | ht
  · rw [ht]
  · rw [ht, TDn.halt_td]

/-- What a removal does, with `p` in front of the queue head. -/
theorem Ringed.del_eq (h : Ringed r l) (hq : q ∈ l) {t p : QhId} {fuel : Nat}
    (hfuel : ringFuel r q ≤ fuel)
    (htail : r.host.alistTail = some t) (hpl : p ∈ l)
    (hwalk : walkWhile r.host.nextOf (fun m => m ≠ q) fuel t = some p)
    (hp : r.host.nextOf p = some q) :
    ∃ s', ehciDelQhnAsync fuel r.host q = .ok s'
      ∧ Removed q r.host s'
      ∧ s'.alistTail = (if t = q then r.host.nextOf q else some t)
      ∧ Leads s'.nextOf s'.dbPending (r.removed ++ [q]) none
      ∧ (p ≠ q → s'.nextOf p = r.host.nextOf q
        ∧ (s'.qhns p).qhlptr = (r.host.qhns q).qhlptr)
      ∧ ∀ m ∈ l, m ≠ p → m ≠ q → s'.nextOf m = r.host.nextOf m
        ∧ (s'.qhns m).qhlptr = (r.host.qhns m).qhlptr := by
  have hqr : q ∉ r.removed := fun hmem => h.apart q hmem hq
  have hpr : p ∉ r.removed := fun hmem => h.apart p hmem hpl
  have hfuel : (r.tds q).length ≤ fuel ∧ r.removed.length ≤ fuel := by
    unfold ringFuel at hfuel
    omega
  -- the descriptors and the H-bit
  obtain ⟨tdns', hhalt, htds⟩ :=
    haltTds_eq (h.tds q hq).1 (h.tds q hq).2 hfuel.1
  obtain ⟨hsame₁, htd₁, htail₁, hdb₁, hnext₁, hlink₁⟩ :=
    moveHBit_eq { r.host with tdns := tdns' } q
  generalize hs₁ : moveHBit { r.host with tdns := tdns' } q = s₁ at *
  have hnext₁ : s₁.nextOf = r.host.nextOf := hnext₁
  -- the ring
  rw [← hnext₁] at hwalk hp
  obtain ⟨s₂, hunlink, hsame₂, htd₂, htail₂, hdb₂, hpn, hplink,
      hrest₂⟩ :=
    unlinkAsync_eq (htail₁.trans htail) hwalk hp
  -- the list of removed queue heads
  have hpending : Leads s₂.nextOf s₂.dbPending r.removed none := by
    rw [hdb₂, hdb₁]
    apply h.pending.congr
    intro m hm
    unfold AsyncHost.nextOf
    rw [hrest₂ m (fun he => hpr (he ▸ hm))]
    exact congrFun hnext₁ m
  obtain ⟨s₃, happend, hsame₃, htd₃, htail₃, hleads₃, hrest₃⟩ :=
    appendPending_eq hpending hqr hfuel.2
  unfold ehciDelQhnAsync
  simp only [hhalt, hs₁, hunlink, happend, Bind.bind, Except.bind]
  have hqnext : s₂.nextOf q = s₁.nextOf q := by
    by_cases hpq : p = q
    · rw [← hpq, hpn, hpq]
    · unfold AsyncHost.nextOf
      rw [hrest₂ q (Ne.symm hpq)]
  refine ⟨_, rfl, ⟨fun m => ?_, fun m => ?_, fun x => ?_, fun m hm => ?_,
    ?_⟩, ?_, ?_, ?_, ?_⟩
  · simp only [AsyncHost.setQh_pqh, implies_true]
    rw [hsame₃.pqh, hsame₂.pqh, hsame₁.pqh]
  · simp only [AsyncHost.setQh_tds, implies_true]
    rw [hsame₃.tdns, hsame₂.tdns, hsame₁.tdns]
  · show s₃.tdns x = _ ∨ s₃.tdns x = _
    rw [htd₃, htd₂, htd₁]
    exact htds x
  · simp only [AsyncHost.setQh_ne _ _ _ hm]
    rw [hsame₃.count, hsame₂.count, hsame₁.count]
  · simp
  · show s₃.alistTail = _
    rw [htail₃, htail₂, hnext₁]
  · have hlast : Leads s₃.nextOf s₃.dbPending r.removed (some q) :=
      hleads₃
    rw [Leads.concat_iff]
    constructor
    · apply hlast.congr
      intro m hm
      have hmq : m ≠ q := fun he => hqr (he ▸ hm)
      simp [AsyncHost.nextOf, hmq]
    · simp [AsyncHost.nextOf]
  · intro hpq
    have hp₃ := hrest₃ p hpr
    constructor
    · rw [← hnext₁, ← hpn]
      simp [AsyncHost.nextOf, hpq, hp₃]
    · simp [hpq, hp₃, hplink, hlink₁]
  · intro m hm hmp hmq
    have hm₃ := hrest₃ m (fun hmem => h.apart m hmem hm)
    have hm₂ := hrest₂ m hmp
    constructor
    · rw [← hnext₁]
      simp [AsyncHost.nextOf, hmq, hm₃, hm₂]
    · simp [hmq, hm₃, hm₂, hlink₁]

/-- A queue head is removed that is not the only one. -/
theorem Ringed.del (h : Ringed r l) (hq : q ∈ l)
    (hother : ∃ m ∈ l, m ≠ q) {fuel : Nat}
    (hfuel : ringFuel r q ≤ fuel) :
    ∃ s' l', ehciDelQhnAsync fuel r.host q = .ok s' ∧ Removed q r.host s'
      ∧ Ringed { r with
        host := s'
        linked := r.linked.erase q
        removed := r.removed ++ [q] } l' := by
  obtain ⟨t, htail⟩ : ∃ t, r.host.alistTail = some t := by
    cases htail : r.host.alistTail with
    | none =>
        rw [h.tail htail] at hq
        cases hq
    | some t => exact ⟨t, rfl⟩
  have hlen : l.length ≤ fuel := by
    unfold ringFuel at hfuel
    rw [h.perm.length_eq]
    omega
  -- the walk stops at the queue head in front; turn the ring so that it
  -- begins there
  obtain ⟨p, l', hwalk, hring, hperm⟩ := h.ring.walkWhile_to h.nodup
    (h.tail_mem t htail) hq hother hlen
  have h := h.cut hring hperm
  have hpn : r.host.nextOf p = some q := hring.leads.2.1
  obtain ⟨s', hdel, hremoved, htail', hpending, hpq, hrest⟩ :=
    h.del_eq (by simp) hfuel htail (by simp) hwalk hpn
  have hnd := h.nodup
  simp only [List.nodup_cons, List.mem_cons, not_or] at hnd
  obtain ⟨⟨hpneq, hpl⟩, hql, hnd'⟩ := hnd
  obtain ⟨hpnext, hplink⟩ := hpq hpneq
  have hkeep : ∀ m ∈ l', s'.nextOf m = r.host.nextOf m
      ∧ (s'.qhns m).qhlptr = (r.host.qhns m).qhlptr := by
    intro m hm
    apply hrest m
    · simp [hm]
    · exact fun he => hpl (he ▸ hm)
    · exact fun he => hql (he ▸ hm)
  -- the one behind it is in the ring as well, since there is another one
  have hnextmem : ∀ n, r.host.nextOf q = some n → n ∈ p :: l' := by
    intro n hn
    have hleads := hring.leads.2.2
    rw [hn] at hleads
    cases l' with
    | nil =>
        have hnp : some n = some p := hleads
        cases hnp
        exact List.mem_cons_self ..
    | cons z l' =>
        have hnz : some n = some z := hleads.1
        cases hnz
        simp
  refine ⟨s', p :: l', hdel, hremoved, ?_⟩
  constructor
  · exact h.running
  · exact h.ring.remove (fun m hm => (hkeep m hm).1) hpnext
  · have hperm := ((List.Perm.swap p q l').trans h.perm).erase q
    rw [List.erase_cons_head] at hperm
    exact hperm
  · exact List.nodup_cons.2 ⟨hpl, hnd'⟩
  · intro hnone
    rw [htail'] at hnone
    obtain ⟨n, hn, -⟩ := h.links q (by simp)
    rw [hn] at hnone
    split_ifs at hnone
  · intro t' ht
    rw [htail'] at ht
    split_ifs at ht with htq
    · exact hnextmem t' ht
    · cases ht
      have hmem := h.tail_mem t htail
      simp only [List.mem_cons] at hmem ⊢
      tauto
  · intro m hm
    unfold qhLink
    simp only [hremoved.pqh]
    rcases List.mem_cons.1 hm with rfl | hm
    · rw [hpnext, hplink]
      exact h.links q (by simp)
    · rw [(hkeep m hm).1, (hkeep m hm).2]
      exact h.links m (by simp [hm])
  · exact hpending
  · intro m hm hmem
    rcases List.mem_append.1 hm with hm | hm
    · apply h.apart m hm
      simp only [List.mem_cons] at hmem ⊢
      tauto
    · rw [List.mem_singleton.1 hm, List.mem_cons] at hmem
      rcases hmem with hqp | hmem
      · exact hpneq hqp.symm
      · exact hql hmem
  · intro m hm
    have hold : HasTds r m := by
      apply h.tds m
      simp only [List.mem_cons] at hm ⊢
      tauto
    exact hold.congr hremoved.nextTd hremoved.td (hremoved.first m) rfl

-- ========================================================== the mistake

/-- A list without repetition whose elements are all the same has one. -/
theorem eq_singleton_of_forall (hnd : l.Nodup) (hq : q ∈ l)
    (hall : ∀ m ∈ l, m = q) : l = [q] := by
  cases l with
  | nil => cases hq
  | cons x l =>
      have hx := hall x (List.mem_cons_self ..)
      cases l with
      | nil => rw [hx]
      | cons y l =>
          have hy := hall y (by simp)
          have hnot := (List.nodup_cons.1 hnd).1
          rw [hx, hy] at hnot
          exact absurd (List.mem_cons_self ..) hnot

/-- The only queue head is removed: `alist_tail` keeps pointing to it. -/
theorem Ringed.del_only_eq (h : Ringed r [q]) {fuel : Nat}
    (hfuel : ringFuel r q ≤ fuel) :
    ∃ s', ehciDelQhnAsync fuel r.host q = .ok s' ∧ Removed q r.host s'
      ∧ s'.alistTail = some q
      ∧ Leads s'.nextOf s'.dbPending (r.removed ++ [q]) none := by
  obtain ⟨t, htail⟩ : ∃ t, r.host.alistTail = some t := by
    cases htail : r.host.alistTail with
    | none => cases h.tail htail
    | some t => exact ⟨t, rfl⟩
  have htq : t = q := List.mem_singleton.1 (h.tail_mem t htail)
  rw [htq] at htail
  have hnext : r.host.nextOf q = some q := h.ring.leads.2
  have hwalk : walkWhile r.host.nextOf (fun m => m ≠ q) fuel q = some q := by
    cases fuel with
    | zero => cases hfuel
    | succ fuel =>
        unfold walkWhile
        simp [hnext]
  obtain ⟨s', hdel, hremoved, htail', hpending, -⟩ := h.del_eq (by simp)
    hfuel htail (by simp) hwalk hnext
  rw [if_pos rfl, hnext] at htail'
  exact ⟨s', hdel, hremoved, htail', hpending⟩

/-- Taking the only queue head away leaves none. -/
theorem Ringed.linked_only (h : Ringed r [q]) : r.linked.erase q = [] := by
  rw [List.perm_singleton.1 h.perm.symm, List.erase_cons_head]

/-- Removing the only queue head does not leave the empty ring behind. -/
theorem Ringed.del_only (h : Ringed r [q]) :
    ¬RingExact (delOutcome r q
      (ehciDelQhnAsync (ringFuel r q) r.host q)) := by
  obtain ⟨s', hdel, -, htail', -⟩ := h.del_only_eq (Nat.le_refl _)
  rw [hdel]
  intro hexact
  have hnone := hexact.empty.2 h.linked_only
  have hsome : (delOutcome r q (.ok s')).host.alistTail = some q := htail'
  rw [hsome] at hnone
  cases hnone

/-- A queue head is removed, whether it is the only one or not. -/
theorem Ringed.del_any (h : Ringed r l) (hq : q ∈ l) {fuel : Nat}
    (hfuel : ringFuel r q ≤ fuel) :
    ∃ s', ehciDelQhnAsync fuel r.host q = .ok s' ∧ Removed q r.host s'
      ∧ Leads s'.nextOf s'.dbPending (r.removed ++ [q]) none
      ∧ (r.linked.erase q = [] ∨ ∃ l', Ringed { r with
        host := s'
        linked := r.linked.erase q
        removed := r.removed ++ [q] } l') := by
  by_cases hother : ∃ m ∈ l, m ≠ q
  · obtain ⟨s', l', hdel, hremoved, hring⟩ := h.del hq hother hfuel
    exact ⟨s', hdel, hremoved, hring.pending, .inr ⟨l', hring⟩⟩
  · push Not at hother
    have hl := eq_singleton_of_forall h.nodup hq hother
    subst hl
    obtain ⟨s', hdel, hremoved, -, hpending⟩ := h.del_only_eq hfuel
    exact ⟨s', hdel, hremoved, hpending, .inl h.linked_only⟩

-- ================================================================= runs

/-- What a step can be. -/
theorem ringStep_cases {op : RingOp} (h : ringStep r op = some r') :
    (∃ q, op = .add q ∧ q ∉ r.linked ∧ q ∉ r.removed ∧ HasTds r q
        ∧ { r with
          host := ehciAddQhnAsync r.host q
          linked := q :: r.linked } = r')
      ∨ (∃ q, op = .del q ∧ q ∈ r.linked
        ∧ delOutcome r q (ehciDelQhnAsync (ringFuel r q) r.host q) = r')
      ∨ ∃ q first tdns tds, op = .traffic q first tdns tds
        ∧ (∀ m ∈ r.linked, HasTds (changeTds r q first tdns tds) m)
        ∧ changeTds r q first tdns tds = r' := by
  cases op with
  | add q =>
      simp only [ringStep] at h
      split_ifs at h with hc
      exact .inl ⟨q, rfl, hc.2.1, hc.2.2.1, hc.2.2.2, Option.some.inj h⟩
  | del q =>
      simp only [ringStep] at h
      split_ifs at h with hc
      exact .inr (.inl ⟨q, rfl, hc.2, Option.some.inj h⟩)
  | traffic q first tdns tds =>
      simp only [ringStep] at h
      split_ifs at h with hc
      exact .inr (.inr ⟨q, first, tdns, tds, rfl, hc, Option.some.inj h⟩)

/-- Traffic leaves the ring as it is. -/
theorem Ringed.traffic (h : Ringed r l) {first : Option TdId}
    {tdns : TdId → TDn} {tds : List TdId}
    (htds : ∀ m ∈ r.linked, HasTds (changeTds r q first tdns tds) m) :
    Ringed (changeTds r q first tdns tds) l := by
  have hsame : ∀ m, ((changeTds r q first tdns tds).host.qhns m).next
        = (r.host.qhns m).next
      ∧ ((changeTds r q first tdns tds).host.qhns m).qhlptr
        = (r.host.qhns m).qhlptr
      ∧ ((changeTds r q first tdns tds).host.qhns m).pqh
        = (r.host.qhns m).pqh := by
    intro m
    unfold changeTds
    by_cases hm : m = q
    · subst hm
      simp
    · simp [hm]
  have hnext : (changeTds r q first tdns tds).host.nextOf
      = r.host.nextOf := funext fun m => (hsame m).1
  constructor
  · exact h.running
  · rw [hnext]
    exact h.ring
  · exact h.perm
  · exact h.nodup
  · exact h.tail
  · exact h.tail_mem
  · intro m hm
    obtain ⟨n, hn, hlink⟩ := h.links m hm
    refine ⟨n, ?_, ?_⟩
    · rw [hnext]
      exact hn
    · unfold qhLink
      rw [(hsame m).2.1, (hsame n).2.2]
      exact hlink
  · rw [hnext]
    exact h.pending
  · exact h.apart
  · exact fun m hm => htds m (h.perm.mem_iff.1 hm)

/-- A step that meets the condition keeps the ring. -/
theorem Ringed.step (h : Ringed r l) {op : RingOp} (hok : RingOk r op)
    (hstep : ringStep r op = some r') : ∃ l', Ringed r' l' := by
  rcases ringStep_cases hstep with ⟨q, rfl, hq, hrem, htds, rfl⟩
    | ⟨q, rfl, hq, rfl⟩ | ⟨q, first, tdns, tds, rfl, htds, rfl⟩
  · exact h.add (fun hmem => hq (h.perm.mem_iff.1 hmem)) hrem htds
  · obtain ⟨m, hm, hne⟩ := hok
    obtain ⟨s', l', hdel, -, hringed⟩ := h.del (h.perm.mem_iff.2 hq)
      ⟨m, h.perm.mem_iff.2 hm, hne⟩ (Nat.le_refl _)
    rw [hdel]
    exact ⟨l', hringed⟩
  · exact ⟨l, h.traffic htds⟩

/-- A step that does not meet the condition breaks it. -/
theorem Ringed.step_bad (h : Ringed r l) {op : RingOp} (hok : ¬RingOk r op)
    (hstep : ringStep r op = some r') : ¬RingExact r' := by
  rcases ringStep_cases hstep with ⟨q, rfl, hq, hrem, htds, rfl⟩
    | ⟨q, rfl, hq, rfl⟩ | ⟨q, first, tdns, tds, rfl, htds, rfl⟩
  · exact absurd trivial hok
  · unfold RingOk at hok
    push Not at hok
    have hall : ∀ m ∈ l, m = q := fun m hm => hok m (h.perm.mem_iff.1 hm)
    have hl := eq_singleton_of_forall h.nodup (h.perm.mem_iff.2 hq) hall
    subst hl
    exact h.del_only
  · exact absurd trivial hok

theorem RingInit.ringed (h : RingInit r) : Ringed r [] := by
  constructor
  · exact h.crashed
  · exact rfl
  · rw [h.linked]
  · exact List.nodup_nil
  · exact fun _ => rfl
  · intro t ht
    rw [h.alistTail] at ht
    cases ht
  · nofun
  · rw [h.removed]
    exact h.dbPending
  · nofun
  · nofun

/-- The ring is exact throughout a run of additions, removals and traffic
exactly if no queue head is removed that is the only one. -/
theorem ring_exact {ops : List RingOp} (hinit : RingInit r)
    (hrun : run ringStep r ops = some r') :
    Always ringStep RingExact r ops ↔ AllSteps ringStep RingOk r ops := by
  apply always_iff_of_good (J := fun r => ∃ l, Ringed r l) _ _ _
    ⟨[], hinit.ringed⟩ hrun
  · rintro t ⟨l, h⟩
    exact h.exact
  · rintro t op t' ⟨l, h⟩ hok hstep
    exact h.step hok hstep
  · rintro t op t' ⟨l, h⟩ hok hstep
    exact h.step_bad hok hstep

/-- A host with no queue heads in the ring. -/
def emptyRing : RingHost where
  host := {
    qhns := fun q => {
      pqh := UInt32.ofNat (32 * q)
      qhlptr := linkInvalid
      epc0 := 0
      tdCur := 0
      overlayNext := linkInvalid
      tdns := none
      rate := 0
      wasCancelled := 0
      next := none }
    tdns := fun t =>
      ⟨true, UInt32.ofNat (32 * t), linkInvalid, 0, none, none⟩
    alistTail := none
    dbPending := none
    usbcmd := 0 }
  linked := []
  removed := []
  tds := fun _ => []
  crashed := false

theorem emptyRing_init : RingInit emptyRing := ⟨rfl, rfl, rfl, rfl, rfl⟩

/-- Three queue heads, of which the first and the last are removed. -/
theorem ring_exact_sample :
    (run ringStep emptyRing
        [.add 1, .add 2, .add 3, .del 3, .del 1, .add 4]).isSome
      ∧ Always ringStep RingExact emptyRing
        [.add 1, .add 2, .add 3, .del 3, .del 1, .add 4] := by
  have hsome : (run ringStep emptyRing
      [.add 1, .add 2, .add 3, .del 3, .del 1, .add 4]).isSome := by
    decide +kernel
  obtain ⟨r', hrun⟩ := Option.isSome_iff_exists.1 hsome
  refine ⟨hsome, (ring_exact emptyRing_init hrun).2 ?_⟩
  decide +kernel

/-- The only queue head is removed: `alist_tail` points to it, its link is
null, and the next one that is added is linked behind it. -/
theorem tail_left_behind :
    ∃ r r', run ringStep emptyRing [.add 1, .del 1] = some r
      ∧ r.linked = [] ∧ r.host.alistTail = some 1 ∧ r.host.nextOf 1 = none
      ∧ ¬RingExact r
      ∧ ringStep r (.add 2) = some r'
      ∧ r'.host.alistTail = some 2 ∧ r'.host.nextOf 2 = none := by
  have hany : (run ringStep emptyRing [.add 1, .del 1]).any (fun r =>
      (ringStep r (.add 2)).any fun r' => decide (
        r.linked = [] ∧ r.host.alistTail = some 1 ∧ r.host.nextOf 1 = none
        ∧ r'.host.alistTail = some 2 ∧ r'.host.nextOf 2 = none))
          = true := by
    decide +kernel
  obtain ⟨r, hrun, hany'⟩ := (Option.any_eq_true ..).1 hany
  obtain ⟨r', hstep, hbool⟩ := (Option.any_eq_true ..).1 hany'
  obtain ⟨hlinked, htail, hnext, htail', hnext'⟩ := of_decide_eq_true hbool
  refine ⟨r, r', hrun, hlinked, htail, hnext, ?_, hstep, htail', hnext'⟩
  intro hexact
  have hnone := hexact.empty.2 hlinked
  rw [htail] at hnone
  cases hnone

end ProjectsLibs.Ehci
