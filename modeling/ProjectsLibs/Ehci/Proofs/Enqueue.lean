/-
What `qtd_enqueue` does: the new descriptors are behind the others, and
are active.

# The two loops

`qtd_enqueue` walks to the end of the descriptors of a queue head, links
the new ones there, and then enables each of the new ones. Both loops
follow a chain (`Leads`), and the induction is on the list that the chain
runs through, with the fuel of the loop bounded by its length.

Enabling changes no link, so the rest of the chain stands after each
iteration; what the loop leaves is written in one piece (`enabled`), so
that later proofs compare descriptors before and after without going
through the loop again. The result is the structure `Enqueued`: the
links, the chain, and what each descriptor keeps, told apart by whether
it is new. The driver dereferences the descriptor of a node here, so the
lemmas ask that those of the chain are mapped (`Mapped`); in reachable
states the layout of the host says so.
-/
import ProjectsLibs.Ehci.Proofs.Collect

namespace ProjectsLibs.Ehci

open Lib

variable {q : QhId}

/-- The descriptors with some of them enabled. -/
def enabled (tds : List TdId) (tdns : TdId → TDn) : TdId → TDn :=
  fun t => if t ∈ tds then (tdns t).enable else tdns t

theorem enabled_cons {t : TdId} {tds : List TdId} (ht : t ∉ tds)
    (tdns : TdId → TDn) :
    enabled tds (Function.update tdns t (tdns t).enable)
      = enabled (t :: tds) tdns := by
  funext u
  unfold enabled
  by_cases hu : u = t
  · subst hu
    rw [if_neg ht, if_pos (List.mem_cons_self ..), Function.update_self]
  · rw [Function.update_of_ne hu]
    by_cases hmem : u ∈ tds
    · rw [if_pos hmem, if_pos (List.mem_cons_of_mem _ hmem)]
    · rw [if_neg hmem, if_neg fun h => by
        rcases List.mem_cons.1 h with h | h
        · exact hu h
        · exact hmem h]

/-- The loop that enables the descriptors. -/
theorem enableTds_eq {tdns : TdId → TDn} {p : Option TdId}
    {tds : List TdId} {fuel : Nat}
    (h : Leads (fun t => (tdns t).next) p tds none) (hm : Mapped tdns tds)
    (hfuel : tds.length ≤ fuel) :
    enableTds fuel p tdns = .ok (enabled tds tdns) := by
  induction tds generalizing p fuel tdns with
  | nil =>
      obtain rfl : p = none := h
      unfold enableTds
      rfl
  | cons t tds ih =>
      have hnot := (List.nodup_cons.1 h.nodup).1
      obtain ⟨rfl, hrest⟩ := h
      obtain ⟨fuel, rfl⟩ : ∃ f, fuel = f + 1 :=
        ⟨fuel - 1, by rw [List.length_cons] at hfuel; omega⟩
      have hrest' : Leads
          (fun u => (Function.update tdns t (tdns t).enable u).next)
          (tdns t).next tds none := by
        refine hrest.congr fun u hu => ?_
        have hut : u ≠ t := by
          rintro rfl
          exact hnot hu
        rw [Function.update_of_ne hut]
      have htd : (tdns t).td = true := hm t (List.mem_cons_self ..)
      have hm' : Mapped (Function.update tdns t (tdns t).enable) tds := by
        intro u hu
        have hut : u ≠ t := by
          rintro rfl
          exact hnot hu
        rw [Function.update_of_ne hut]
        exact hm u (List.mem_cons_of_mem _ hu)
      rw [enableTds, if_neg (by rw [htd]; decide),
        ih hrest' hm' (Nat.le_of_succ_le_succ hfuel), enabled_cons hnot]

/-- What an enqueueing leaves. -/
structure Enqueued (q : QhId) (s s' : AsyncHost) (old tds : List TdId) :
    Prop where
  links : SameLinks q s s'
  leads : Leads s'.nextTd (s'.qhns q).tdns (old ++ tds) none
  td : ∀ t, (s'.tdns t).td = (s.tdns t).td
  new : ∀ t ∈ tds, (s'.tdns t).cb = (s.tdns t).cb
    ∧ (s'.tdns t).token = (s.tdns t).enable.token
  same : ∀ t ∉ tds, (s'.tdns t).cb = (s.tdns t).cb
    ∧ (s'.tdns t).token = (s.tdns t).token
  next : ∀ t ∉ tds, t ∉ old → s'.tdns t = s.tdns t

/-- The new descriptors are linked behind the others. -/
theorem linkTds_eq {s : AsyncHost} {t : TdId} {old : List TdId} {fuel : Nat}
    (h : Leads s.nextTd (s.qhns q).tdns old none)
    (hm : Mapped s.tdns old) (hfuel : old.length < fuel) :
    ∃ s', linkTds fuel s q t = .ok s' ∧ SameLinks q s s'
      ∧ Leads s'.nextTd (s'.qhns q).tdns old (some t)
      ∧ (∀ u, (s'.tdns u).td = (s.tdns u).td)
      ∧ (∀ u, (s'.tdns u).cb = (s.tdns u).cb
        ∧ (s'.tdns u).token = (s.tdns u).token)
      ∧ ∀ u ∉ old, s'.tdns u = s.tdns u := by
  cases old with
  | nil =>
      have hnone : (s.qhns q).tdns = none := h
      unfold linkTds
      rw [hnone]
      refine ⟨_, rfl, ?_, ?_, fun _ => rfl, fun _ => ⟨rfl, rfl⟩,
        fun _ _ => rfl⟩
      · refine ⟨fun m hm => AsyncHost.setQh_ne _ _ _ hm, ?_, ?_, ?_, ?_, rfl,
          rfl⟩ <;> rw [AsyncHost.setQh_self]
      · show ((s.setQh q _).qhns q).tdns = some t
        rw [AsyncHost.setQh_self]
  | cons first l =>
      obtain ⟨hfirst, hrest⟩ := h
      have hleads : Leads s.nextTd (s.qhns q).tdns (first :: l) none :=
        ⟨hfirst, hrest⟩
      obtain ⟨l₁, last, hwalk, heq⟩ := hrest.walkWhile_eq
        (c := fun _ => true)
        (show l.length < fuel by rw [List.length_cons] at hfuel; omega)
      have htake : l.takeWhile (fun _ => true) = l := by simp
      rw [htake] at heq
      have hnd := hleads.nodup
      rw [← heq] at hleads hnd
      have hlast : ∀ u ∈ l₁, u ≠ last := by
        rintro u hu rfl
        exact (List.nodup_append.1 hnd).2.2 u hu u
          (List.mem_singleton_self _) rfl
      -- the queue head, with the overlay set or not
      obtain ⟨s₁, hs₁, hsame, hfirst₁,
          htdns₁⟩ : ∃ s₁ : AsyncHost,
          (if (s.qhns q).tdCur = (s.tdns last).ptd
              ∧ (s.qhns q).overlayNext = linkInvalid then
            s.setQh q fun qhn => { qhn with overlayNext := (s.tdns t).ptd }
          else s) = s₁ ∧ SameLinks q s s₁
            ∧ (s₁.qhns q).tdns = (s.qhns q).tdns
            ∧ s₁.tdns = s.tdns := by
        split
        · refine ⟨_, rfl, ?_, ?_, rfl⟩
          · refine ⟨fun m hm => AsyncHost.setQh_ne _ _ _ hm, ?_, ?_, ?_, ?_,
              rfl, rfl⟩ <;> rw [AsyncHost.setQh_self]
          · rw [AsyncHost.setQh_self]
        · exact ⟨s, rfl, SameLinks.refl q s, rfl, rfl⟩
      unfold linkTds
      rw [hfirst]
      dsimp only
      rw [hwalk]
      dsimp only
      rw [hs₁]
      have htd : (s.tdns last).td = true := by
        refine hm last ?_
        rw [← heq]
        exact List.mem_append_right _ (List.mem_singleton_self _)
      rw [if_neg (by rw [htdns₁, htd]; decide)]
      refine ⟨_, rfl, ?_, ?_, ?_, ?_, ?_⟩
      · exact ⟨hsame.others, hsame.next, hsame.qhlptr, hsame.pqh,
          hsame.count, hsame.tail, hsame.pending⟩
      · rw [← heq]
        dsimp only
        rw [hfirst₁]
        refine hleads.relink (fun u hu => ?_) ?_
        · unfold AsyncHost.nextTd
          dsimp only
          rw [Function.update_of_ne (hlast u hu), htdns₁]
        · unfold AsyncHost.nextTd
          dsimp only
          rw [Function.update_self]
      · intro u
        dsimp only
        by_cases hu : u = last
        · rw [hu, Function.update_self, htdns₁]
        · rw [Function.update_of_ne hu, htdns₁]
      · intro u
        dsimp only
        by_cases hu : u = last
        · rw [hu, Function.update_self, htdns₁]
          exact ⟨rfl, rfl⟩
        · rw [Function.update_of_ne hu, htdns₁]
          exact ⟨rfl, rfl⟩
      · intro u hu
        have hne : u ≠ last := by
          rintro rfl
          refine hu ?_
          rw [← heq]
          exact List.mem_append_right _ (List.mem_singleton_self _)
        dsimp only
        rw [Function.update_of_ne hne, htdns₁]

/-- `qtd_enqueue`. -/
theorem qtdEnqueue_eq {s : AsyncHost} {t : TdId} {old tds : List TdId}
    {fuel : Nat} (h : Leads s.nextTd (s.qhns q).tdns old none)
    (hnew : Leads s.nextTd (some t) tds none) (hm : Mapped s.tdns old)
    (hm' : Mapped s.tdns tds) (hapart : ∀ u ∈ tds, u ∉ old)
    (hfuel : old.length < fuel) (hfuel' : tds.length ≤ fuel) :
    ∃ s', qtdEnqueue fuel s q t = .ok s' ∧ Enqueued q s s' old tds := by
  obtain ⟨s₁, hlink, hsame, hold, htd, hkeep, hout⟩ :=
    linkTds_eq (t := t) h hm hfuel
  have hnew₁ : Leads (fun u => (s₁.tdns u).next) (some t) tds none :=
    hnew.congr fun u hu => congrArg TDn.next (hout u (hapart u hu))
  have henable := enableTds_eq hnew₁
    (fun u hu => (htd u).trans (hm' u hu)) hfuel'
  refine ⟨{ s₁ with tdns := enabled tds s₁.tdns }, ?_, ?_⟩
  · unfold qtdEnqueue
    rw [hlink]
    show Except.bind (enableTds fuel (some t) s₁.tdns) _ = _
    rw [henable]
    rfl
  · have hnext : ∀ u,
        (enabled tds s₁.tdns u).next = (s₁.tdns u).next := by
      intro u
      unfold enabled
      split <;> rfl
    refine ⟨?_, ?_, ?_, ?_, ?_, ?_⟩
    · exact ⟨hsame.others, hsame.next, hsame.qhlptr, hsame.pqh, hsame.count,
        hsame.tail, hsame.pending⟩
    · refine (hold.append hnew₁).congr fun u _ => ?_
      exact hnext u
    · intro u
      dsimp only [enabled]
      split
      · exact htd u
      · exact htd u
    · intro u hu
      dsimp only [enabled]
      rw [if_pos hu, hout u (hapart u hu)]
      exact ⟨rfl, rfl⟩
    · intro u hu
      dsimp only [enabled]
      rw [if_neg hu]
      exact hkeep u
    · intro u hu hu'
      dsimp only [enabled]
      rw [if_neg hu]
      exact hout u hu'

end ProjectsLibs.Ehci
