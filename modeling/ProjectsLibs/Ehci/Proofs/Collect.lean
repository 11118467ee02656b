/-
A pass of the driver over the descriptors of a queue head: the finished
groups at the front are taken away, and the callbacks of those that have
one are called (`collectTds_eq`).

A group without a callback is that of a request that its caller waited
for. Its bytes are added to the sum like all others, but the sum is reset
at a call only, so they are reported with the next callback
(`passCalls`). If all groups have callbacks each is called with the bytes
of its own (`collectGroups_eq`).

# Shape of the argument

- `freeTds_eq`: the loop that frees a group stops behind its last
  descriptor, if that one's link is still there after it was freed.
- `scan_done`: the loop comes to the end of a group that is finished with
  the sum of its bytes; `scan_stop`: it stops in one that is not.
- `collectTds_eq` is the induction over the groups.
-/
import ProjectsLibs.Ehci.Proofs.Doorbell
import ProjectsLibs.Ehci.Proofs.Groups

namespace ProjectsLibs.Ehci

open Lib

variable {junk : Junk} {x : Xfer} {q : QhId}

-- =================================================================== sums

/-- The sum that the loop adds up. -/
def addBytes (tdns : TdId → TDn) (sum : UInt32) (tds : List TdId) : UInt32 :=
  tds.foldl (fun sum t => sum + tdtokGetBytes (tdns t).token) sum

/-- The remaining bytes of descriptors. -/
def bytesOfTds (tdns : TdId → TDn) (tds : List TdId) : Nat :=
  (tds.map fun t => bytesLeft (tdns t)).sum

/-- The loop counts the remaining bytes, up to the wrap of its word. -/
theorem addBytes_mod (tdns : TdId → TDn) (sum : UInt32) (tds : List TdId) :
    (addBytes tdns sum tds).toNat
      = (sum.toNat + bytesOfTds tdns tds) % 2 ^ 32 := by
  induction tds generalizing sum with
  | nil => exact (Nat.mod_eq_of_lt sum.toNat_lt).symm
  | cons t tds ih =>
      have hcons : bytesOfTds tdns (t :: tds)
          = bytesLeft (tdns t) + bytesOfTds tdns tds := by
        simp [bytesOfTds]
      have hadd : (sum + tdtokGetBytes (tdns t).token).toNat
          = (sum.toNat + bytesLeft (tdns t)) % 2 ^ 32 := UInt32.toNat_add ..
      show (addBytes tdns (sum + tdtokGetBytes (tdns t).token) tds).toNat = _
      rw [ih, hadd, hcons, Nat.mod_add_mod, Nat.add_assoc]

/-- Without overflow the sum is that of the byte counts. -/
theorem addBytes_toNat (tdns : TdId → TDn) (sum : UInt32) (tds : List TdId)
    (h : sum.toNat + bytesOfTds tdns tds < 2 ^ 32) :
    (addBytes tdns sum tds).toNat = sum.toNat + bytesOfTds tdns tds :=
  (addBytes_mod tdns sum tds).trans (Nat.mod_eq_of_lt h)

/-- Below 2 to the power of 31 an unsigned sum is the same `int`. -/
theorem cInt_of_lt {w : UInt32} (h : w.toNat < 2 ^ 31) :
    cInt w = (w.toNat : Int) := by
  unfold cInt
  rw [BitVec.toInt_eq_toNat_cond]
  have hw : w.toBitVec.toNat = w.toNat := rfl
  rw [hw, if_pos (by omega)]

-- ================================================================= freeing

/-- The loop that frees a group. -/
theorem freeTds_eq {s : AsyncHost} {tdn : TdId} {p nxt : Option TdId}
    {front : List TdId} {fuel : Nat}
    (h : Leads s.nextTd p (front ++ [tdn]) nxt)
    (hnd : (front ++ [tdn]).Nodup)
    (hout : ∀ t ∈ front ++ [tdn], nxt ≠ some t)
    (hlink : (junk.td tdn).next = nxt) (hfuel : front.length + 1 < fuel) :
    freeTds junk tdn fuel s p
      = .ok ({ s with tdns := freed junk (front ++ [tdn]) s.tdns }, nxt) := by
  -- the loop stops at the descriptor that the last one freed links to,
  -- which is read after the free
  induction front generalizing s p fuel with
  | nil =>
      obtain ⟨rfl, hnext⟩ := h
      have hnext : s.nextTd tdn = nxt := hnext
      obtain ⟨fuel, rfl⟩ : ∃ f, fuel = f + 2 :=
        ⟨fuel - 2, by simp at hfuel; omega⟩
      have hne : some tdn ≠ s.nextTd tdn := by
        rw [hnext]
        exact (hout tdn (by simp)).symm
      have hself : (freeTd junk s tdn).nextTd tdn = nxt := by
        unfold freeTd AsyncHost.nextTd
        dsimp only
        rw [Function.update_self]
        exact hlink
      rw [freeTds, if_neg hne]
      show freeTds junk tdn (fuel + 1) (freeTd junk s tdn) (s.nextTd tdn) = _
      have hstop : s.nextTd tdn = (freeTd junk s tdn).nextTd tdn :=
        hnext.trans hself.symm
      rw [freeTds.eq_def]
      dsimp only
      have hfreed : freed junk [tdn] s.tdns = (freeTd junk s tdn).tdns :=
        (freed_cons tdn [] s.tdns).symm
      rw [if_pos hstop, hnext, List.nil_append, hfreed]
      rfl
  | cons t front ih =>
      obtain ⟨rfl, hrest⟩ := h
      obtain ⟨fuel, rfl⟩ : ∃ f, fuel = f + 1 := ⟨fuel - 1, by omega⟩
      have hnot := (List.nodup_cons.1 hnd).1
      have htdn : tdn ≠ t := by
        rintro rfl
        exact hnot (by simp)
      have hlast : s.nextTd tdn = nxt :=
        (Leads.concat_iff.1 hrest).2
      -- the loop does not stop early: `t` is not the one behind the
      -- request
      have hne : some t ≠ s.nextTd tdn := by
        rw [hlast]
        exact (hout t (by simp)).symm
      have hrest' : Leads (freeTd junk s t).nextTd (s.nextTd t)
          (front ++ [tdn]) nxt := by
        refine hrest.congr fun u hu => ?_
        have hut : u ≠ t := by
          rintro rfl
          exact hnot hu
        unfold freeTd AsyncHost.nextTd
        dsimp only
        rw [Function.update_of_ne hut]
      rw [freeTds, if_neg hne]
      dsimp only
      rw [ih hrest' (List.nodup_cons.1 hnd).2
        (fun u hu => hout u (List.mem_cons_of_mem _ hu))
        (by simp only [List.length_cons] at hfuel; omega)]
      have hfreed : freed junk (front ++ [tdn]) (freeTd junk s t).tdns
          = freed junk (t :: front ++ [tdn]) s.tdns := freed_cons t _ s.tdns
      rw [hfreed]
      rfl

-- ============================================================ one group

/-- The queue heads and the ring, but for the descriptors and the overlay
of one queue head. -/
structure SameLinks (q : QhId) (s s' : AsyncHost) : Prop where
  others : ∀ m, m ≠ q → s'.qhns m = s.qhns m
  next : (s'.qhns q).next = (s.qhns q).next
  qhlptr : (s'.qhns q).qhlptr = (s.qhns q).qhlptr
  pqh : (s'.qhns q).pqh = (s.qhns q).pqh
  count : (s'.qhns q).wasCancelled = (s.qhns q).wasCancelled
  tail : s'.alistTail = s.alistTail
  pending : s'.dbPending = s.dbPending

theorem SameLinks.refl (q : QhId) (s : AsyncHost) : SameLinks q s s :=
  ⟨fun _ _ => rfl, rfl, rfl, rfl, rfl, rfl, rfl⟩

/-- Two steps that keep the links keep them together. -/
theorem SameLinks.trans {s₁ s₂ s₃ : AsyncHost}
    (h₁ : SameLinks q s₁ s₂)
    (h₂ : SameLinks q s₂ s₃) : SameLinks q s₁ s₃ where
  others m hm := (h₂.others m hm).trans (h₁.others m hm)
  next := h₂.next.trans h₁.next
  qhlptr := h₂.qhlptr.trans h₁.qhlptr
  pqh := h₂.pqh.trans h₁.pqh
  count := h₂.count.trans h₁.count
  tail := h₂.tail.trans h₁.tail
  pending := h₂.pending.trans h₁.pending

/-- The ring stays. -/
theorem SameLinks.nextOf_eq {s s' : AsyncHost} (h : SameLinks q s s') :
    s'.nextOf = s.nextOf := by
  funext m
  unfold AsyncHost.nextOf
  by_cases hm : m = q
  · rw [hm, h.next]
  · rw [h.others m hm]

/-- The queue head skips a group that ends in `tdn`. -/
def dequeued (s : AsyncHost) (q : QhId) (tdn : TdId) : AsyncHost :=
  advanceOverlay (s.setQh q fun qhn => { qhn with tdns := s.nextTd tdn }) q
    tdn

/-- Taking the finished request off leaves the queue head with the
descriptor behind it first. -/
theorem dequeued_eq (s : AsyncHost) (q : QhId) (tdn : TdId) :
    SameLinks q s (dequeued s q tdn)
      ∧ (dequeued s q tdn).tdns = s.tdns
      ∧ ((dequeued s q tdn).qhns q).tdns = s.nextTd tdn := by
  have hset : SameLinks q s
      (s.setQh q fun qhn => { qhn with tdns := s.nextTd tdn }) := by
    refine ⟨fun m hm => AsyncHost.setQh_ne _ _ _ hm, ?_, ?_, ?_, ?_, rfl,
      rfl⟩
      <;> rw [AsyncHost.setQh_self]
  unfold dequeued advanceOverlay
  split
  · refine ⟨hset, rfl, ?_⟩
    rw [AsyncHost.setQh_self]
  · split
    · refine ⟨hset.trans ?_, rfl, ?_⟩
      · refine ⟨fun m hm => AsyncHost.setQh_ne _ _ _ hm, ?_, ?_, ?_, ?_, rfl,
          rfl⟩ <;> rw [AsyncHost.setQh_self]
      · rw [AsyncHost.setQh_self, AsyncHost.setQh_self]
    · refine ⟨hset, rfl, ?_⟩
      rw [AsyncHost.setQh_self]

/-- The call at the end of a group, if it has a callback. -/
def groupCalls (q : QhId) (sum : UInt32) : Option Nat → List Call
  | some id => [⟨q, id, .success, cInt sum⟩]
  | none => []

/-- The sum behind a group: a call resets it. -/
def sumAfter (sum : UInt32) : Option Nat → UInt32
  | some _ => 0
  | none => sum

/-- The driver after the end of a group. -/
def afterGroup (junk : Junk) (x : Xfer) (q : QhId) (cb : Option Nat)
    (tds : List TdId) (tdn : TdId) (sum : UInt32) : Xfer :=
  { x with
    host := { dequeued x.host q tdn with
      tdns := freed junk tds x.host.tdns }
    log := x.log ++ groupCalls q sum cb }

/-- The end of a group. -/
theorem completeGroup_eq (q : QhId) (sum : UInt32) {tdn : TdId}
    {p nxt : Option TdId} {cb : Option Nat} {front : List TdId} {fuel : Nat}
    (h : Leads x.host.nextTd p (front ++ [tdn]) nxt)
    (hnd : (front ++ [tdn]).Nodup)
    (hout : ∀ t ∈ front ++ [tdn], nxt ≠ some t)
    (hcb : (x.host.tdns tdn).cb = cb)
    (hlink : (junk.td tdn).next = nxt) (hfuel : front.length + 1 < fuel) :
    completeGroup junk fuel q x tdn p sum
      = .ok (afterGroup junk x q cb (front ++ [tdn]) tdn sum, nxt,
        sumAfter sum cb) := by
  obtain ⟨-, htdns, -⟩ := dequeued_eq x.host q tdn
  have hleads : Leads (dequeued x.host q tdn).nextTd p (front ++ [tdn])
      nxt := by
    refine h.congr fun t _ => ?_
    unfold AsyncHost.nextTd
    rw [htdns]
  have hfree := freeTds_eq hleads hnd hout hlink hfuel
  rw [htdns] at hfree
  unfold completeGroup afterGroup
  rw [hcb]
  cases cb with
  | some id =>
      show Except.bind (freeTds junk tdn fuel (dequeued x.host q tdn) p) _ = _
      rw [hfree]
      rfl
  | none =>
      show Except.bind (freeTds junk tdn fuel (dequeued x.host q tdn) p) _ = _
      rw [hfree, groupCalls, List.append_nil]
      rfl

/-- The loop comes to the end of a group that is finished. -/
theorem scan_done (junk : Junk) (q : QhId) (free fuel : Nat)
    (head : Option TdId) (sum : UInt32) {p : Option TdId} {cb : Option Nat}
    {tds after : List TdId}
    (h : Leads x.host.nextTd p (tds ++ after) none)
    (hm : Mapped x.host.tdns tds) (hgroup : IsGroup x.host.tdns cb tds)
    (hdone : ∀ t ∈ tds, isDone (x.host.tdns t) = true) :
    ∃ tdn front, tds = front ++ [tdn] ∧ (x.host.tdns tdn).cb = cb
      ∧ hasIoc (x.host.tdns tdn) = true
      ∧ x.host.nextTd tdn = after.head?
      ∧ collectTds junk free q (tds.length + fuel) x p head sum
        = (completeGroup junk free q x tdn head
            (addBytes x.host.tdns sum tds)).bind
          fun r => collectTds junk free q fuel r.1 (r.1.host.nextTd tdn)
            r.2.1 r.2.2 := by
  induction tds generalizing p sum with
  | nil => cases hgroup
  | cons t tds ih =>
      obtain ⟨rfl, hrest⟩ := h
      have htd : (x.host.tdns t).td = true := hm t (List.mem_cons_self ..)
      have ht : qtdGetStatus (x.host.tdns t).token = .success :=
        of_decide_eq_true (hdone t (List.mem_cons_self ..))
      have hfuel : (t :: tds).length + fuel = (tds.length + fuel) + 1 := by
        rw [List.length_cons]
        omega
      rw [hfuel, collectTds, if_neg (by rw [htd]; decide), if_pos ht]
      cases tds with
      | nil =>
          have hioc : (x.host.tdns t).token &&& mask tdtokIoc ≠ 0 :=
            (and_mask_iff _ (by decide)).2 hgroup.2
          have hnext : x.host.nextTd t = after.head? := hrest.eq_head
          refine ⟨t, [], rfl, hgroup.1, hgroup.2, hnext, ?_⟩
          rw [if_pos hioc, List.length_nil, Nat.zero_add]
          rfl
      | cons u tds =>
          have hioc : ¬(x.host.tdns t).token &&& mask tdtokIoc ≠ 0 := by
            rw [and_mask_iff _ (by decide), Bool.not_eq_true]
            exact hgroup.2.1
          obtain ⟨tdn, front, heq, hcb, hlast, hnext, hloop⟩ := ih
            (sum + tdtokGetBytes (x.host.tdns t).token) hrest
            (fun v hv => hm v (List.mem_cons_of_mem _ hv))
            hgroup.2.2 (fun v hv => hdone v (List.mem_cons_of_mem _ hv))
          refine ⟨tdn, t :: front, ?_, hcb, hlast, hnext, ?_⟩
          · rw [heq, List.cons_append]
          · rw [if_neg hioc]
            exact hloop

/-- The loop stops in a group that is not finished. -/
theorem scan_stop {free fuel : Nat} {p head : Option TdId}
    {cb : Option Nat} {tds after : List TdId} {sum : UInt32}
    (h : Leads x.host.nextTd p (tds ++ after) none)
    (hm : Mapped x.host.tdns tds) (hgroup : IsGroup x.host.tdns cb tds)
    (hopen : ∃ t ∈ tds, isDone (x.host.tdns t) = false)
    (hfuel : tds.length ≤ fuel) :
    collectTds junk free q fuel x p head sum = .ok x := by
  induction tds generalizing p sum fuel with
  | nil => cases hgroup
  | cons t tds ih =>
      obtain ⟨rfl, hrest⟩ := h
      obtain ⟨fuel, rfl⟩ : ∃ f, fuel = f + 1 :=
        ⟨fuel - 1, by rw [List.length_cons] at hfuel; omega⟩
      have htd : (x.host.tdns t).td = true := hm t (List.mem_cons_self ..)
      rw [collectTds, if_neg (by rw [htd]; decide)]
      by_cases ht : qtdGetStatus (x.host.tdns t).token = .success
      · rw [if_pos ht]
        have hopen' : ∃ u ∈ tds, isDone (x.host.tdns u) = false := by
          obtain ⟨u, hu, hne⟩ := hopen
          rcases List.mem_cons.1 hu with rfl | hu
          · rw [isDone, decide_eq_true ht] at hne
            cases hne
          · exact ⟨u, hu, hne⟩
        cases tds with
        | nil =>
            obtain ⟨u, hu, -⟩ := hopen'
            cases hu
        | cons u tds =>
            have hioc : ¬(x.host.tdns t).token &&& mask tdtokIoc ≠ 0 := by
              rw [and_mask_iff _ (by decide), Bool.not_eq_true]
              exact hgroup.2.1
            rw [if_neg hioc]
            exact ih hrest (fun v hv => hm v (List.mem_cons_of_mem _ hv))
              hgroup.2.2 hopen' (Nat.le_of_succ_le_succ hfuel)
      · rw [if_neg ht]

-- ============================================================ all groups

section flat

variable {α : Type} {gs : List (α × List TdId)} {g : α × List TdId}

theorem flat_cons (g : α × List TdId) (gs : List (α × List TdId)) :
    flat (g :: gs) = g.2 ++ flat gs := List.flatMap_cons

theorem flat_append (gs gs' : List (α × List TdId)) :
    flat (gs ++ gs') = flat gs ++ flat gs' := List.flatMap_append

/-- A descriptor is on a queue head if it belongs to one of the requests. -/
theorem mem_flat {t : TdId} : t ∈ flat gs ↔ ∃ g ∈ gs, t ∈ g.2 :=
  List.mem_flatMap

/-- The descriptors of a request are among those of the queue head. -/
theorem sublist_flat (h : g ∈ gs) : g.2.Sublist (flat gs) := by
  obtain ⟨l₁, l₂, rfl⟩ := List.append_of_mem h
  rw [flat_append, flat_cons]
  exact (List.sublist_append_left ..).trans (List.sublist_append_right ..)

end flat

/-- The calls of a pass over groups that are finished, with the sum that
the loop has in front of them. -/
def passCalls (q : QhId) (tdns : TdId → TDn) :
    UInt32 → List CbGrp → List Call
  | _, [] => []
  | sum, g :: gs =>
      groupCalls q (addBytes tdns sum g.2) g.1
        ++ passCalls q tdns (sumAfter (addBytes tdns sum g.2) g.1) gs

/-- The sum that the loop has behind groups that are finished. -/
def sumOver (tdns : TdId → TDn) (sum : UInt32) (gs : List CbGrp) : UInt32 :=
  gs.foldl (fun sum g => sumAfter (addBytes tdns sum g.2) g.1) sum

/-- The callbacks of two runs of requests, one behind the other; the sum is
carried over. -/
theorem passCalls_append (q : QhId) (tdns : TdId → TDn) (sum : UInt32)
    (gs gs' : List CbGrp) :
    passCalls q tdns sum (gs ++ gs') = passCalls q tdns sum gs
      ++ passCalls q tdns (sumOver tdns sum gs) gs' := by
  induction gs generalizing sum with
  | nil => rfl
  | cons g gs ih =>
      rw [List.cons_append, passCalls, passCalls, ih, List.append_assoc]
      rfl

/-- The sum depends on the descriptors added up, and no others. -/
theorem addBytes_congr {tdns tdns' : TdId → TDn} {sum : UInt32}
    {tds : List TdId} (h : ∀ t ∈ tds, tdns' t = tdns t) :
    addBytes tdns' sum tds = addBytes tdns sum tds := by
  unfold addBytes
  apply List.foldl_ext
  intro a t ht
  rw [h t ht]

theorem passCalls_congr {tdns tdns' : TdId → TDn} {gs : List CbGrp}
    (h : ∀ g ∈ gs, ∀ t ∈ g.2, tdns' t = tdns t) (sum : UInt32) :
    passCalls q tdns' sum gs = passCalls q tdns sum gs := by
  induction gs generalizing sum with
  | nil => rfl
  | cons g gs ih =>
      rw [passCalls, passCalls,
        addBytes_congr (h g (List.mem_cons_self ..)),
        ih fun g' hg' => h g' (List.mem_cons_of_mem _ hg')]

/-- What a pass over a queue head leaves, with the calls that it makes. -/
structure Passed (junk : Junk) (q : QhId) (x x' : Xfer) (calls : List Call)
    (fin rest : List TdId) : Prop where
  links : SameLinks q x.host x'.host
  tdns : x'.host.tdns = freed junk fin x.host.tdns
  first : (x'.host.qhns q).tdns = rest.head?
  log : x'.log = x.log ++ calls
  destroyed : x'.destroyed = x.destroyed

/-- A pass that finds nothing to do. -/
theorem Passed.refl {tds : List TdId}
    (hfirst : (x.host.qhns q).tdns = tds.head?) :
    Passed junk q x x [] [] tds where
  links := SameLinks.refl q x.host
  tdns := rfl
  first := hfirst
  log := (List.append_nil _).symm
  destroyed := rfl

/-- A group, and the pass over those behind it. -/
theorem Passed.trans {x₁ x₂ : Xfer} {calls calls' : List Call}
    {fin fin' rest rest' : List TdId}
    (h : Passed junk q x x₁ calls fin rest)
    (h' : Passed junk q x₁ x₂ calls' fin' rest') :
    Passed junk q x x₂ (calls ++ calls') (fin ++ fin') rest' where
  links := h.links.trans h'.links
  tdns := by rw [h'.tdns, h.tdns, freed_freed]
  first := h'.first
  log := by rw [h'.log, h.log, List.append_assoc]
  destroyed := h'.destroyed.trans h.destroyed

/-- The first group is taken away. -/
theorem collect_group (junk : Junk) (free fuel : Nat) (sum : UInt32)
    {g : CbGrp} {gs : List CbGrp}
    (hleads : Leads x.host.nextTd (x.host.qhns q).tdns (g.2 ++ flat gs) none)
    (hm : Mapped x.host.tdns g.2) (hgroup : IsGroup x.host.tdns g.1 g.2)
    (hdone : ∀ t ∈ g.2, isDone (x.host.tdns t) = true)
    (hlink : ∀ t ∈ g.2, hasIoc (x.host.tdns t) = true →
      (junk.td t).next = x.host.nextTd t)
    (hfree : g.2.length < free) :
    ∃ x₁, Passed junk q x x₁
        (groupCalls q (addBytes x.host.tdns sum g.2) g.1) g.2 (flat gs)
      ∧ collectTds junk free q (g.2.length + fuel) x (x.host.qhns q).tdns
          (x.host.qhns q).tdns sum
        = collectTds junk free q fuel x₁ (x₁.host.qhns q).tdns
          (x₁.host.qhns q).tdns
          (sumAfter (addBytes x.host.tdns sum g.2) g.1) := by
  obtain ⟨tdn, front, heq, hcb, hioc, hnext, hscan⟩ := scan_done junk q free
    fuel (x.host.qhns q).tdns sum hleads hm hgroup hdone
  obtain ⟨r, hfront, hback⟩ := Leads.append_iff.1 hleads
  obtain rfl : r = (flat gs).head? := hback.eq_head
  have hnd := List.nodup_append.1 hleads.nodup
  have htdn : tdn ∈ g.2 := by
    rw [heq]
    exact List.mem_append_right _ (List.mem_singleton_self _)
  -- the link that is read from freed memory is the one that was there
  have hjunk : (junk.td tdn).next = (flat gs).head? := by
    rw [hlink tdn htdn hioc, hnext]
  have hout : ∀ t ∈ g.2, (flat gs).head? ≠ some t := by
    intro t ht he
    exact hnd.2.2 t ht t (List.mem_of_mem_head? he) rfl
  have hlen : front.length + 1 = g.2.length := by
    rw [heq, List.length_append, List.length_singleton]
  obtain ⟨hsame, htdns, hfirst⟩ := dequeued_eq x.host q tdn
  have hcomplete := completeGroup_eq q (addBytes x.host.tdns sum g.2)
    (heq ▸ hfront) (heq ▸ hnd.1) (heq ▸ hout) hcb hjunk
    (by rw [hlen]; exact hfree)
  rw [← heq] at hcomplete
  refine ⟨afterGroup junk x q g.1 g.2 tdn (addBytes x.host.tdns sum g.2),
    ⟨?_, rfl, hfirst.trans hnext, rfl, rfl⟩, ?_⟩
  · exact ⟨hsame.others, hsame.next, hsame.qhlptr, hsame.pqh, hsame.count,
      hsame.tail, hsame.pending⟩
  · have hagain : (afterGroup junk x q g.1 g.2 tdn
        (addBytes x.host.tdns sum g.2)).host.nextTd tdn
          = (flat gs).head? := by
      show (freed junk g.2 x.host.tdns tdn).next = _
      rw [freed, if_pos htdn]
      exact hjunk
    have hstart : ((afterGroup junk x q g.1 g.2 tdn
        (addBytes x.host.tdns sum g.2)).host.qhns q).tdns
          = (flat gs).head? := hfirst.trans hnext
    rw [hscan, hcomplete, hstart]
    show collectTds junk free q fuel _ ((afterGroup junk x q g.1 g.2 tdn
      (addBytes x.host.tdns sum g.2)).host.nextTd tdn) _ _ = _
    rw [hagain]

/-- The pass takes away the finished groups at the front. -/
theorem collectTds_eq {free : Nat} {gs : List CbGrp} {fuel : Nat}
    (sum : UInt32)
    (hleads : Leads x.host.nextTd (x.host.qhns q).tdns (flat gs) none)
    (hm : Mapped x.host.tdns (flat gs))
    (hgroups : ∀ g ∈ gs, IsGroup x.host.tdns g.1 g.2)
    (hlink : ∀ t ∈ flat gs, hasIoc (x.host.tdns t) = true →
      (junk.td t).next = x.host.nextTd t)
    (hfuel : (flat gs).length ≤ fuel) (hfree : (flat gs).length + 1 < free) :
    ∃ x' fin rest, gs = fin ++ rest
      ∧ (∀ g ∈ fin, ∀ t ∈ g.2, isDone (x.host.tdns t) = true)
      ∧ (∀ g ∈ rest.head?, ∃ t ∈ g.2, isDone (x.host.tdns t) = false)
      ∧ collectTds junk free q fuel x (x.host.qhns q).tdns
        (x.host.qhns q).tdns sum = .ok x'
      ∧ Passed junk q x x' (passCalls q x.host.tdns sum fin) (flat fin)
        (flat rest) := by
  induction gs generalizing x fuel sum with
  | nil =>
      have hnone : (x.host.qhns q).tdns = none := hleads
      refine ⟨x, [], [], rfl, nofun, nofun, ?_, Passed.refl hnone⟩
      rw [hnone]
      unfold collectTds
      rfl
  | cons g gs ih =>
      rw [flat_cons] at hleads hm hlink hfuel hfree
      rw [List.length_append] at hfuel hfree
      have hgroup := hgroups g (List.mem_cons_self ..)
      have hmg : Mapped x.host.tdns g.2 :=
        fun t ht => hm t (List.mem_append_left _ ht)
      -- the first request is done: it is answered and freed, and the loop
      -- goes on with the next
      by_cases hdone : ∀ t ∈ g.2, isDone (x.host.tdns t) = true
      · obtain ⟨fuel, rfl⟩ : ∃ f, fuel = g.2.length + f :=
          ⟨fuel - g.2.length, by omega⟩
        obtain ⟨x₁, hx₁, hloop⟩ := collect_group junk free fuel sum
          hleads hmg hgroup hdone
          (fun t ht => hlink t (List.mem_append_left _ ht)) (by omega)
        have hnd := List.nodup_append.1 hleads.nodup
        have hkeep : ∀ t ∈ flat gs, x₁.host.tdns t = x.host.tdns t := by
          intro t ht
          rw [hx₁.tdns]
          exact freed_of_notMem fun hmem => hnd.2.2 t hmem t ht rfl
        have hkeep' : ∀ g' ∈ gs, ∀ t ∈ g'.2,
            x₁.host.tdns t = x.host.tdns t :=
          fun g' hg' t ht => hkeep t (mem_flat.2 ⟨g', hg', ht⟩)
        have hback : Leads x₁.host.nextTd (x₁.host.qhns q).tdns (flat gs)
            none := by
          obtain ⟨r, -, hback⟩ := Leads.append_iff.1 hleads
          rw [hx₁.first, ← hback.eq_head]
          exact hback.congr fun t ht => congrArg TDn.next (hkeep t ht)
        obtain ⟨x', fin, rest, rfl, hfin, hrest, hrun, hc⟩ := ih
          (sumAfter (addBytes x.host.tdns sum g.2) g.1) hback
          (fun t ht => by
            rw [hkeep t ht]
            exact hm t (List.mem_append_right _ ht))
          (fun g' hg' => (hgroups g' (List.mem_cons_of_mem _ hg')).congr
            fun t ht => by rw [hkeep' g' hg' t ht]; exact ⟨rfl, rfl⟩)
          (fun t ht hioc => by
            rw [hkeep t ht] at hioc
            rw [hlink t (List.mem_append_right _ ht) hioc]
            exact (congrArg TDn.next (hkeep t ht)).symm)
          (show _ ≤ fuel by omega) (by omega)
        refine ⟨x', g :: fin, rest, rfl, ?_, ?_, hloop.trans hrun, ?_⟩
        · intro g' hg' t ht
          rcases List.mem_cons.1 hg' with rfl | hg'
          · exact hdone t ht
          · rw [← hkeep' g' (List.mem_append_left _ hg') t ht]
            exact hfin g' hg' t ht
        · intro g' hg'
          obtain ⟨t, ht, hopen⟩ := hrest g' hg'
          have hmem : g' ∈ fin ++ rest :=
            List.mem_append_right _ (List.mem_of_mem_head? hg')
          exact ⟨t, ht, by rw [← hkeep' g' hmem t ht]; exact hopen⟩
        · rw [passCalls_congr fun g' hg' =>
            hkeep' g' (List.mem_append_left _ hg')] at hc
          rw [passCalls, flat_cons]
          exact hx₁.trans hc
      -- the first request is still open, so the loop ends
      · have hopen : ∃ t ∈ g.2, isDone (x.host.tdns t) = false := by
          push Not at hdone
          obtain ⟨t, ht, hne⟩ := hdone
          exact ⟨t, ht, Bool.eq_false_iff.2 hne⟩
        refine ⟨x, [], g :: gs, rfl, nofun, ?_, ?_, ?_⟩
        · intro g' hg'
          cases hg'
          exact hopen
        · exact scan_stop hleads hmg hgroup hopen (by omega)
        · refine Passed.refl ?_
          rw [flat_cons]
          exact hleads.eq_head

-- ================================================== groups with callbacks

/-- A transaction with a callback and its descriptors. -/
abbrev Grp := Nat × List TdId

/-- The same as a group. -/
def withCb (g : Grp) : CbGrp := (some g.1, g.2)

theorem flat_withCb (gs : List Grp) : flat (gs.map withCb) = flat gs := by
  unfold flat
  rw [List.flatMap_map]
  rfl

/-- The call for a group that is finished. -/
def successCall (q : QhId) (tdns : TdId → TDn) (g : Grp) : Call :=
  ⟨q, g.1, .success, (bytesOfTds tdns g.2 : Nat)⟩

/-- The sum that is reported as an `int`, if it is small enough. -/
theorem cInt_addBytes {tdns : TdId → TDn} {tds : List TdId}
    (hsmall : bytesOfTds tdns tds < 2 ^ 31) :
    cInt (addBytes tdns 0 tds) = (bytesOfTds tdns tds : Nat) := by
  have hnat := addBytes_toNat tdns 0 tds (by
    rw [UInt32.toNat_zero]
    omega)
  rw [UInt32.toNat_zero, Nat.zero_add] at hnat
  rw [cInt_of_lt (by rw [hnat]; exact hsmall), hnat]

/-- If every group has a callback each is called with the bytes of its own
group. -/
theorem passCalls_withCb {tdns : TdId → TDn} {gs : List Grp}
    (hsmall : ∀ g ∈ gs, bytesOfTds tdns g.2 < 2 ^ 31) :
    passCalls q tdns 0 (gs.map withCb) = gs.map (successCall q tdns) := by
  induction gs with
  | nil => rfl
  | cons g gs ih =>
      have hcall : cInt (addBytes tdns 0 g.2) = (bytesOfTds tdns g.2 : Nat) :=
        cInt_addBytes (hsmall g (List.mem_cons_self ..))
      rw [List.map_cons, List.map_cons, passCalls,
        ← ih fun g' hg' => hsmall g' (List.mem_cons_of_mem _ hg')]
      unfold withCb successCall groupCalls
      rw [hcall]
      rfl

/-- In a group with a callback the last descriptor alone interrupts. -/
theorem IsGroup.cb_of_ioc {tdns : TdId → TDn} {id : Nat} {tds : List TdId}
    (h : IsGroup tdns (some id) tds) {t : TdId} (ht : t ∈ tds)
    (hioc : hasIoc (tdns t) = true) : (tdns t).cb ≠ none := by
  induction tds with
  | nil => cases h
  | cons u tds ih =>
      cases tds with
      | nil =>
          rw [List.mem_singleton.1 ht, h.1]
          exact nofun
      | cons v tds =>
          rcases List.mem_cons.1 ht with rfl | ht
          · rw [h.2.1] at hioc
            cases hioc
          · exact ih h.2.2 ht

/-- What a pass over a queue head leaves. -/
abbrev Collected (junk : Junk) (q : QhId) (x x' : Xfer)
    (fin rest : List Grp) : Prop :=
  Passed junk q x x' (fin.map (successCall q x.host.tdns)) (flat fin)
    (flat rest)

/-- The pass over groups that all have callbacks. -/
theorem collectGroups_eq {free : Nat} {gs : List Grp} {fuel : Nat}
    (hleads : Leads x.host.nextTd (x.host.qhns q).tdns (flat gs) none)
    (hm : Mapped x.host.tdns (flat gs))
    (hgroups : ∀ g ∈ gs, IsGroup x.host.tdns (some g.1) g.2)
    (hsmall : ∀ g ∈ gs, (∀ t ∈ g.2, isDone (x.host.tdns t) = true) →
      bytesOfTds x.host.tdns g.2 < 2 ^ 31)
    (hlink : ∀ t ∈ flat gs, (x.host.tdns t).cb ≠ none →
      (junk.td t).next = x.host.nextTd t)
    (hfuel : (flat gs).length ≤ fuel) (hfree : (flat gs).length + 1 < free) :
    ∃ x' fin rest, gs = fin ++ rest
      ∧ (∀ g ∈ fin, ∀ t ∈ g.2, isDone (x.host.tdns t) = true)
      ∧ (∀ g ∈ rest.head?, ∃ t ∈ g.2, isDone (x.host.tdns t) = false)
      ∧ collectTds junk free q fuel x (x.host.qhns q).tdns
        (x.host.qhns q).tdns 0 = .ok x'
      ∧ Collected junk q x x' fin rest := by
  rw [← flat_withCb] at hleads hm hfuel hfree
  obtain ⟨x', fin, rest, heq, hfin, hrest, hrun, hc⟩ :=
    collectTds_eq 0 hleads hm
      (fun g (hg : g ∈ gs.map withCb) => by
        obtain ⟨g', hg', rfl⟩ := List.mem_map.1 hg
        exact hgroups g' hg')
      (fun t ht hioc => by
        rw [flat_withCb] at ht
        obtain ⟨g, hg, htg⟩ := mem_flat.1 ht
        exact hlink t ht ((hgroups g hg).cb_of_ioc htg hioc))
      hfuel hfree
  obtain ⟨fin, rest, rfl, rfl, rfl⟩ := List.map_eq_append_iff.1 heq
  have hdone : ∀ g ∈ fin, ∀ t ∈ g.2, isDone (x.host.tdns t) = true :=
    fun g hg => hfin (withCb g) (List.mem_map_of_mem hg)
  rw [flat_withCb, flat_withCb, passCalls_withCb fun g hg =>
    hsmall g (List.mem_append_left _ hg) (hdone g hg)] at hc
  refine ⟨x', fin, rest, rfl, hdone, ?_, hrun, hc⟩
  intro g hg
  exact hrest (withCb g) (by rw [List.head?_map, hg]; rfl)

end ProjectsLibs.Ehci
