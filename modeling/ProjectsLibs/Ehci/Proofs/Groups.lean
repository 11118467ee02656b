/-
What the calls do to the descriptors of a queue head.

The descriptors are groups one behind the other, each for a transaction
(`IsGroup`): only the last of a group interrupts and has the callback.
`qtd_alloc` makes a group, `qtd_enqueue` puts it behind the others, a pass
of the driver takes away the finished groups at the front
(`collectTds_eq`), and the destruction of the queue head all of them
(`destroyTds_eq`).

# Groups

The driver has no mark where a request begins. It goes along the list and
takes the descriptors up to the next one that interrupts for one request,
so whether requests are told apart rests on the interrupt bits. A token
is put together from fields none of which reaches into that bit, and
`qtd_alloc` sets it in the last descriptor only. All lemmas about passes,
cancelling and destruction are about lists of groups, and what they need
of a descriptor is its callback and this bit (`IsGroup.congr`), so they
hold while the controller writes to the rest of the token.
-/
import ProjectsLibs.Ehci.System

namespace ProjectsLibs.Ehci

open Lib

-- =============================================================== tokens

/-- A descriptor has succeeded if it is neither active nor halted. -/
theorem status_success_iff (w : UInt32) :
    qtdGetStatus w = .success
      ↔ testBit w tdtokSactive = false
        ∧ testBit w tdtokShalted = false := by
  unfold qtdGetStatus
  simp only [and_mask_iff w (show tdtokSactive < 32 by decide),
    and_mask_iff w (show tdtokShalted < 32 by decide)]
  cases testBit w tdtokSactive with
  | true => simp
  | false =>
      cases testBit w tdtokShalted with
      | true =>
          simp only [Bool.false_eq_true, if_false, if_true]
          split
          · simp
          · simp
      | false => simp

/-- The byte count does not reach into the interrupt bit. -/
theorem testBit_tdtokBytes (len : UInt32) :
    testBit (tdtokBytes len) tdtokIoc = false := by
  simp [testBit, tdtokBytes, tdtokIoc]

theorem testBit_pidBits (type : XactType) :
    testBit (pidBits type) tdtokIoc = false := by
  cases type <;> decide

/-- The token of a packet does not interrupt. -/
theorem xactToken_ioc (ep : Endpoint) (speed : Speed) (total : UInt32)
    (x : Xact) : testBit (xactToken ep speed total x) tdtokIoc = false := by
  have hdt : testBit (mask tdtokDt) tdtokIoc = false := by decide
  have hcerr : testBit tdtokCErr tdtokIoc = false := by decide
  have hhalt : testBit (mask tdtokShalted) tdtokIoc = false := by decide
  have hping : testBit (mask tdtokPingstate) tdtokIoc = false := by decide
  unfold xactToken
  split_ifs
  all_goals
    simp only [testBit_or, testBit_tdtokBytes, testBit_pidBits, hdt, hcerr,
      hhalt, hping, testBit_zero, Bool.or_false]

/-- Nor does that of a zero length packet. -/
theorem zlpToken_ioc (stage prev : UInt32) :
    testBit (zlpToken stage prev) tdtokIoc = false := by
  have hdt : testBit (mask tdtokDt) tdtokIoc = false := by decide
  have hcerr : testBit tdtokCErr tdtokIoc = false := by decide
  have hhalt : testBit (mask tdtokShalted) tdtokIoc = false := by decide
  unfold zlpToken
  split_ifs
  all_goals
    simp only [testBit_or, testBit_pidBits, hdt, hcerr, hhalt, Bool.or_false]

/-- No token asks for an interrupt before the last one is marked. -/
theorem groupTokens_ioc (ep : Endpoint) (speed : Speed) (xact : List Xact) :
    ∀ w ∈ groupTokens ep speed xact, testBit w tdtokIoc = false := by
  have hloop : ∀ xact total, ∀ w ∈ xactTokens ep speed total xact,
      testBit w tdtokIoc = false := by
    intro xact
    induction xact with
    | nil => nofun
    | cons x xact ih =>
        intro total w hw
        rcases List.mem_cons.1 hw with rfl | hw
        · exact xactToken_ioc ep speed total x
        · exact ih (total + x.len) w hw
  intro w hw
  unfold groupTokens at hw
  split_ifs at hw
  · rcases List.mem_append.1 hw with hw | hw
    · exact hloop xact 0 w hw
    · rw [List.mem_singleton.1 hw]
      exact zlpToken_ioc _ _
  · exact hloop xact 0 w hw

/-- A request has at least one descriptor. -/
theorem groupTokens_ne_nil (ep : Endpoint) (speed : Speed) {xact : List Xact}
    (h : xact ≠ []) : groupTokens ep speed xact ≠ [] := by
  unfold groupTokens
  split_ifs
  · simp
  · cases xact with
    | nil => exact absurd rfl h
    | cons x xact => exact nofun

-- =============================================================== groups

/-- What tells requests apart is the callback and the interrupt bit. -/
theorem IsGroup.congr {tdns tdns' : TdId → TDn} {cb : Option Nat}
    {tds : List TdId} (h : IsGroup tdns cb tds)
    (hsame : ∀ t ∈ tds, (tdns' t).cb = (tdns t).cb
      ∧ hasIoc (tdns' t) = hasIoc (tdns t)) : IsGroup tdns' cb tds := by
  induction tds with
  | nil => exact h
  | cons t tds ih =>
      obtain ⟨hcb, hioc⟩ := hsame t (List.mem_cons_self ..)
      cases tds with
      | nil => exact ⟨hcb.trans h.1, hioc.trans h.2⟩
      | cons u tds =>
          refine ⟨hcb.trans h.1, hioc.trans h.2.1, ih h.2.2 ?_⟩
          exact fun v hv => hsame v (List.mem_cons_of_mem t hv)

/-- The end of a group. -/
theorem IsGroup.last {tdns : TdId → TDn} {cb : Option Nat}
    {tds : List TdId} (h : IsGroup tdns cb tds) :
    ∃ front t, tds = front ++ [t] ∧ (tdns t).cb = cb
      ∧ ∀ u ∈ front, (tdns u).cb = none := by
  induction tds with
  | nil => cases h
  | cons t tds ih =>
      cases tds with
      | nil => exact ⟨[], t, rfl, h.1, nofun⟩
      | cons u tds =>
          obtain ⟨front, v, heq, hcb, hfront⟩ := ih h.2.2
          refine ⟨t :: front, v, by rw [heq, List.cons_append], hcb, ?_⟩
          intro w hw
          rcases List.mem_cons.1 hw with rfl | hw
          · exact h.1
          · exact hfront w hw

/-- Only the descriptors of the request are filled in. -/
theorem fillTds_of_notMem {cb : Option Nat}
    {L : List (TdId × UInt32 × UInt32)}
    {tdns : TdId → TDn} {u : TdId} (hu : u ∉ L.map Prod.fst) :
    fillTds cb L tdns u = tdns u := by
  induction L generalizing tdns with
  | nil => rfl
  | cons x L ih =>
      obtain ⟨t, ptd, token⟩ := x
      rw [List.map_cons, List.mem_cons, not_or] at hu
      cases L with
      | nil => exact Function.update_of_ne hu.1 ..
      | cons y L =>
          show fillTds cb (y :: L) (Function.update tdns t _) u = _
          rw [ih hu.2, Function.update_of_ne hu.1]

/-- The descriptors that are filled in have their `struct TD`. -/
theorem fillTds_mapped {cb : Option Nat} {L : List (TdId × UInt32 × UInt32)}
    {tdns : TdId → TDn} (hnd : (L.map Prod.fst).Nodup) :
    Mapped (fillTds cb L tdns) (L.map Prod.fst) := by
  induction L generalizing tdns with
  | nil => nofun
  | cons x L ih =>
      obtain ⟨t, ptd, token⟩ := x
      obtain ⟨hnot, hnd'⟩ := List.nodup_cons.1 hnd
      intro u hu
      cases L with
      | nil =>
          have hut : u = t := by simpa using hu
          rw [hut]
          show (Function.update tdns t _ t).td = true
          rw [Function.update_self]
      | cons y L =>
          show (fillTds cb (y :: L) (Function.update tdns t _) u).td = true
          rcases List.mem_cons.1 hu with rfl | hu
          · rw [fillTds_of_notMem hnot, Function.update_self]
          · exact ih hnd' u hu

/-- The descriptors that are filled in are a group. -/
theorem fillTds_eq {cb : Option Nat} {L : List (TdId × UInt32 × UInt32)}
    {tdns : TdId → TDn} (hne : L ≠ []) (hnd : (L.map Prod.fst).Nodup)
    (hioc : ∀ x ∈ L, testBit x.2.2 tdtokIoc = false) :
    (∀ t ∉ L.map Prod.fst, fillTds cb L tdns t = tdns t)
      ∧ Leads (fun t => (fillTds cb L tdns t).next) (L.map Prod.fst).head?
        (L.map Prod.fst) none
      ∧ IsGroup (fillTds cb L tdns) cb (L.map Prod.fst) := by
  induction L generalizing tdns with
  | nil => exact absurd rfl hne
  | cons x L ih =>
      obtain ⟨t, ptd, token⟩ := x
      cases L with
      | nil =>
          refine ⟨?_, ⟨rfl, ?_⟩, ?_, ?_⟩
          · intro u hu
            have hut : u ≠ t := by simpa using hu
            simp [fillTds, hut]
          · show (fillTds cb [(t, ptd, token)] tdns t).next = none
            simp [fillTds]
          · simp [fillTds]
          · simp only [hasIoc, fillTds, Function.update_self]
            rw [testBit_or_mask _ (by decide)]
            simp
      | cons y L =>
          obtain ⟨hnot, hnd'⟩ := List.nodup_cons.1 hnd
          obtain ⟨hsame, hleads, hgroup⟩ := @ih (Function.update tdns t {
            td := true
            ptd := ptd
            tdNext := y.2.1
            token := token
            cb := none
            next := some y.1 }) nofun hnd'
            (fun x hx => hioc x (List.mem_cons_of_mem _ hx))
          have hunfold : fillTds cb ((t, ptd, token) :: y :: L) tdns
              = fillTds cb (y :: L) (Function.update tdns t {
                td := true
                ptd := ptd
                tdNext := y.2.1
                token := token
                cb := none
                next := some y.1 }) := rfl
          rw [hunfold]
          have ht := hsame t hnot
          rw [Function.update_self] at ht
          refine ⟨?_, ⟨rfl, ?_⟩, ?_, ?_, hgroup⟩
          · intro u hu
            rw [List.map_cons, List.mem_cons, not_or] at hu
            rw [hsame u hu.2, Function.update_of_ne hu.1]
          · show Leads _ (fillTds cb (y :: L) _ t).next _ _
            rw [ht]
            exact hleads
          · exact congrArg TDn.cb ht
          · unfold hasIoc
            rw [ht]
            have hfirst := hioc (t, ptd, token) (List.mem_cons_self ..)
            exact hfirst

/-- The blocks with their tokens are the blocks. -/
theorem map_zipWith_blocks {blocks : List (TdId × UInt32)}
    {tokens : List UInt32} (hlen : blocks.length = tokens.length) :
    (List.zipWith (fun block token => (block.1, block.2, token))
      blocks tokens).map Prod.fst = blocks.map Prod.fst := by
  rw [List.map_zipWith]
  apply List.ext_getElem
  · simp [hlen]
  · intro i hi hi'
    simp

/-- `qtd_alloc` makes a group of its blocks. -/
theorem qtdAlloc_eq {ep : Endpoint} {speed : Speed} {xact : List Xact}
    {cb : Option Nat} {blocks : List (TdId × UInt32)} {tdns : TdId → TDn}
    (hxact : xact ≠ [])
    (hlen : blocks.length = (groupTokens ep speed xact).length)
    (hnd : (blocks.map Prod.fst).Nodup) :
    (∀ t ∉ blocks.map Prod.fst,
        qtdAlloc ep speed xact cb blocks tdns t = tdns t)
      ∧ Leads (fun t => (qtdAlloc ep speed xact cb blocks tdns t).next)
        (blocks.map Prod.fst).head? (blocks.map Prod.fst) none
      ∧ IsGroup (qtdAlloc ep speed xact cb blocks tdns) cb
        (blocks.map Prod.fst)
      ∧ Mapped (qtdAlloc ep speed xact cb blocks tdns)
        (blocks.map Prod.fst) := by
  have hioc := groupTokens_ioc ep speed xact
  have hne := groupTokens_ne_nil ep speed hxact
  unfold qtdAlloc
  generalize groupTokens ep speed xact = tokens at hlen hioc hne
  have hfst := map_zipWith_blocks hlen
  have hmem : ∀ x ∈ List.zipWith
      (fun (block : TdId × UInt32) token => (block.1, block.2, token))
      blocks tokens, testBit x.2.2 tdtokIoc = false := by
    intro x hx
    obtain ⟨i, hi, rfl⟩ := List.mem_iff_getElem.1 hx
    rw [List.getElem_zipWith]
    exact hioc _ (List.getElem_mem _)
  rw [← hfst] at hnd ⊢
  have hblocks : List.zipWith
      (fun (block : TdId × UInt32) token => (block.1, block.2, token))
      blocks tokens ≠ [] := by
    intro hnil
    rw [List.zipWith_eq_nil_iff] at hnil
    rcases hnil with hnil | hnil
    · rw [hnil] at hlen
      exact hne (List.length_eq_zero_iff.1 hlen.symm)
    · exact hne hnil
  obtain ⟨hsame, hleads, hgroup⟩ := fillTds_eq hblocks hnd hmem
  exact ⟨hsame, hleads, hgroup, fillTds_mapped hnd⟩

end ProjectsLibs.Ehci
