/-
The bytes that the tokens of a transaction ask for and leave, and the loop
that waits for them (`wait_eq`).

# How the count is followed

A token is put together from fields by `or`, and the count is the field
of 15 bits from bit 16 on. Reading the count of an `or` is the `or` of
the counts, so for each kind of token it is enough to look at the parts:
the packet type, the toggle and the status do not reach into the field,
and a count below 2 to the power of 15 is read back as it was written.
From this comes what `qtd_alloc` asks for in total, transaction by
transaction, and that what fits into the five pages of a descriptor fits
into the field.

# The waiting loop

`ehci_wait_for_completion` reads each descriptor until its status byte is
settled, at most 3000 times. What the controller does meanwhile is any
sequence of reads that settles (`Settles`). One lemma says what a loop
over one descriptor returns, by induction on the number of tries; the
other adds the descriptors up, by induction on the chain. The sum is only
spoken of when every descriptor was seen to be finished, as the loop
gives -1 otherwise.
-/
import ProjectsLibs.Lib.Fields
import ProjectsLibs.Ehci.Contract
import ProjectsLibs.Ehci.Proofs.Completion

namespace ProjectsLibs.Ehci

open Lib

-- ============================================================== the field

/-- The byte count is 15 bits wide and stands at bit 16. -/
theorem tdtokBytes_eq (len : UInt32) : tdtokBytes len = place 15 16 len := by
  apply eq_of_testBit
  intro b hb
  have hlow : (0x7fff : UInt32) = low 15 := by decide
  have hshift : testBit (tdtokBytes len) b
      = (decide (16 ≤ b) && testBit (len &&& 0x7fff) (b - 16)) := by
    unfold testBit tdtokBytes
    have hb' : b - 16 < 32 := by omega
    by_cases hle : 16 ≤ b
    · simp [hb, hb', hle]
    · simp [hb, Nat.lt_of_not_le hle]
  rw [hshift, testBit_place len (by decide) (by decide) hb, hlow, testBit_and,
    testBit_low (by decide)]
  by_cases hle : 16 ≤ b
  · have hdec : decide (b - 16 < 15) = decide (16 ≤ b ∧ b < 16 + 15) := by
      rw [decide_eq_decide]
      omega
    rw [decide_eq_true hle, Bool.true_and, hdec, Bool.and_comm]
  · simp [hle]

theorem tdtokGetBytes_eq (w : UInt32) : tdtokGetBytes w = take 15 16 w := by
  have hlow : (0x7fff : UInt32) = low 15 := by decide
  unfold tdtokGetBytes
  rw [tdtokBytes_eq, hlow]
  exact shiftRight_and_place w (by decide) (by decide)

/-- The count of a token put together from parts is put together from those
of the parts. -/
theorem tdtokGetBytes_or (v w : UInt32) :
    tdtokGetBytes (v ||| w) = tdtokGetBytes v ||| tdtokGetBytes w := by
  rw [tdtokGetBytes_eq, tdtokGetBytes_eq, tdtokGetBytes_eq]
  exact take_or v w (by decide) (by decide)

/-- A count below 2 to the power of 15 is read back as it was written. -/
theorem tdtokGetBytes_tdtokBytes {len : UInt32} (h : len.toNat < 2 ^ 15) :
    tdtokGetBytes (tdtokBytes len) = len := by
  rw [tdtokGetBytes_eq, tdtokBytes_eq,
    ← @UInt32.zero_or (place 15 16 len)]
  exact take_or_place (by decide) (by decide) Clear.zero h

/-- The bits of the packet type do not reach into the count. -/
theorem tdtokGetBytes_pidBits (type : XactType) :
    tdtokGetBytes (pidBits type) = 0 := by
  cases type with
  | pidIn => decide
  | pidOut => decide
  | pidSetup => decide

/-- The token of a transaction counts its bytes. -/
theorem xactToken_bytes (ep : Endpoint) (speed : Speed) (total : UInt32)
    {x : Xact} (h : x.len.toNat < 2 ^ 15) :
    tdtokGetBytes (xactToken ep speed total x) = x.len := by
  have hdt : tdtokGetBytes (mask tdtokDt) = 0 := by decide
  have hcerr : tdtokGetBytes tdtokCErr = 0 := by decide
  have hhalt : tdtokGetBytes (mask tdtokShalted) = 0 := by decide
  have hping : tdtokGetBytes (mask tdtokPingstate) = 0 := by decide
  unfold xactToken
  split_ifs
  all_goals
    simp only [tdtokGetBytes_or, tdtokGetBytes_tdtokBytes h,
      tdtokGetBytes_pidBits, hdt, hcerr, hhalt, hping,
      UInt32.or_zero, UInt32.zero_or]

theorem zlpToken_bytes (stage prev : UInt32) :
    tdtokGetBytes (zlpToken stage prev) = 0 := by
  have hdt : tdtokGetBytes (mask tdtokDt) = 0 := by decide
  have hcerr : tdtokGetBytes tdtokCErr = 0 := by decide
  have hhalt : tdtokGetBytes (mask tdtokShalted) = 0 := by decide
  unfold zlpToken
  split_ifs
  all_goals
    simp only [tdtokGetBytes_or, tdtokGetBytes_pidBits, hdt, hcerr, hhalt,
      UInt32.or_zero]

/-- Enabling a descriptor leaves the count alone. -/
theorem TDn.enable_bytes (tdn : TDn) :
    tdtokGetBytes tdn.enable.token = tdtokGetBytes tdn.token := by
  have hactive : tdtokGetBytes (mask tdtokSactive) = 0 := by decide
  show tdtokGetBytes (tdn.token &&& ~~~mask tdtokShalted ||| mask tdtokSactive)
    = _
  rw [tdtokGetBytes_or, hactive, UInt32.or_zero]
  apply eq_of_testBit
  intro b _
  rw [tdtokGetBytes_eq, tdtokGetBytes_eq,
    testBit_take _ (by decide) (by decide),
    testBit_take _ (by decide) (by decide)]
  by_cases hb : b < 15
  · rw [testBit_and_not_mask _ (by decide) (by omega)]
    have hne : tdtokShalted ≠ 16 + b := by
      unfold tdtokShalted
      omega
    rw [decide_eq_true hne, Bool.and_true]
  · rw [decide_eq_false hb, Bool.and_false, Bool.and_false]

-- =========================================================== allocation

/-- The bytes of descriptors that are filled in. -/
theorem fillTds_bytes {cb : Option Nat} {L : List (TdId × UInt32 × UInt32)}
    {tdns : TdId → TDn} (hnd : (L.map Prod.fst).Nodup) {u : TdId}
    {pu w : UInt32} (hu : (u, pu, w) ∈ L) :
    tdtokGetBytes (fillTds cb L tdns u).token = tdtokGetBytes w := by
  have hioc : tdtokGetBytes (mask tdtokIoc) = 0 := by decide
  induction L generalizing tdns with
  | nil => cases hu
  | cons x L ih =>
      obtain ⟨t, ptd, token⟩ := x
      cases L with
      | nil =>
          obtain ⟨rfl, rfl, rfl⟩ : u = t ∧ pu = ptd ∧ w = token := by
            simpa using hu
          show tdtokGetBytes (Function.update tdns u _ u).token = _
          rw [Function.update_self]
          show tdtokGetBytes (w ||| mask tdtokIoc) = tdtokGetBytes w
          rw [tdtokGetBytes_or, hioc, UInt32.or_zero]
      | cons z L =>
          obtain ⟨hnot, hnd'⟩ := List.nodup_cons.1 hnd
          rcases List.mem_cons.1 hu with hu | hu
          · obtain ⟨rfl, rfl, rfl⟩ : u = t ∧ pu = ptd ∧ w = token := by
              simpa using hu
            show tdtokGetBytes
              (fillTds cb (z :: L) (Function.update tdns u _) u).token = _
            rw [fillTds_of_notMem hnot, Function.update_self]
          · exact ih hnd' hu

/-- The bytes that `qtd_alloc` asks for. -/
theorem qtdAlloc_bytes {ep : Endpoint} {speed : Speed} {xact : List Xact}
    {cb : Option Nat} {blocks : List (TdId × UInt32)} {tdns : TdId → TDn}
    (hlen : blocks.length = (groupTokens ep speed xact).length)
    (hnd : (blocks.map Prod.fst).Nodup) :
    (blocks.map Prod.fst).map
        (fun t => tdtokGetBytes (qtdAlloc ep speed xact cb blocks tdns t).token)
      = (groupTokens ep speed xact).map tdtokGetBytes := by
  unfold qtdAlloc
  generalize groupTokens ep speed xact = tokens at hlen
  have hfst := map_zipWith_blocks hlen
  apply List.ext_getElem
  · simp [hlen]
  · intro i hi hi'
    have hi₀ : i < blocks.length := by simpa using hi
    have hi₁ : i < tokens.length := by simpa using hi'
    have hmem : (blocks[i].1, blocks[i].2, tokens[i])
        ∈ List.zipWith (fun block token => (block.1, block.2, token))
          blocks tokens := by
      refine List.mem_iff_getElem.2 ⟨i, by simpa using ⟨hi₀, hi₁⟩,
        ?_⟩
      simp
    have hnd' := hnd
    rw [← hfst] at hnd'
    rw [List.getElem_map, List.getElem_map, List.getElem_map]
    exact fillTds_bytes hnd' hmem

/-- The bytes of a control request: those of the setup packet, the data,
and none for the status. -/
theorem control_bytes (c : Control) {maxPkt : UInt32} {speed : Speed}
    (hlen : c.len < 2 ^ 15) :
    (groupTokens ⟨.control, maxPkt⟩ speed c.xacts).map tdtokGetBytes
      = 8 :: (c.data.map fun d => UInt32.ofNat d.len).toList ++ [0] := by
  have hsetup : tdtokGetBytes (xactToken ⟨.control, maxPkt⟩ speed 0
      ⟨.pidSetup, 8⟩) = 8 := xactToken_bytes _ _ _ (by decide)
  unfold groupTokens Control.xacts
  rw [if_pos (Or.inr rfl), List.map_append, List.map_singleton,
    zlpToken_bytes]
  congr 1
  cases hdata : c.data with
  | none =>
      show [tdtokGetBytes _] = [8]
      rw [hsetup]
  | some d =>
      have hd : d.len < 2 ^ 15 := by
        rw [Control.len, hdata] at hlen
        exact hlen
      show [tdtokGetBytes _, tdtokGetBytes _] = [8, _]
      rw [hsetup, xactToken_bytes]
      show (UInt32.ofNat d.len).toNat < 2 ^ 15
      rw [UInt32.toNat_ofNat']
      omega

/-- A buffer that fits is small. -/
theorem bufCount_small {len fuel filled cnt : Nat}
    (hfuel : len ≤ filled + fuel)
    (h : bufCount len fuel filled cnt ≤ 4) :
    len ≤ filled + 0x1000 * (4 - cnt) := by
  induction fuel generalizing filled cnt with
  | zero => omega
  | succ fuel ih =>
      unfold bufCount at h
      split at h
      · next hlt =>
          have hcnt : cnt + 1 ≤ 4 := by
            by_contra hcnt
            have hmono : ∀ fuel filled cnt,
                cnt ≤ bufCount len fuel filled cnt := by
              intro fuel
              induction fuel with
              | zero => exact fun _ _ => Nat.le_refl _
              | succ fuel ih =>
                  intro filled cnt
                  unfold bufCount
                  split
                  · exact Nat.le_trans (Nat.le_succ cnt) (ih _ _)
                  · exact Nat.le_refl _
            have := hmono fuel (filled + 0x1000) (cnt + 1)
            omega
          have hle := ih (by omega) h
          omega
      · omega

/-- What fits into the five pages of a descriptor fits into the count. -/
theorem len_of_buffersFit {offset len : Nat}
    (h : buffersFit offset len = true) :
    len < 2 ^ 15 := by
  have hle := bufCount_small (Nat.le_add_left ..) (of_decide_eq_true h)
  omega

-- ================================================================ waiting

/-- A status byte that the loop accepts. -/
theorem success_of_byte {w : UInt32} (h : w &&& 0xff = 0 ∨ w &&& 0xff = 1) :
    qtdGetStatus w = .success := by
  have hbit : ∀ b, testBit 0xff b = true → testBit (w &&& 0xff) b
      = testBit w b := by
    intro b hb
    rw [testBit_and, hb, Bool.and_true]
  rw [status_success_iff, ← hbit tdtokSactive (by decide),
    ← hbit tdtokShalted (by decide)]
  rcases h with h | h
  · rw [h]
    decide
  · rw [h]
    decide

/-- A descriptor whose bytes the loop reads is finished with them. -/
theorem waitTd_eq {reads : Nat → UInt32} {final bytes : UInt32}
    (hsettles : Settles reads final) {cnt i : Nat}
    (h : waitTd reads cnt i = some bytes) :
    qtdGetStatus final = .success ∧ bytes = tdtokGetBytes final := by
  induction cnt generalizing i with
  | zero =>
      unfold waitTd at h
      dsimp only at h
      split at h
      · next hbyte => exact settled hsettles hbyte h
      · cases h
  | succ cnt ih =>
      unfold waitTd at h
      dsimp only at h
      split at h
      · next hbyte => exact settled hsettles hbyte h
      · exact ih h
where
  settled {reads : Nat → UInt32} {final bytes : UInt32}
      (hsettles : Settles reads final) {i : Nat}
      (hbyte : reads i &&& 0xff = 0 ∨ reads i &&& 0xff = 1)
      (h : some (tdtokGetBytes (reads (i + 1))) = some bytes) :
      qtdGetStatus final = .success ∧ bytes = tdtokGetBytes final := by
    have hdone := success_of_byte hbyte
    rcases hsettles i with hactive | hfinal
    · rw [(status_success_iff _).1 hdone |>.1] at hactive
      cases hactive
    · rw [hfinal i (Nat.le_refl i)] at hdone
      rw [hfinal (i + 1) (Nat.le_succ i)] at h
      exact ⟨hdone, (Option.some.inj h).symm⟩

/-- The loop that waits for descriptors returns: -1, or what the
descriptors left, all of which are finished then. -/
theorem wait_eq {host : AsyncHost} {reads : TdId → Nat → UInt32}
    {tdns : TdId → TDn} {p : Option TdId} {tds : List TdId} {fuel : Nat}
    (sum : UInt32) (hleads : Leads host.nextTd p tds none)
    (hm : Mapped host.tdns tds)
    (hsettles : ∀ t ∈ tds, Settles (reads t) (tdns t).token)
    (hfuel : tds.length ≤ fuel) :
    ∃ r, ehciWaitForCompletion host reads fuel p sum = .ok r
      ∧ (r = -1 ∨ (∀ t ∈ tds, isDone (tdns t) = true)
        ∧ r = cInt (addBytes tdns sum tds)) := by
  induction tds generalizing p fuel sum with
  | nil =>
      obtain rfl : p = none := hleads
      refine ⟨cInt sum, ?_, .inr ⟨nofun, rfl⟩⟩
      unfold ehciWaitForCompletion
      rfl
  | cons t tds ih =>
      obtain ⟨rfl, hrest⟩ := hleads
      obtain ⟨fuel, rfl⟩ : ∃ f, fuel = f + 1 :=
        ⟨fuel - 1, by rw [List.length_cons] at hfuel; omega⟩
      have htd : (host.tdns t).td = true := hm t (List.mem_cons_self ..)
      rw [ehciWaitForCompletion, if_neg (by rw [htd]; decide)]
      cases hwait : waitTd (reads t) 3000 0 with
      | none => exact ⟨-1, rfl, .inl rfl⟩
      | some bytes =>
          obtain ⟨hdone, hbytes⟩ :=
            waitTd_eq (hsettles t (List.mem_cons_self ..)) hwait
          obtain ⟨r, hrun, hr⟩ := ih (sum + bytes) hrest
            (fun u hu => hm u (List.mem_cons_of_mem _ hu))
            (fun u hu => hsettles u (List.mem_cons_of_mem _ hu))
            (Nat.le_of_succ_le_succ hfuel)
          refine ⟨r, hrun, hr.imp id fun ⟨hall, hr⟩ =>
            ⟨fun u hu => ?_, ?_⟩⟩
          · rcases List.mem_cons.1 hu with rfl | hu
            · exact decide_eq_true hdone
            · exact hall u hu
          · rw [hr, hbytes]
            rfl

end ProjectsLibs.Ehci
