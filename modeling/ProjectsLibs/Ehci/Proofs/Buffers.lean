/-
When a transfer descriptor covers its buffer (`covers_buffer`).

The loop stores the pages one after the other (`bufLoop_getElem`), as many
as the buffer touches after its first (`bufCount_le_iff`). The limit on the
length of a transfer is five pages, which is one too many for a buffer
that does not start at a page.

# Counting pages

The loop adds a page until the length is covered, beginning with what the
first page holds from the offset on. How many stores it makes is a
quotient (`bufCount`), and the comparison of that number with five is the
condition: the offset in the first page and the length together are at
most five pages. The code compares the length alone, which admits a
buffer that touches a sixth page.

If it fits, the address of a byte is computed from the pointer of its
page. The controller adds the offset of the buffer to the number of the
byte and divides by the size of a page; that the page found is the one
stored at this index is arithmetic with quotients and remainders.
-/
import ProjectsLibs.Lib.Words
import ProjectsLibs.Ehci.Buffers
import ProjectsLibs.Ehci.Proofs.Bytes

namespace ProjectsLibs.Ehci

open Lib

variable {paddr : UInt32} {len : Nat}

-- ============================================================== addresses

/-- The lowest 12 bits are the offset in the page. -/
theorem toNat_and_fff (w : UInt32) :
    (w &&& 0xfff).toNat = w.toNat % 0x1000 := by
  rw [UInt32.toNat_and]
  exact Nat.and_two_pow_sub_one_eq_mod w.toNat 12

/-- The start of a page. -/
theorem toNat_and_not_fff (w : UInt32) :
    (w &&& ~~~(0xfff : UInt32)).toNat = w.toNat / 0x1000 * 0x1000 := by
  apply toNat_eq_of_testBit
  · have hlt := w.toNat_lt
    omega
  · intro b hb
    have hlow : (0xfff : UInt32) = low 12 := rfl
    have hpage : w.toNat / 0x1000 * 0x1000 = w.toNat >>> 12 <<< 12 := by
      rw [Nat.shiftLeft_eq, Nat.shiftRight_eq_div_pow]
    have hbit : w.toNat.testBit b = testBit w b :=
      BitVec.testBit_toNat w.toBitVec
    rw [testBit_and_not _ _ hb, hlow, testBit_low (by decide), hpage,
      Nat.testBit_shiftLeft, Nat.testBit_shiftRight]
    by_cases hle : 12 ≤ b
    · rw [decide_eq_false (Nat.not_lt.2 hle), decide_eq_true hle,
        Nat.add_sub_cancel' hle, hbit, Bool.not_false, Bool.and_true,
        Bool.true_and]
    · rw [decide_eq_true (Nat.lt_of_not_le hle), decide_eq_false hle,
        Bool.not_true, Bool.and_false, Bool.false_and]

/-- A page that the buffer touches. -/
theorem toNat_pagePointer {cnt : Nat}
    (h : paddr.toNat / 0x1000 * 0x1000 + 0x1000 * cnt < 2 ^ 32) :
    (pagePointer paddr cnt).toNat
      = paddr.toNat / 0x1000 * 0x1000 + 0x1000 * cnt := by
  have hsum : (paddr + 0x1000 * UInt32.ofNat cnt).toNat
      = paddr.toNat + 0x1000 * cnt := by
    have hmul : (0x1000 * UInt32.ofNat cnt).toNat = 0x1000 * cnt := by
      rw [UInt32.toNat_mul]
      show 0x1000 * (cnt % 2 ^ 32) % 2 ^ 32 = _
      rw [Nat.mod_eq_of_lt (show cnt < 2 ^ 32 by omega)]
      exact Nat.mod_eq_of_lt (by omega)
    rw [UInt32.toNat_add, hmul]
    exact Nat.mod_eq_of_lt (by omega)
  unfold pagePointer
  rw [toNat_and_not_fff, hsum]
  omega

-- =============================================================== the loop

/-- The stores of the loop, as many as `bufCount` counts. -/
theorem length_bufLoop (paddr : UInt32) (len fuel filled cnt : Nat) :
    cnt + (bufLoop paddr len fuel filled cnt).length
      = bufCount len fuel filled cnt := by
  induction fuel generalizing filled cnt with
  | zero => rfl
  | succ fuel ih =>
      unfold bufLoop bufCount
      split
      · rw [List.length_cons, ← ih]
        omega
      · rfl

/-- The pointer stored in each round is that of the next page. -/
theorem bufLoop_getElem (paddr : UInt32) (len : Nat) {fuel filled cnt i : Nat}
    (hi : i < (bufLoop paddr len fuel filled cnt).length) :
    (bufLoop paddr len fuel filled cnt)[i]
      = (cnt + 1 + i, pagePointer paddr (cnt + 1 + i)) := by
  induction fuel generalizing filled cnt i with
  | zero => exact absurd hi (Nat.not_lt_zero i)
  | succ fuel ih =>
      unfold bufLoop at hi ⊢
      split at hi
      · rename_i hlt
        simp only [if_pos hlt]
        cases i with
        | zero => rfl
        | succ i =>
            rw [List.getElem_cons_succ, ih]
            congr 1
            · omega
            · congr 1
              omega
      · exact absurd hi (Nat.not_lt_zero i)

/-- The loop ends with the buffer covered, and no page earlier. -/
theorem bufCount_le_iff {fuel filled cnt n : Nat}
    (hfuel : len ≤ filled + fuel)
    (hn : cnt ≤ n) :
    bufCount len fuel filled cnt ≤ n
      ↔ len ≤ filled + 0x1000 * (n - cnt) := by
  induction fuel generalizing filled cnt with
  | zero =>
      unfold bufCount
      constructor
      · intro _
        omega
      · intro _
        exact hn
  | succ fuel ih =>
      unfold bufCount
      split
      · rename_i hlt
        by_cases hcnt : cnt + 1 ≤ n
        · rw [ih (by omega) hcnt]
          omega
        · have hle := length_bufLoop 0 len fuel (filled + 0x1000) (cnt + 1)
          omega
      · omega

/-- The last page that is stored. -/
def lastPage (paddr : UInt32) (len : Nat) : Nat :=
  bufCount len len (0x1000 - paddr.toNat % 0x1000) 0

/-- A buffer ends by page `n` if the offset and the length together fit. -/
theorem lastPage_le_iff (n : Nat) :
    lastPage paddr len ≤ n
      ↔ paddr.toNat % 0x1000 + len ≤ 0x1000 * (n + 1) := by
  unfold lastPage
  rw [bufCount_le_iff (Nat.le_add_left ..) (Nat.zero_le n)]
  have hoff : paddr.toNat % 0x1000 < 0x1000 := Nat.mod_lt _ (by decide)
  omega

-- =============================================================== the array

/-- If all stores to one place agree, the last of them is no other. -/
theorem storedBuf_eq {stores : List (Nat × UInt32)} {i : Nat} {v : UInt32}
    (hmem : (i, v) ∈ stores) (hsame : ∀ s ∈ stores, s.1 = i → s.2 = v) :
    storedBuf stores i = v := by
  have hfold : ∀ (stores : List (Nat × UInt32)) (buf : Nat → UInt32),
      (∀ s ∈ stores, s.1 = i → s.2 = v) →
      (i, v) ∈ stores ∨ buf i = v →
      stores.foldl (fun buf s => Function.update buf s.1 s.2) buf i = v := by
    intro stores
    induction stores with
    | nil =>
        intro buf _ h
        exact h.resolve_left List.not_mem_nil
    | cons s stores ih =>
        intro buf hsame h
        rw [List.foldl_cons]
        apply ih _ (fun t ht => hsame t (List.mem_cons_of_mem _ ht))
        by_cases hs : s.1 = i
        · right
          rw [hs, Function.update_self]
          exact hsame s (List.mem_cons_self ..) hs
        · rw [Function.update_of_ne (Ne.symm hs)]
          refine h.imp_left ?_
          intro hmem
          refine (List.mem_cons.1 hmem).resolve_left ?_
          intro heq
          exact hs (congrArg Prod.fst heq.symm)
  exact hfold stores _ hsame (.inl hmem)

/-- The stores for a buffer. -/
theorem mem_bufStores {i : Nat} {v : UInt32} :
    (i, v) ∈ bufStores paddr len ↔
      i ≤ lastPage paddr len
        ∧ v = if i = 0 then paddr else pagePointer paddr i := by
  have hlen := length_bufLoop paddr len len
    (0x1000 - (paddr &&& 0xfff).toNat) 0
  have hlast : (bufLoop paddr len len
      (0x1000 - (paddr &&& 0xfff).toNat) 0).length
        = lastPage paddr len := by
    rw [toNat_and_fff] at hlen ⊢
    unfold lastPage
    omega
  unfold bufStores
  rw [List.mem_cons, List.mem_iff_getElem]
  constructor
  · rintro (heq | ⟨j, hj, heq⟩)
    · cases heq
      exact ⟨Nat.zero_le _, (if_pos rfl).symm⟩
    · rw [bufLoop_getElem, Nat.zero_add] at heq
      cases heq
      rw [hlast] at hj
      exact ⟨by omega, (if_neg (by omega)).symm⟩
  · rintro ⟨hi, hv⟩
    by_cases hzero : i = 0
    · rw [if_pos hzero] at hv
      exact .inl (by rw [hzero, hv])
    · rw [if_neg hzero] at hv
      refine .inr ⟨i - 1, by omega, ?_⟩
      rw [bufLoop_getElem, Nat.zero_add, hv,
        Nat.add_sub_cancel' (Nat.one_le_iff_ne_zero.2 hzero)]

/-- The first pointer has the offset in it, the others are the starts of
pages. -/
theorem storedBuf_bufStores {i : Nat} (hi : i ≤ lastPage paddr len) :
    storedBuf (bufStores paddr len) i
      = if i = 0 then paddr else pagePointer paddr i := by
  apply storedBuf_eq (mem_bufStores.2 ⟨hi, rfl⟩)
  rintro ⟨j, v⟩ hs hj
  obtain ⟨-, hv⟩ := mem_bufStores.1 hs
  rw [hv, show j = i from hj]

-- ======================================================== both directions

/-- A descriptor covers exactly its buffer when the buffer fits in five
pages from the start of its first. -/
theorem covers_buffer (hend : paddr.toNat + len ≤ 2 ^ 32) :
    CoversBuffer paddr len ↔ paddr.toNat % 0x1000 + len ≤ maxXactSize := by
  have hfits : lastPage paddr len ≤ 4
      ↔ paddr.toNat % 0x1000 + len ≤ maxXactSize := by
    rw [lastPage_le_iff]
    rfl
  rw [← hfits]
  constructor
  · intro h
    have hlast := h.inside (lastPage paddr len, _)
      (mem_bufStores.2 ⟨Nat.le_refl _, rfl⟩)
    exact Nat.le_of_lt_succ hlast
  · intro hlast
    refine ⟨?_, ?_⟩
    · rintro ⟨i, v⟩ hs
      obtain ⟨hi, -⟩ := mem_bufStores.1 hs
      exact Nat.lt_succ_of_le (Nat.le_trans hi hlast)
    · intro byte hbyte
      have hzero : storedBuf (bufStores paddr len) 0 = paddr :=
        storedBuf_bufStores (Nat.zero_le _)
      have hle := (lastPage_le_iff (lastPage paddr len)).1 (Nat.le_refl _)
      have hpage : (paddr.toNat % 0x1000 + byte) / 0x1000
          ≤ lastPage paddr len := by omega
      unfold qtdAddress
      rw [hzero]
      simp only
      rw [if_pos (by omega), storedBuf_bufStores hpage]
      congr 1
      by_cases hfirst : (paddr.toNat % 0x1000 + byte) / 0x1000 = 0
      · rw [if_pos hfirst]
        omega
      · rw [if_neg hfirst, toNat_pagePointer (by omega)]
        omega

/-- The longest buffer at an offset of 32 takes all five pages. -/
theorem covers_buffer_sample : CoversBuffer 32 20448 :=
  (covers_buffer (by decide)).2 (by decide)

/-- Five pages from an address that is no page boundary: a sixth pointer
is stored. -/
theorem sixth_page_stored :
    (5, (0x5000 : UInt32)) ∈ bufStores 32 20480
      ∧ ¬CoversBuffer 32 20480 := by
  have hmem : (5, (0x5000 : UInt32)) ∈ bufStores 32 20480 :=
    mem_bufStores.2 (by decide +kernel)
  refine ⟨hmem, ?_⟩
  intro h
  exact absurd (h.inside _ hmem) (by decide)

end ProjectsLibs.Ehci
