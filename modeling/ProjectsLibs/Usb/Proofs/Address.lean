/-
Addresses: the bitmap is exact in every state, and an insertion does what
it should exactly when its search ends before the end of the bitmap
(`address_allocation`). Where it does not, the code shifts by 32
(`search_past_end`): the wrap is tested for after the bit is.

# The search

An address is found by going through the bitmap from `next_addr` on, with
a wrap at its end. The loop is followed by induction on its fuel, up to
the first free address; if there is none from there to bit 31, it tests
bit 32, which is where the code leaves what C defines. The early exit for
a full bus is taken by counting: addresses are distinct numbers from 1 to
31, so the bitmap is full exactly if there are 31 devices (`full_iff`).

# The invariant

`Addressed` says that the list has no duplicates, that the devices in it
have different addresses, and that the bitmap has just these and address
0. An insertion and a removal change one device, one bit and one entry of
the list, in closed form (`inserted`, `removed`), and the invariant is
proved of those.
-/
import ProjectsLibs.Lib.Loop
import ProjectsLibs.Usb.System

namespace ProjectsLibs.Usb

open Lib

-- ============================================================ the search

/-- Shifting 1 is defined for every bit of the map. -/
theorem shl_ok {i : Nat} (hi : i < 32) : shl i = .ok (mask i) :=
  if_pos hi

/-- The search stops at the first free address. -/
theorem cycleAddr_ok {bm : UInt32} {a : Nat} (ha : a < 32)
    (hfree : testBit bm a = false) (fuel i : Nat) (hia : i ≤ a)
    (hfuel : a < i + fuel) :
    ∃ r, cycleAddr bm fuel i = .ok r ∧ i ≤ r ∧ r < 32
      ∧ testBit bm r = false := by
  induction fuel generalizing i with
  | zero => omega
  | succ fuel ih =>
      have hi : i < 32 := by omega
      rw [cycleAddr, shl_ok hi, ok_bind]
      by_cases hset : testBit bm i = true
      · have hne : i ≠ a := by
          intro heq
          rw [heq, hfree] at hset
          cases hset
        rw [if_pos ((and_mask_iff bm hi).2 hset),
          if_neg (by unfold numDevices; omega)]
        obtain ⟨r, hr, hir, hr32, hrfree⟩ :=
          ih (i + 1) (by omega) (by omega)
        exact ⟨r, hr, by omega, hr32, hrfree⟩
      · rw [if_neg (fun hne => hset ((and_mask_iff bm hi).1 hne))]
        exact ⟨i, rfl, Nat.le_refl i, hi, Bool.eq_false_iff.2 hset⟩

/-- With no free address above, the search goes past the last bit. -/
theorem cycleAddr_shift {bm : UInt32} (fuel i : Nat) (hi : i ≤ 32)
    (hfull : ∀ a, i ≤ a → a < 32 → testBit bm a = true)
    (hfuel : 32 < i + fuel) :
    cycleAddr bm fuel i = .error .shift := by
  induction fuel generalizing i with
  | zero => omega
  | succ fuel ih =>
      by_cases hlt : i < 32
      · have hset := hfull i (Nat.le_refl i) hlt
        rw [cycleAddr, shl_ok hlt, ok_bind,
          if_pos ((and_mask_iff bm hlt).2 hset),
          if_neg (by unfold numDevices; omega)]
        refine ih (i + 1) (by omega) ?_ (by omega)
        intro a hia ha
        exact hfull a (by omega) ha
      · rw [cycleAddr, shl, if_neg hlt]
        rfl

-- ========================================================= the invariant

/-- What the list and the bitmap always agree on. -/
structure Addressed (h : Host) : Prop where
  nodup : h.devlist.Nodup
  range : ∀ d ∈ h.devlist,
    1 ≤ (h.devs d).addr.toNat ∧ (h.devs d).addr.toNat < 32
  inj : ∀ d ∈ h.devlist, ∀ e ∈ h.devlist,
    (h.devs d).addr.toNat = (h.devs e).addr.toNat → d = e
  bitmap : BitmapExact h
  next : 1 ≤ h.nextAddr ∧ h.nextAddr < 32

namespace Addressed

variable {h h' : Host} {d : DevId}

/-- The addresses of the devices. -/
def addrs (h : Host) : Finset Nat :=
  (h.devlist.map fun d => (h.devs d).addr.toNat).toFinset

/-- An address is in use if a device in the list has it. -/
theorem mem_addrs {a : Nat} :
    a ∈ addrs h ↔ ∃ d ∈ h.devlist, (h.devs d).addr.toNat = a := by
  unfold addrs
  rw [List.mem_toFinset, List.mem_map]

/-- All addresses in use are from 1 to 31. -/
theorem addrs_subset (hI : Addressed h) : addrs h ⊆ Finset.Ico 1 32 := by
  intro a ha
  obtain ⟨d, hd, rfl⟩ := mem_addrs.1 ha
  exact Finset.mem_Ico.2 (hI.range d hd)

/-- There are as many of them as devices, since no two share one. -/
theorem card_addrs (hI : Addressed h) :
    (addrs h).card = h.devlist.length := by
  unfold addrs
  rw [List.toFinset_card_of_nodup, List.length_map]
  exact hI.nodup.map_on hI.inj

/-- A bit of the map is set exactly for 0 and for the addresses in use. -/
theorem bit_iff (hI : Addressed h) {a : Nat} (ha : a < 32) :
    testBit h.addrbm a = true ↔ a = 0 ∨ a ∈ addrs h := by
  rw [hI.bitmap a ha, mem_addrs]

/-- The early exit is taken exactly when 31 devices are present. -/
theorem full_iff (hI : Addressed h) :
    h.addrbm.toNat = 2 ^ numDevices - 1 ↔ h.devlist.length = 31 := by
  have hword : h.addrbm.toNat = 2 ^ numDevices - 1
      ↔ h.addrbm = 0xffffffff := by
    constructor
    · intro hnat
      apply UInt32.toNat_inj.1
      rw [hnat]
      rfl
    · intro heq
      rw [heq]
      rfl
  rw [hword, ← hI.card_addrs]
  constructor
  · intro heq
    have hall : addrs h = Finset.Ico 1 32 := by
      apply Finset.Subset.antisymm hI.addrs_subset
      intro a ha
      obtain ⟨h1, h32⟩ := Finset.mem_Ico.1 ha
      have hbit := testBit_allOnes h32
      rw [← heq, hI.bit_iff h32] at hbit
      exact hbit.resolve_left (by omega)
    rw [hall]
    rfl
  · intro hcard
    have hall : addrs h = Finset.Ico 1 32 := by
      apply Finset.eq_of_subset_of_card_le hI.addrs_subset
      rw [hcard]
      rfl
    apply eq_of_testBit
    intro a ha
    rw [testBit_allOnes ha, hI.bit_iff ha, hall, Finset.mem_Ico]
    omega

/-- A free address above is one that the search finds. -/
theorem free_iff (hI : Addressed h) {a : Nat} (ha : a < 32)
    (h1 : 1 ≤ a) :
    testBit h.addrbm a = false
      ↔ ∀ e ∈ h.devlist, (h.devs e).addr.toNat ≠ a := by
  rw [← Bool.not_eq_true, hI.bit_iff ha, mem_addrs]
  constructor
  · intro hno e he heq
    exact hno (Or.inr ⟨e, he, heq⟩)
  · intro hne hor
    obtain h0 | ⟨e, he, heq⟩ := hor
    · omega
    · exact hne e he heq

end Addressed

/-- The invariant holds of the list as `usb_init` leaves it. -/
theorem addressed_init {h : Host} (hs : DevlistFresh h) : Addressed h := by
  obtain ⟨h₀, rfl⟩ := hs
  refine ⟨List.nodup_nil, ?_, ?_, ?_, ⟨Nat.le_refl 1, ?_⟩⟩
  · intro d hd
    cases hd
  · intro d hd
    cases hd
  · intro a ha
    show testBit 1 a = true ↔ _
    have hone : (1 : UInt32) = mask 0 := by decide
    rw [hone, testBit_mask (by decide), decide_eq_true_eq]
    constructor
    · intro h0
      exact Or.inl h0.symm
    · intro hor
      obtain h0 | ⟨d, hd, -⟩ := hor
      · exact h0.symm
      · cases hd
  · show 1 < 32
    decide

-- ============================================================= insertion

section Insert

variable {h : Host} {d : DevId}

/-- The state after an insertion at address `r`. -/
def inserted (h : Host) (d : DevId) (r : Nat) : Host :=
  { h with
    devlist := d :: h.devlist
    addrbm := h.addrbm ||| mask r
    nextAddr := if r + 1 = numDevices then 1 else r + 1 }.setAddr d
      (UInt8.ofNat r)

/-- With all 31 addresses in use, `devlist_insert` fails and leaves the
list alone. -/
theorem insertStored_full (hI : Addressed h)
    (hfull : h.devlist.length = 31) : insertStored h d = .ok (-1, h) := by
  unfold insertStored devlistInsert
  rw [if_pos (hI.full_iff.2 hfull), ok_bind]
  rfl

/-- What an insertion does that finds a free address. -/
theorem insertStored_ok (hI : Addressed h)
    (hroom : h.devlist.length ≠ 31) {a : Nat} (hna : h.nextAddr ≤ a)
    (ha : a < 32) (hfree : ∀ e ∈ h.devlist, (h.devs e).addr.toNat ≠ a) :
    ∃ r : Nat, insertStored h d = .ok ((r : Int), inserted h d r)
      ∧ 1 ≤ r ∧ r < 32
      ∧ ∀ e ∈ h.devlist, (h.devs e).addr.toNat ≠ r := by
  have hnext := hI.next.1
  obtain ⟨r, hr, hir, hr32, hrfree⟩ := cycleAddr_ok ha
    ((hI.free_iff ha (by omega)).2 hfree) (2 * numDevices) h.nextAddr hna
    (by unfold numDevices; omega)
  refine ⟨r, ?_, by omega, hr32, (hI.free_iff hr32 (by omega)).1 hrfree⟩
  unfold insertStored devlistInsert
  rw [if_neg (fun hf => hroom (hI.full_iff.1 hf)), hr, ok_bind,
    shl_ok hr32, ok_bind, ok_bind]
  show (if (r : Int) < 0 then _ else _) = _
  rw [if_neg (by omega)]
  rfl

/-- Otherwise the search shifts by 32. -/
theorem insertStored_shift (hI : Addressed h) (hend : ¬SearchEnds h) :
    insertStored h d = .error .shift := by
  have hroom : h.devlist.length ≠ 31 := fun hl => hend (Or.inl hl)
  have hfull : ∀ a, h.nextAddr ≤ a → a < 32 →
      testBit h.addrbm a = true := by
    intro a hna ha
    by_contra hclear
    have hfree := (hI.free_iff ha (Nat.le_trans hI.next.1 hna)).1
      (Bool.eq_false_iff.2 hclear)
    exact hend (Or.inr ⟨a, hna, ha, hfree⟩)
  unfold insertStored devlistInsert
  rw [if_neg (fun hf => hroom (hI.full_iff.1 hf)),
    cycleAddr_shift _ _ (by have := hI.next.2; omega) hfull
      (by unfold numDevices; omega)]
  rfl

/-- The device inserted has the address that was found. -/
theorem addr_inserted (r : Nat) :
    ((inserted h d r).devs d).addr = UInt8.ofNat r := by
  show (Function.update h.devs d _ d).addr = _
  rw [Function.update_self]

/-- The address fits into the 8 bits that hold it. -/
theorem devs_inserted_self {r : Nat} (hr : r < 32) :
    ((inserted h d r).devs d).addr.toNat = r := by
  rw [addr_inserted]
  rw [UInt8.toNat_ofNat_of_lt' (by show r < 256; omega)]

/-- The records of the other devices are not written to. -/
theorem devs_inserted_of_ne {r : Nat} {e : DevId} (hne : e ≠ d) :
    (inserted h d r).devs e = h.devs e :=
  Function.update_of_ne hne _ _

/-- Inserting a device under a free address keeps the invariant. -/
theorem addressed_inserted (hI : Addressed h) (hd : d ∉ h.devlist)
    {r : Nat} (h1 : 1 ≤ r) (hr : r < 32)
    (hfree : ∀ e ∈ h.devlist, (h.devs e).addr.toNat ≠ r) :
    Addressed (inserted h d r) := by
  have hother : ∀ e ∈ h.devlist,
      (inserted h d r).devs e = h.devs e := by
    intro e he
    apply devs_inserted_of_ne
    intro heq
    exact hd (heq ▸ he)
  refine ⟨List.nodup_cons.2 ⟨hd, hI.nodup⟩, ?_, ?_, ?_, ?_⟩
  · intro e he
    cases List.mem_cons.1 he with
    | inl heq =>
        rw [heq, devs_inserted_self hr]
        exact ⟨h1, hr⟩
    | inr he =>
        rw [hother e he]
        exact hI.range e he
  -- the new address is free, so it differs from that of each device there
  -- is
  · intro e he f hf heq
    cases List.mem_cons.1 he with
    | inl hed =>
        cases List.mem_cons.1 hf with
        | inl hfd => rw [hed, hfd]
        | inr hf =>
            rw [hed, devs_inserted_self hr, hother f hf] at heq
            exact absurd heq.symm (hfree f hf)
    | inr he =>
        cases List.mem_cons.1 hf with
        | inl hfd =>
            rw [hfd, devs_inserted_self hr, hother e he] at heq
            exact absurd heq (hfree e he)
        | inr hf =>
            rw [hother e he, hother f hf] at heq
            exact hI.inj e he f hf heq
  -- the bit that was set is that of the new device
  · intro a ha
    show testBit (h.addrbm ||| mask r) a = true ↔ _
    rw [testBit_or_mask h.addrbm hr, Bool.or_eq_true, hI.bitmap a ha,
      decide_eq_true_eq]
    constructor
    · intro hor
      obtain (h0 | ⟨e, he, heq⟩) | heq := hor
      · exact Or.inl h0
      · exact Or.inr ⟨e,
          List.mem_cons_of_mem d he, by rw [hother e he, heq]⟩
      · exact Or.inr ⟨d, List.mem_cons_self .., by
          rw [devs_inserted_self hr, heq]⟩
    · intro hor
      obtain h0 | ⟨e, he, heq⟩ := hor
      · exact Or.inl (Or.inl h0)
      · cases List.mem_cons.1 he with
        | inl hed =>
            rw [hed, devs_inserted_self hr] at heq
            exact Or.inr heq
        | inr he =>
            rw [hother e he] at heq
            exact Or.inl (Or.inr ⟨e, he, heq⟩)
  · show 1 ≤ (if r + 1 = numDevices then 1 else r + 1)
      ∧ (if r + 1 = numDevices then 1 else r + 1) < 32
    unfold numDevices
    split <;> omega

end Insert

-- =============================================================== removal

section Remove

variable {h : Host} {d : DevId}

/-- The state after a removal. -/
def removed (h : Host) (d : DevId) : Host :=
  { h with
    devlist := h.devlist.erase d
    addrbm := h.addrbm &&& ~~~mask (h.devs d).addr.toNat }.setAddr d 0xff

/-- Removing a device that is in the list succeeds. -/
theorem devlistRemove_ok (hI : Addressed h) (hd : d ∈ h.devlist) :
    devlistRemove h d = .ok (removed h d) := by
  unfold devlistRemove
  rw [if_neg (fun hn => hn hd), shl_ok (hI.range d hd).2]
  rfl

/-- The records of the other devices are not written to. -/
theorem devs_removed_of_ne {e : DevId} (hne : e ≠ d) :
    (removed h d).devs e = h.devs e :=
  Function.update_of_ne hne _ _

/-- Removing a device keeps the invariant: its bit is cleared along with
its entry in the list. -/
theorem addressed_removed (hI : Addressed h) (hd : d ∈ h.devlist) :
    Addressed (removed h d) := by
  have hmem : ∀ e, e ∈ h.devlist.erase d ↔ e ≠ d ∧ e ∈ h.devlist :=
    fun e => hI.nodup.mem_erase_iff
  have hother : ∀ e ∈ h.devlist.erase d,
      (removed h d).devs e = h.devs e :=
    fun e he => devs_removed_of_ne ((hmem e).1 he).1
  refine ⟨hI.nodup.erase d, ?_, ?_, ?_, hI.next⟩
  · intro e he
    rw [hother e he]
    exact hI.range e ((hmem e).1 he).2
  · intro e he f hf heq
    rw [hother e he, hother f hf] at heq
    exact hI.inj e ((hmem e).1 he).2 f ((hmem f).1 hf).2 heq
  · intro a ha
    show testBit (h.addrbm &&& ~~~mask (h.devs d).addr.toNat) a = true ↔ _
    rw [testBit_and_not_mask h.addrbm (hI.range d hd).2 ha,
      Bool.and_eq_true, hI.bitmap a ha, decide_eq_true_eq]
    constructor
    · intro hand
      obtain ⟨h0 | ⟨e, he, heq⟩, hne⟩ := hand
      · exact Or.inl h0
      · have hed : e ≠ d := by
          intro hed
          exact hne (by rw [← hed, heq])
        have he' := (hmem e).2 ⟨hed, he⟩
        exact Or.inr ⟨e, he', by rw [hother e he', heq]⟩
    · intro hor
      obtain h0 | ⟨e, he, heq⟩ := hor
      · refine ⟨Or.inl h0, ?_⟩
        have hpos := (hI.range d hd).1
        omega
      · obtain ⟨hed, hemem⟩ := (hmem e).1 he
        rw [hother e he] at heq
        refine ⟨Or.inr ⟨e, hemem, heq⟩, ?_⟩
        intro hda
        exact hed (hI.inj e hemem d hd (heq.trans hda.symm))

end Remove

-- ======================================================== every sequence

/-- Each call on the list keeps the invariant. -/
theorem addressed_step {h h' : Host} {op : DevOp} (hI : Addressed h)
    (hstep : devStep h op = some h') : Addressed h' := by
  cases op with
  | insert d =>
      rw [devStep] at hstep
      split at hstep
      · cases hstep
      · rename_i hd
        by_cases hend : SearchEnds h
        · by_cases hfull : h.devlist.length = 31
          · rw [insertStored_full hI hfull] at hstep
            cases hstep
            exact hI
          · obtain ⟨a, hna, ha, hfree⟩ := hend.resolve_left hfull
            obtain ⟨r, hr, h1, h32, hrfree⟩ :=
              insertStored_ok (d := d) hI hfull hna ha hfree
            rw [hr] at hstep
            cases hstep
            exact addressed_inserted hI hd h1 h32 hrfree
        · rw [insertStored_shift hI hend] at hstep
          cases hstep
  | remove d =>
      rw [devStep] at hstep
      by_cases hd : d ∈ h.devlist
      · rw [devlistRemove_ok hI hd] at hstep
        cases hstep
        exact addressed_removed hI hd
      · rw [devlistRemove, if_pos hd] at hstep
        cases hstep

theorem addressed_reachable {h : Host}
    (hs : Reachable DevlistFresh devStep anyStep h) : Addressed h := by
  refine hs.invariant (fun s => addressed_init) ?_
  intro s op s' hI _ hstep
  exact addressed_step hI hstep

/-- An insertion does what it should exactly when its search ends. -/
theorem insertMeets_iff {h : Host} {d : DevId} (hI : Addressed h)
    (hd : d ∉ h.devlist) : InsertMeets h d ↔ SearchEnds h := by
  constructor
  · intro hmeets
    by_contra hend
    obtain ⟨r, h', hrun, -⟩ := hmeets
    rw [insertStored_shift hI hend] at hrun
    cases hrun
  · intro hend
    by_cases hfull : h.devlist.length = 31
    · refine ⟨-1, h, insertStored_full hI hfull, ?_, ?_, hI.bitmap⟩
      · exact iff_of_true rfl hfull
      · intro hne
        exact absurd rfl hne
    · obtain ⟨a, hna, ha, hfree⟩ := hend.resolve_left hfull
      obtain ⟨r, hr, h1, h32, hrfree⟩ :=
        insertStored_ok (d := d) hI hfull hna ha hfree
      refine ⟨r, _, hr, ?_, ?_,
        (addressed_inserted hI hd h1 h32 hrfree).bitmap⟩
      · exact iff_of_false (by omega) hfull
      · intro _
        refine ⟨by omega, by omega, ?_⟩
        intro e he heq
        exact hrfree e he (by omega)

/-- In every state that insertions and removals lead to, the bitmap is
exact and removals keep it so; the next insertion comes to its end, with
a free address or -1 when there is none, exactly if its search ends
before the end of the bitmap. -/
theorem address_allocation {h : Host}
    (hs : Reachable DevlistFresh devStep anyStep h) :
    BitmapExact h
      ∧ (∀ d ∈ h.devlist, ∃ h', devlistRemove h d = .ok h'
        ∧ BitmapExact h')
      ∧ ∀ d, d ∉ h.devlist → (InsertMeets h d ↔ SearchEnds h) := by
  have hI := addressed_reachable hs
  refine ⟨hI.bitmap, ?_, ?_⟩
  · intro d hd
    exact ⟨removed h d, devlistRemove_ok hI hd,
      (addressed_removed hI hd).bitmap⟩
  · intro d hd
    exact insertMeets_iff hI hd

-- ============================================================= a sample

/-- A bus before `devlist_init`. -/
def emptyBus : Host where
  addrbm := 0
  nextAddr := 0
  devlist := []
  devs := fun _ => ⟨none, 0, 0, 0, none⟩
  fresh := 0

/-- The theorem after two insertions and a removal. -/
theorem address_allocation_sample :
    ∃ h, run devStep (devlistInit emptyBus)
        [.insert 0, .insert 1, .remove 0] = some h
      ∧ BitmapExact h
      ∧ (∀ d ∈ h.devlist, ∃ h', devlistRemove h d = .ok h'
        ∧ BitmapExact h')
      ∧ ∀ d, d ∉ h.devlist → (InsertMeets h d ↔ SearchEnds h) := by
  have hsome : (run devStep (devlistInit emptyBus)
      [.insert 0, .insert 1, .remove 0]).isSome := by decide +kernel
  obtain ⟨h, hrun⟩ := Option.isSome_iff_exists.1 hsome
  have hs : Reachable DevlistFresh devStep anyStep h :=
    (Reachable.init ⟨emptyBus, rfl⟩).run hrun
  exact ⟨h, hrun, address_allocation hs⟩

/-- All 31 addresses are given out, the first device leaves and comes
back, and leaves again. -/
def pastEnd : List DevOp :=
  (List.range 31).map DevOp.insert ++ [.remove 0, .insert 0, .remove 0]

/-- The insertion has shifted by the width of the word. -/
def shiftsPastEnd (h : Host) (d : DevId) : Bool :=
  match devlistInsert h d with
  | .error .shift => true
  | _ => false

/-- The one fault there is: the search runs past the last address and
shifts by 32. -/
theorem shift_of_shiftsPastEnd {h : Host} {d : DevId}
    (hb : shiftsPastEnd h d = true) :
    devlistInsert h d = .error .shift := by
  unfold shiftsPastEnd at hb
  split at hb
  · assumption
  · cases hb

/-- Then only address 1 is free and the search starts at 2: it tests bit
32 of the bitmap. -/
theorem search_past_end :
    ∃ h, run devStep (devlistInit emptyBus) pastEnd = some h
      ∧ h.devlist.length = 30 ∧ 0 ∉ h.devlist
      ∧ devlistInsert h 0 = .error .shift := by
  have hany : (run devStep (devlistInit emptyBus) pastEnd).any (fun h =>
      decide (h.devlist.length = 30 ∧ 0 ∉ h.devlist)
        && shiftsPastEnd h 0) = true := by decide +kernel
  obtain ⟨h, hrun, hbool⟩ := (Option.any_eq_true ..).1 hany
  rw [Bool.and_eq_true, decide_eq_true_eq] at hbool
  obtain ⟨⟨hlen, hmem⟩, hshift⟩ := hbool
  exact ⟨h, hrun, hlen, hmem, shift_of_shiftsPastEnd hshift⟩

end ProjectsLibs.Usb
