/-
The descriptors of control and bulk transfers (`control_stages`,
`out_terminated`).

`qtd_alloc` fills in the blocks one after the other (`alloced_eq`), so that
what is left to look at are the tokens. The toggle of a control transfer is
bit `m` of the bytes so far plus one packet less one byte: with the 8 bytes
of the setup stage first and full packets of `2 ^ m` bytes behind them,
that is the parity of the packets.

# Why the toggle is right

The driver does not count packets: it tests a bit of a number of bytes.
The 8 bytes of the setup stage are at most a packet, so with a packet
less a byte added, the quotient by the size of a packet counts the setup
stage as one; `toggle_eq` is this step, and everything else about control
transfers is a case split over the three stages. It needs that
all data packets but the last are full, which is the hypothesis of the
statement on the data stages.

For bulk transfers the constant of OUT packets is zero, so the test for
one is never true, and the list of tokens has one entry for each
transaction. The two directions of the statement are then the same
computation.
-/
import ProjectsLibs.Lib.Words
import ProjectsLibs.Ehci.Stages
import ProjectsLibs.Ehci.Proofs.Bytes

namespace ProjectsLibs.Ehci

open Lib

variable {ep : Endpoint} {speed : Speed} {xact : List Xact}
  {cb : Option Nat} {k n : Nat} {block : Nat → TdId × UInt32}
  {tdns : TdId → TDn}

-- ====================================================== the descriptors

/-- A descriptor that is filled in. -/
theorem fillTds_getElem {L : List (TdId × UInt32 × UInt32)}
    (hnd : (L.map Prod.fst).Nodup) {i : Nat} (hi : i < L.length) :
    fillTds cb L tdns (L[i]).1
      = if h : i + 1 < L.length then {
          td := true
          ptd := (L[i]).2.1
          tdNext := (L[i + 1]).2.1
          token := (L[i]).2.2
          cb := none
          next := some (L[i + 1]).1 }
        else {
          td := true
          ptd := (L[i]).2.1
          tdNext := 0 ||| linkInvalid
          token := (L[i]).2.2 ||| mask tdtokIoc
          cb := cb
          next := none } := by
  induction L generalizing tdns i with
  | nil => exact absurd hi (Nat.not_lt_zero i)
  | cons x L ih =>
      obtain ⟨t, ptd, token⟩ := x
      cases L with
      | nil =>
          obtain rfl : i = 0 := by simpa using hi
          exact Function.update_self ..
      | cons y L =>
          obtain ⟨hnot, hnd'⟩ := List.nodup_cons.1 hnd
          cases i with
          | zero =>
              have hfirst : fillTds cb ((t, ptd, token) :: y :: L) tdns t
                  = Function.update tdns t {
                      td := true
                      ptd := ptd
                      tdNext := y.2.1
                      token := token
                      cb := none
                      next := some y.1 } t := fillTds_of_notMem hnot
              rw [Function.update_self] at hfirst
              simpa using hfirst
          | succ i =>
              have hlt : i < (y :: L).length := Nat.lt_of_succ_lt_succ hi
              have hrest : fillTds cb ((t, ptd, token) :: y :: L) tdns
                  ((y :: L)[i]).1 = _ := ih hnd' hlt
              simpa using hrest

/-- What the `i`-th block is filled in with. -/
theorem alloced_eq (hS : Supply block)
    (hlen : (groupTokens ep speed xact).length = k + 1) (hn : k + 1 ≤ n)
    {i : Nat} (hi : i ≤ k) :
    alloced ep speed xact cb block n tdns (block i).1
      = if i = k then {
          td := true
          ptd := (block i).2
          tdNext := 0 ||| linkInvalid
          token := (groupTokens ep speed xact).getD i 0 ||| mask tdtokIoc
          cb := cb
          next := none }
        else {
          td := true
          ptd := (block i).2
          tdNext := (block (i + 1)).2
          token := (groupTokens ep speed xact).getD i 0
          cb := none
          next := some (block (i + 1)).1 } := by
  unfold alloced qtdAlloc
  generalize groupTokens ep speed xact = tokens at hlen
  generalize hL : List.zipWith
    (fun (b : TdId × UInt32) token => (b.1, b.2, token))
    ((List.range n).map block) tokens = L
  have hlenL : L.length = k + 1 := by
    rw [← hL]
    simp only [List.length_zipWith, List.length_map, List.length_range]
    omega
  have hget : ∀ j (hj : j < L.length),
      L[j] = ((block j).1, (block j).2, tokens.getD j 0) := by
    intro j hj
    have hjt : j < tokens.length := by omega
    subst hL
    rw [List.getElem_zipWith, List.getElem_map, List.getElem_range,
      List.getD_eq_getElem?_getD, List.getElem?_eq_getElem hjt,
      Option.getD_some]
  have hnd : (L.map Prod.fst).Nodup := by
    rw [List.nodup_iff_injective_get]
    intro a b hab
    simp only [List.get_eq_getElem, List.getElem_map, hget] at hab
    exact Fin.ext (hS.fresh _ _ hab)
  have hil : i < L.length := by omega
  have hfill : fillTds cb L tdns (L[i]).1 = _ := fillTds_getElem hnd hil
  rw [hget i hil] at hfill
  rw [hfill]
  by_cases hik : i = k
  · rw [dif_neg (by omega), if_pos hik]
  · have hlt : i + 1 < L.length := by omega
    rw [dif_pos hlt, if_neg hik]
    simp only [hget]

section listed

variable (hS : Supply block)
  (hlen : (groupTokens ep speed xact).length = k + 1) (hn : k + 1 ≤ n)
include hS hlen hn

variable (cb tdns) in
/-- The interrupt bit of the last descriptor hides nothing of its token. -/
theorem alloced_token {i : Nat} (hi : i ≤ k) :
    ∃ extra, (extra = 0 ∨ extra = mask tdtokIoc)
      ∧ (alloced ep speed xact cb block n tdns (block i).1).token
        = (groupTokens ep speed xact).getD i 0 ||| extra := by
  rw [alloced_eq hS hlen hn hi]
  by_cases hik : i = k
  · rw [if_pos hik]
    exact ⟨_, .inr rfl, rfl⟩
  · rw [if_neg hik]
    exact ⟨0, .inl rfl, UInt32.or_zero.symm⟩

/-- `qtd_alloc` makes a list. -/
theorem listed_alloced :
    Listed (alloced ep speed xact cb block n tdns) block cb k := by
  have heq : ∀ i ≤ k,
      alloced ep speed xact cb block n tdns (block i).1 = _ :=
    fun i hi => alloced_eq hS hlen hn hi
  refine ⟨?_, ?_, ?_, ?_, ?_, ?_, ?_⟩
  · intro t ht
    obtain ⟨i, hi, rfl⟩ := List.mem_map.1 ht
    rw [heq i (by rw [List.mem_range] at hi; omega)]
    split
    · rfl
    · rfl
  · -- from the `j`-th descriptor on, backwards from the last
    have hfrom : ∀ m j, j + m = k + 1 → 0 < m → Leads
        (fun t => (alloced ep speed xact cb block n tdns t).next)
        (some (block j).1) ((List.range' j m).map fun i => (block i).1)
        none := by
      intro m
      induction m with
      | zero => exact fun _ _ h => absurd h (Nat.lt_irrefl 0)
      | succ m ih =>
          intro j hj _
          refine ⟨rfl, ?_⟩
          simp only [heq j (by omega)]
          by_cases hjk : j = k
          · obtain rfl : m = 0 := by omega
            rw [if_pos hjk]
            rfl
          · rw [if_neg hjk]
            exact ih (j + 1) (by omega) (by omega)
    rw [List.range_eq_range']
    exact hfrom (k + 1) 0 (by omega) (by omega)
  · intro i hi
    rw [heq i hi]
    split
    · rfl
    · rfl
  · intro i hi
    rw [heq i (Nat.le_of_lt hi), if_neg (Nat.ne_of_lt hi)]
  · intro i hi
    rw [heq i hi]
    by_cases hik : i = k
    · rw [if_pos hik, decide_eq_true hik]
      show testBit (0 ||| linkInvalid) 0 = true
      decide
    · rw [if_neg hik, decide_eq_false hik]
      exact testBit_of_aligned (hS.aligned (i + 1)) (by decide)
  · intro i hi
    have hplain : testBit ((groupTokens ep speed xact).getD i 0) tdtokIoc
        = false := by
      apply groupTokens_ioc
      rw [List.getD_eq_getElem?_getD,
        List.getElem?_eq_getElem (show i < _ by omega), Option.getD_some]
      exact List.getElem_mem _
    unfold hasIoc
    rw [heq i hi]
    by_cases hik : i = k
    · rw [if_pos hik, decide_eq_true hik]
      show testBit (_ ||| mask tdtokIoc) tdtokIoc = true
      rw [testBit_or_mask _ (by decide), decide_eq_true rfl, Bool.or_true]
    · rw [if_neg hik, decide_eq_false hik]
      exact hplain
  · intro i hi
    rw [heq i hi]
    split
    · rfl
    · rfl

end listed

-- =============================================================== tokens

/-- The packet type of a token put together from parts. -/
theorem pidField_or (v w : UInt32) :
    pidField (v ||| w) = pidField v ||| pidField w :=
  take_or v w (by decide) (by decide)

/-- The byte count has no part in it. -/
theorem pidField_tdtokBytes (len : UInt32) :
    pidField (tdtokBytes len) = 0 := by
  rw [tdtokBytes_eq]
  exact take_of_clear (by decide) (by decide)
    (Clear.place (by decide) (by decide) (by decide) (by decide) len)

theorem testBit_tdtokBytes_dt (len : UInt32) :
    testBit (tdtokBytes len) tdtokDt = false := by
  rw [tdtokBytes_eq, testBit_place _ (by decide) (by decide) (by decide),
    decide_eq_false (by decide), Bool.false_and]

/-- The direction of a packet. -/
theorem xactToken_pid (ep : Endpoint) (speed : Speed) (total : UInt32)
    (x : Xact) :
    pidField (xactToken ep speed total x) = pidField (pidBits x.type) := by
  have hdt : pidField (mask tdtokDt) = 0 := by decide
  have hcerr : pidField tdtokCErr = 0 := by decide
  have hhalt : pidField (mask tdtokShalted) = 0 := by decide
  have hping : pidField (mask tdtokPingstate) = 0 := by decide
  unfold xactToken
  split_ifs
  all_goals
    simp only [pidField_or, pidField_tdtokBytes, hdt, hcerr, hhalt, hping,
      UInt32.or_zero, UInt32.zero_or]

/-- The toggle of a packet of a control transfer. -/
theorem xactToken_dt (h : ep.type = .control) (speed : Speed)
    (total : UInt32) (x : Xact) :
    testBit (xactToken ep speed total x) tdtokDt
      = decide (ep.maxPkt &&& (ep.maxPkt + total - 1) ≠ 0) := by
  have hdt : testBit (mask tdtokDt) tdtokDt = true := by decide
  have hcerr : testBit tdtokCErr tdtokDt = false := by decide
  have hhalt : testBit (mask tdtokShalted) tdtokDt = false := by decide
  have hping : testBit (mask tdtokPingstate) tdtokDt = false := by decide
  have hpid : ∀ type, testBit (pidBits type) tdtokDt = false := by
    intro type
    cases type with
    | pidIn => decide
    | pidOut => decide
    | pidSetup => decide
  unfold xactToken
  simp only [h, true_and]
  by_cases htoggle : ep.maxPkt &&& (ep.maxPkt + total - 1) ≠ 0
  · simp only [if_pos htoggle, decide_eq_true htoggle]
    split_ifs
    all_goals
      simp only [testBit_or, testBit_tdtokBytes_dt, hpid, hdt, hcerr, hhalt,
        hping, Bool.or_false]
  · simp only [if_neg htoggle, decide_eq_false htoggle]
    split_ifs
    all_goals
      simp only [testBit_or, testBit_tdtokBytes_dt, testBit_zero, hpid,
        hcerr, hhalt, hping, Bool.or_false]

/-- The token of the `i`-th transaction, behind the bytes of those before
it. -/
theorem xactTokens_getElem (ep : Endpoint) (speed : Speed) (total : UInt32)
    (xact : List Xact) {i : Nat} (hi : i < xact.length) :
    (xactTokens ep speed total xact).getD i 0
      = xactToken ep speed (total + totalBytes (xact.take i))
          (xact.get ⟨i, hi⟩) := by
  have hshift : ∀ (l : List Xact) (t : UInt32),
      l.foldl (fun total x => total + x.len) t = t + totalBytes l := by
    intro l
    unfold totalBytes
    induction l with
    | nil => exact fun t => (UInt32.add_zero t).symm
    | cons x l ih =>
        intro t
        rw [List.foldl_cons, List.foldl_cons, ih, ih (0 + x.len),
          UInt32.zero_add, UInt32.add_assoc]
  induction xact generalizing total i with
  | nil => exact absurd hi (Nat.not_lt_zero i)
  | cons x xact ih =>
      cases i with
      | zero =>
          show xactToken ep speed total x = _
          rw [List.take_zero]
          show _ = xactToken ep speed (total + 0) x
          rw [UInt32.add_zero]
      | succ i =>
          show (xactTokens ep speed (total + x.len) xact).getD i 0 = _
          rw [ih (total + x.len) (Nat.lt_of_succ_lt_succ hi),
            UInt32.add_assoc]
          have hcons : totalBytes ((x :: xact).take (i + 1))
              = x.len + totalBytes (xact.take i) := by
            rw [List.take_succ_cons]
            show (xact.take i).foldl _ (0 + x.len) = _
            rw [hshift, UInt32.zero_add]
          rw [hcons]
          rfl

/-- There is one token for each transaction. -/
theorem length_xactTokens (ep : Endpoint) (speed : Speed) (total : UInt32)
    (xact : List Xact) :
    (xactTokens ep speed total xact).length = xact.length := by
  induction xact generalizing total with
  | nil => rfl
  | cons x xact ih => exact congrArg Nat.succ (ih (total + x.len))

/-- The descriptor of a transaction. -/
theorem groupTokens_getD {i : Nat} (hi : i < xact.length) :
    (groupTokens ep speed xact).getD i 0
      = xactToken ep speed (totalBytes (xact.take i))
        (xact.get ⟨i, hi⟩) := by
  have hloop := xactTokens_getElem ep speed 0 xact hi
  rw [UInt32.zero_add] at hloop
  rw [← hloop]
  unfold groupTokens
  split_ifs
  · rw [List.getD_eq_getElem?_getD, List.getD_eq_getElem?_getD,
      List.getElem?_append_left]
    rw [length_xactTokens]
    exact hi
  · rfl

/-- The interrupt bit is no part of what a descriptor carries. -/
theorem Carries.of_token {tdn : TDn} {x : Xact} {w extra : UInt32}
    (htoken : tdn.token = w ||| extra)
    (hextra : extra = 0 ∨ extra = mask tdtokIoc)
    (hbytes : tdtokGetBytes w = x.len)
    (hpid : pidField w = pidField (pidBits x.type)) : Carries tdn x := by
  have hnothing : tdtokGetBytes extra = 0 ∧ pidField extra = 0 := by
    rcases hextra with rfl | rfl
    · decide
    · decide
  refine ⟨?_, ?_⟩
  · rw [htoken, tdtokGetBytes_or, hbytes, hnothing.1, UInt32.or_zero]
  · rw [htoken, pidField_or, hpid, hnothing.2, UInt32.or_zero]

/-- The interrupt bit does not touch the toggle. -/
theorem testBit_dt_of_token {w extra : UInt32}
    (hextra : extra = 0 ∨ extra = mask tdtokIoc) :
    testBit (w ||| extra) tdtokDt = testBit w tdtokDt := by
  have hnothing : testBit extra tdtokDt = false := by
    rcases hextra with rfl | rfl
    · decide
    · decide
  rw [testBit_or, hnothing, Bool.or_false]

-- ======================================================== control stages

section toggle

variable {m : Nat}

/-- The total is summed up in 32 bits. -/
theorem toNat_totalBytes (xact : List Xact) :
    (totalBytes xact).toNat = lenSum xact % 2 ^ 32 := by
  have hfrom : ∀ (l : List Xact) (t : UInt32),
      (l.foldl (fun total x => total + x.len) t).toNat
        = (t.toNat + lenSum l) % 2 ^ 32 := by
    intro l
    induction l with
    | nil => exact fun t => (Nat.mod_eq_of_lt t.toNat_lt).symm
    | cons x l ih =>
        intro t
        rw [List.foldl_cons, ih, UInt32.toNat_add]
        show _ = (t.toNat + (x.len.toNat + lenSum l)) % 2 ^ 32
        omega
  have h := hfrom xact 0
  rwa [show (0 : UInt32).toNat = 0 from rfl, Nat.zero_add] at h

/-- The trick: after the setup stage and `j` full packets. -/
theorem toggle_eq {maxPkt total : UInt32} {j : Nat} (hm : 3 ≤ m)
    (hpkt : maxPkt.toNat = 2 ^ m)
    (htotal : total.toNat = (8 + 2 ^ m * j) % 2 ^ 32) :
    decide (maxPkt &&& (maxPkt + total - 1) ≠ 0)
      = decide ((1 + j) % 2 = 1) := by
  have hm32 : m < 32 := by
    have hlt := maxPkt.toNat_lt
    rw [hpkt] at hlt
    exact (Nat.pow_lt_pow_iff_right (by decide)).1 hlt
  have hmask : maxPkt = mask m :=
    UInt32.toNat.inj (hpkt.trans (toNat_mask hm32).symm)
  have h8 : 2 ^ 3 ≤ 2 ^ m := Nat.pow_le_pow_right (by decide) hm
  have hval : (maxPkt + total - 1).toNat
      = (2 ^ m * (1 + j) + 7) % 2 ^ 32 := by
    rw [UInt32.toNat_sub, UInt32.toNat_add, hpkt, htotal, Nat.mul_add]
    show (2 ^ 32 - 1 + (2 ^ m + (8 + 2 ^ m * j) % 2 ^ 32) % 2 ^ 32) % 2 ^ 32
      = _
    omega
  have hbit : testBit (maxPkt + total - 1) m = (1 + j).testBit 0 := by
    have hnat : testBit (maxPkt + total - 1) m
        = (maxPkt + total - 1).toNat.testBit m :=
      (BitVec.testBit_toNat _).symm
    rw [hnat, hval, Nat.testBit_mod_two_pow, decide_eq_true hm32,
      Bool.true_and, Nat.testBit_two_pow_mul_add _ (by omega),
      if_neg (Nat.lt_irrefl m), Nat.sub_self]
  rw [UInt32.and_comm, decide_eq_decide]
  have hiff := and_mask_iff (maxPkt + total - 1) hm32
  rw [← hmask, hbit, Nat.testBit_zero, decide_eq_true_eq] at hiff
  exact hiff

/-- The setup stage is DATA0. -/
theorem toggle_setup {maxPkt : UInt32} (hpkt : maxPkt.toNat = 2 ^ m) :
    decide (maxPkt &&& (maxPkt + 0 - 1) ≠ 0) = false := by
  apply decide_eq_false
  rw [not_not, UInt32.add_zero]
  apply UInt32.toNat.inj
  have hpos : (1 : UInt32) ≤ maxPkt := by
    rw [UInt32.le_iff_toNat_le, hpkt]
    exact Nat.one_le_two_pow
  rw [UInt32.toNat_and, UInt32.toNat_sub_of_le _ _ hpos, hpkt]
  show 2 ^ m &&& 2 ^ m - 1 = 0
  rw [Nat.and_two_pow_sub_one_eq_mod, Nat.mod_self]

/-- Full packets are counted by their bytes. -/
theorem lenSum_full {l : List Xact}
    (hfull : ∀ x ∈ l, 2 ^ m ∣ x.len.toNat) :
    lenSum l = 2 ^ m * (l.map fun x => packets (2 ^ m) x.len.toNat).sum := by
  induction l with
  | nil => rfl
  | cons x l ih =>
      obtain ⟨q, hq⟩ := hfull x (List.mem_cons_self ..)
      have hpow : 0 < 2 ^ m := Nat.two_pow_pos m
      have hpackets : packets (2 ^ m) x.len.toNat = q := by
        unfold packets
        rw [hq, Nat.add_sub_assoc hpow, Nat.mul_add_div hpow,
          Nat.div_eq_of_lt (by omega), Nat.add_zero]
      have hrest := ih fun y hy => hfull y (List.mem_cons_of_mem _ hy)
      unfold lenSum at hrest ⊢
      rw [List.map_cons, List.sum_cons, List.map_cons, List.sum_cons, hrest,
        hpackets, Nat.mul_add, ← hq]

/-- The setup stage is one packet. -/
theorem packetsBefore_setup (hm : 3 ≤ m) (data : List Xact) (i : Nat) :
    packetsBefore (2 ^ m) (⟨.pidSetup, 8⟩ :: data) (i + 1)
      = 1 + ((data.take i).map fun x => packets (2 ^ m) x.len.toNat).sum := by
  have h8 : 2 ^ 3 ≤ 2 ^ m := Nat.pow_le_pow_right (by decide) hm
  have hsetup : packets (2 ^ m) 8 = 1 := by
    unfold packets
    rw [show 8 + 2 ^ m - 1 = 7 + 2 ^ m by omega,
      Nat.add_div_right _ (by omega), Nat.div_eq_of_lt (by omega)]
  unfold packetsBefore
  rw [List.take_succ_cons, List.map_cons, List.sum_cons]
  exact congrArg (· + _) hsetup

/-- The toggle of a data stage: everything before it but the setup stage is
full packets. -/
theorem toggle_data {maxPkt : UInt32} {data : List Xact} {i : Nat}
    (hm : 3 ≤ m) (hpkt : maxPkt.toNat = 2 ^ m)
    (hfull : ∀ x ∈ data.dropLast, 2 ^ m ∣ x.len.toNat)
    (hi : i < data.length) :
    decide (maxPkt &&& (maxPkt
        + totalBytes ((⟨.pidSetup, 8⟩ :: data).take (i + 1)) - 1) ≠ 0)
      = decide (packetsBefore (2 ^ m) (⟨.pidSetup, 8⟩ :: data) (i + 1) % 2
          = 1) := by
  have hbefore : ∀ x ∈ data.take i, 2 ^ m ∣ x.len.toNat := by
    intro x hx
    refine hfull x ?_
    rw [List.dropLast_eq_take]
    exact List.take_subset_take_left data (by omega) hx
  rw [packetsBefore_setup hm]
  apply toggle_eq hm hpkt
  rw [toNat_totalBytes, List.take_succ_cons, ← lenSum_full hbefore]
  rfl

end toggle

/-- `xact_stage` of a control transfer. -/
theorem xactStage_control {data : List Xact} {dir : XactType}
    (hdir : ∀ x ∈ data, x.type = dir) :
    xactStage (⟨.pidSetup, 8⟩ :: data)
      = pidBits .pidSetup ||| (if data = [] then 0 else pidBits dir) := by
  have hfrom : ∀ (l : List Xact) (stage : UInt32),
      (∀ x ∈ l, x.type = dir) →
      l.foldl (fun stage x => stage ||| pidBits x.type) stage
        = stage ||| (if l = [] then 0 else pidBits dir) := by
    intro l
    induction l with
    | nil => exact fun stage _ => UInt32.or_zero.symm
    | cons x l ih =>
        intro stage h
        rw [List.foldl_cons, ih _ fun y hy => h y (List.mem_cons_of_mem _ hy),
          h x (List.mem_cons_self ..), if_neg (List.cons_ne_nil x l)]
        split
        · exact UInt32.or_zero
        · rw [UInt32.or_assoc, UInt32.or_self]
  have h := hfrom data (0 ||| pidBits .pidSetup) hdir
  rwa [UInt32.zero_or] at h

/-- The status stage does not depend on what was before. -/
theorem zlpToken_prev {stage : UInt32} (h : stage &&& pidBits .pidSetup ≠ 0)
    (prev : UInt32) : zlpToken stage prev = zlpToken stage 0 := by
  unfold zlpToken
  rw [if_pos h, if_pos h]

/-- The status stage. -/
theorem zlpToken_status {data : List Xact} {dir : XactType} (prev : UInt32)
    (hdir : dir = .pidIn ∨ dir = .pidOut)
    (hdata : ∀ x ∈ data, x.type = dir) :
    pidField (zlpToken (xactStage (⟨.pidSetup, 8⟩ :: data)) prev)
        = pidField (pidBits (if data = [] then .pidIn else dir.opposite))
      ∧ testBit
        (zlpToken (xactStage (⟨.pidSetup, 8⟩ :: data)) prev) tdtokDt
        = true := by
  rw [xactStage_control hdata]
  by_cases hnil : data = []
  · rw [if_pos hnil, if_pos hnil, zlpToken_prev (by decide)]
    decide
  · rw [if_neg hnil, if_neg hnil]
    rcases hdir with rfl | rfl
    · rw [zlpToken_prev (by decide)]
      decide
    · rw [zlpToken_prev (by decide)]
      decide

/-- A control transfer has one descriptor more than transactions. -/
theorem length_groupTokens_control (htype : ep.type = .control)
    (speed : Speed) (xact : List Xact) :
    (groupTokens ep speed xact).length = xact.length + 1 := by
  unfold groupTokens
  rw [if_pos (.inr htype), List.length_append, length_xactTokens]
  rfl

/-- The last descriptor of a control transfer has no data. -/
theorem groupTokens_status (htype : ep.type = .control) (speed : Speed)
    (xact : List Xact) :
    (groupTokens ep speed xact).getD xact.length 0
      = zlpToken (xactStage xact)
          ((xactTokens ep speed 0 xact).getLastD 0) := by
  unfold groupTokens
  rw [if_pos (.inr htype), List.getD_eq_getElem?_getD,
    List.getElem?_append_right (by rw [length_xactTokens]),
    length_xactTokens, Nat.sub_self]
  rfl

/-- A control transfer is made as the device expects it, for every size of
packet and every data stage. -/
theorem control_stages {m : Nat} {data : List Xact} {dir : XactType}
    (hS : Supply block) (htype : ep.type = .control)
    (hpkt : ep.maxPkt.toNat = 2 ^ m) (hm : 3 ≤ m)
    (hdir : dir = .pidIn ∨ dir = .pidOut)
    (hdata : ∀ x ∈ data, x.type = dir ∧ x.len.toNat < 2 ^ 15)
    (hfull : ∀ x ∈ data.dropLast, 0 < x.len.toNat ∧ 2 ^ m ∣ x.len.toNat)
    (hn : data.length + 2 ≤ n) :
    ControlStages
      (alloced ep speed (⟨.pidSetup, 8⟩ :: data) cb block n tdns) block
      (2 ^ m) (⟨.pidSetup, 8⟩ :: data) data dir cb := by
  generalize hxact : (⟨.pidSetup, 8⟩ :: data : List Xact) = xact
  have hlx : xact.length = data.length + 1 := by
    rw [← hxact]
    rfl
  have hlen := length_groupTokens_control htype speed xact
  have hsize : ∀ x ∈ xact, x.len.toNat < 2 ^ 15 := by
    intro x hmem
    rw [← hxact, List.mem_cons] at hmem
    rcases hmem with heq | hmem
    · rw [heq]
      decide
    · exact (hdata x hmem).2
  have hn' : xact.length + 1 ≤ n := by omega
  have hdir' : ∀ x ∈ data, x.type = dir := fun x hx => (hdata x hx).1
  refine ⟨listed_alloced hS hlen hn', ?_, ?_, ?_, ?_⟩
  · intro i h
    obtain ⟨extra, hextra, htoken⟩ :=
      alloced_token cb tdns hS hlen hn' (Nat.le_of_lt h)
    rw [groupTokens_getD h] at htoken
    exact Carries.of_token htoken hextra
      (xactToken_bytes _ _ _ (hsize _ (List.get_mem ..)))
      (xactToken_pid _ _ _ _)
  · intro i h
    obtain ⟨extra, hextra, htoken⟩ :=
      alloced_token cb tdns hS hlen hn' (Nat.le_of_lt h)
    rw [htoken, testBit_dt_of_token hextra, groupTokens_getD h,
      xactToken_dt htype]
    cases i with
    | zero => exact toggle_setup hpkt
    | succ i =>
        rw [← hxact]
        exact toggle_data hm hpkt (fun x hx => (hfull x hx).2) (by omega)
  · obtain ⟨extra, hextra, htoken⟩ :=
      alloced_token cb tdns hS hlen hn' (Nat.le_refl _)
    rw [groupTokens_status htype] at htoken
    refine Carries.of_token htoken hextra (zlpToken_bytes _ _) ?_
    rw [← hxact]
    exact (zlpToken_status _ hdir hdir').1
  · obtain ⟨extra, hextra, htoken⟩ :=
      alloced_token cb tdns hS hlen hn' (Nat.le_refl _)
    rw [htoken, testBit_dt_of_token hextra, groupTokens_status htype,
      ← hxact]
    exact (zlpToken_status _ hdir hdir').2

-- ============================================================ bulk stages

/-- `TDTOK_PID_OUT` has no bits, so that only control transfers get a
packet without data. -/
theorem groupTokens_bulk (htype : ep.type = .bulk) (speed : Speed)
    (xact : List Xact) :
    groupTokens ep speed xact = xactTokens ep speed 0 xact := by
  have hout : pidBits .pidOut = 0 := by decide
  unfold groupTokens
  rw [if_neg]
  rw [hout, UInt32.and_zero, htype]
  simp

/-- What is made of a bulk OUT transfer: one descriptor for each
transaction, and no more. -/
theorem out_stages (hS : Supply block) (htype : ep.type = .bulk)
    (hne : xact ≠ []) (hout : ∀ x ∈ xact, x.type = .pidOut)
    (hn : xact.length ≤ n) :
    OutStages (alloced ep speed xact cb block n tdns) block xact cb
      false := by
  have hpos : 0 < xact.length := List.length_pos_of_ne_nil hne
  have hlen : (groupTokens ep speed xact).length
      = xact.length - 1 + 1 := by
    rw [groupTokens_bulk htype, length_xactTokens]
    omega
  have hn' : xact.length - 1 + 1 ≤ n := by omega
  refine ⟨listed_alloced hS hlen hn', ?_, nofun⟩
  intro i h hsize
  obtain ⟨extra, hextra, htoken⟩ :=
    alloced_token cb tdns hS hlen hn' (show i ≤ xact.length - 1 by omega)
  rw [groupTokens_getD h] at htoken
  refine Carries.of_token htoken hextra (xactToken_bytes _ _ _ hsize) ?_
  rw [xactToken_pid, hout _ (List.get_mem ..)]

/-- A bulk OUT transfer is terminated for the device exactly if its last
packet is not full: the zero length packet behind a full one is never made.
-/
theorem out_terminated (hS : Supply block) (htype : ep.type = .bulk)
    (hne : xact ≠ []) (hout : ∀ x ∈ xact, x.type = .pidOut)
    (hn : xact.length + 1 ≤ n) :
    Terminated (alloced ep speed xact cb block n tdns) block
        ep.maxPkt.toNat xact cb
      ↔ lenSum xact % ep.maxPkt.toNat ≠ 0 := by
  have hpos : 0 < xact.length := List.length_pos_of_ne_nil hne
  have hmade : OutStages (alloced ep speed xact cb block n tdns) block xact
      cb false := out_stages hS htype hne hout (by omega)
  constructor
  · intro h hfull
    unfold Terminated at h
    rw [decide_eq_true hfull] at h
    -- the last descriptor interrupts, and is not the last
    have hlast := hmade.listed.ioc (xact.length - 1) (Nat.le_refl _)
    have hearly := h.listed.ioc (xact.length - 1) (Nat.sub_le ..)
    rw [hlast, decide_eq_decide] at hearly
    have hlt := hearly.1 rfl
    rw [if_pos rfl] at hlt
    omega
  · intro hrest
    unfold Terminated
    rw [decide_eq_false hrest]
    exact hmade

-- ============================================================== samples

/-- Blocks of 32 bytes, one behind the other. -/
def tdBlocks (i : Nat) : TdId × UInt32 := (i, UInt32.ofNat i <<< 5)

/-- A supply of descriptors that never gives one out twice. -/
theorem tdBlocks_supply : Supply tdBlocks where
  fresh := fun _ _ h => h
  aligned := by
    intro i
    apply eq_of_testBit
    intro b hb
    have hlow : (0x1f : UInt32) = low 5 := rfl
    show testBit (UInt32.ofNat i <<< UInt32.ofNat 5 &&& 0x1f) b = _
    rw [testBit_and, hlow, testBit_low (by decide),
      testBit_shiftLeft _ (by decide) hb, testBit_zero]
    by_cases h5 : b < 5
    · rw [decide_eq_false (by omega), Bool.false_and, Bool.false_and]
    · rw [decide_eq_false h5, Bool.and_false]

/-- A descriptor that is not in use. -/
def blankTd : TDn := ⟨false, 0, 0, 0, none, none⟩

/-- A read of 64 and 18 bytes from a device with packets of 64. -/
theorem control_stages_sample :
    ControlStages
      (alloced ⟨.control, 64⟩ .high
        [⟨.pidSetup, 8⟩, ⟨.pidIn, 64⟩, ⟨.pidIn, 18⟩]
        (some 7) tdBlocks
        4 fun _ => blankTd) tdBlocks (2 ^ 6)
      [⟨.pidSetup, 8⟩, ⟨.pidIn, 64⟩, ⟨.pidIn, 18⟩]
      [⟨.pidIn, 64⟩, ⟨.pidIn, 18⟩] .pidIn (some 7) :=
  control_stages tdBlocks_supply rfl rfl (by decide) (.inl rfl)
    (by decide +kernel) (by decide +kernel) (by decide)

/-- 100 bytes in packets of 512. -/
theorem out_terminated_sample :
    Terminated (alloced ⟨.bulk, 512⟩ .high [⟨.pidOut, 100⟩] (some 7)
      tdBlocks 2 fun _ => blankTd) tdBlocks 512 [⟨.pidOut, 100⟩] (some 7) :=
  (@out_terminated ⟨.bulk, 512⟩ .high [⟨.pidOut, 100⟩] (some 7) 2
    tdBlocks (fun _ => blankTd) tdBlocks_supply rfl (List.cons_ne_nil _ _)
    (by decide) (by decide)).2 (by decide)

/-- One full packet: its descriptor is the only one. -/
theorem full_packet_unterminated :
    (alloced ⟨.bulk, 512⟩ .high [⟨.pidOut, 512⟩] (some 7) tdBlocks 2
        (fun _ => blankTd) 0).next = none
      ∧ ¬Terminated (alloced ⟨.bulk, 512⟩ .high [⟨.pidOut, 512⟩]
          (some 7) tdBlocks 2 fun _ => blankTd) tdBlocks 512
        [⟨.pidOut, 512⟩] (some 7) := by
  refine ⟨by decide +kernel, ?_⟩
  intro h
  have hnext := h.listed.next.2
  revert hnext
  decide +kernel

end ProjectsLibs.Ehci
