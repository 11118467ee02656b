/-
The registry finds what was connected, unless the null address gets in
its way (`registry_right_iff`).

# Shape of the argument

A connect fills the first slot whose address is null, so the slots fill
up in order, and a connect with the null address leaves its slot to the
next one. The table after a sequence of calls is that of the connects
with other addresses (`real`), in their order, and free behind them
(`Inv`).
-/
import ProjectsLibs.Vswitch.Basic

namespace ProjectsLibs.Vswitch

variable {lib : Table} {mac : EtherAddr} {done : List Connect} {s : Switch}
  {c : Connect}

-- ============================================================= the loops

theorem mac802AddrEq_iff {a b : EtherAddr} :
    mac802AddrEq a b = true ↔ a = b := by
  unfold mac802AddrEq mac802AddrEqNum
  rw [List.take_of_length_le (by simp), List.all_eq_true]
  simp only [List.mem_finRange, true_implies, decide_eq_true_eq]
  exact funext_iff.symm

/-- The first node with the address is found. -/
theorem indexOf_first {i : Fin vswitchNumNodes}
    (hi : (lib.nodes i).addr = mac)
    (hbefore : ∀ j < i, (lib.nodes j).addr ≠ mac) :
    indexOf lib mac = i := by
  have hfind : (List.finRange vswitchNumNodes).find? (fun i =>
      mac802AddrEq (lib.nodes i).addr mac) = some i := by
    rw [List.find?_eq_some_iff_getElem]
    refine ⟨mac802AddrEq_iff.2 hi, i, by simp, by simp, fun j hj => ?_⟩
    rw [List.getElem_finRange, Bool.not_eq_true', ← Bool.not_eq_true,
      mac802AddrEq_iff]
    exact hbefore _ hj
  unfold indexOf
  rw [hfind]

/-- None is found if there is none. -/
theorem indexOf_none (h : ∀ i, (lib.nodes i).addr ≠ mac) :
    indexOf lib mac = -1 := by
  have hfind : (List.finRange vswitchNumNodes).find? (fun i =>
      mac802AddrEq (lib.nodes i).addr mac) = none := by
    rw [List.find?_eq_none]
    intro i _
    rw [mac802AddrEq_iff]
    exact h i
  unfold indexOf
  rw [hfind]

/-- Looking up by index gives the node in the slot, unless the slot is
free. -/
theorem byIndex_eq (i : Fin vswitchNumNodes) :
    vswitchGetDestnodeByIndex lib i
      = .ok (if (lib.nodes i).addr = nullMacaddr then none
          else some (lib.nodes i)) := by
  unfold vswitchGetDestnodeByIndex
  rw [dif_pos i.isLt]
  dsimp only
  by_cases h : (lib.nodes i).addr = nullMacaddr
  · rw [if_pos (mac802AddrEq_iff.2 h), if_pos h]
  · rw [if_neg (fun h' => h (mac802AddrEq_iff.1 h')), if_neg h]

-- ============================================================ the slots

/-- The connects with another address than the null address. -/
def real (cs : List Connect) : List Connect :=
  cs.filter fun c => c.guestMacaddr ≠ nullMacaddr

/-- The slots that connects fill, when the first `u` are taken. -/
def slotted (u : Nat) : List Connect → List (Connect × Int)
  | [] => []
  | c :: cs =>
      (c, u) :: slotted (if c.guestMacaddr = nullMacaddr then u else u + 1) cs

/-- Connects with the null address do not take a slot. -/
theorem real_cons (c : Connect) (cs : List Connect) :
    real (c :: cs) = if c.guestMacaddr = nullMacaddr then real cs
      else c :: real cs := by
  unfold real
  rw [List.filter_cons]
  by_cases h : c.guestMacaddr = nullMacaddr
  · simp [h]
  · simp [h]

/-- The next connect gets the slot behind those taken. -/
theorem slotted_append (u : Nat) (cs : List Connect) (c : Connect) :
    slotted u (cs ++ [c])
      = slotted u cs ++ [(c, ((u + (real cs).length : Nat) : Int))] := by
  induction cs generalizing u with
  | nil => rfl
  | cons d cs ih =>
      rw [List.cons_append, slotted, slotted, ih, real_cons,
        List.cons_append]
      split
      · rfl
      · rw [List.length_cons, Nat.add_right_comm, Nat.add_assoc]

/-- The slots are given out in the order of the connects. -/
theorem map_fst_slotted (u : Nat) (cs : List Connect) :
    (slotted u cs).map Prod.fst = cs := by
  induction cs generalizing u with
  | nil => rfl
  | cons c cs ih => rw [slotted, List.map_cons, ih]

/-- None of them is below the first. -/
theorem le_of_mem_slotted {u : Nat} {cs : List Connect} {x : Int}
    (h : x ∈ (slotted u cs).map Prod.snd) : (u : Int) ≤ x := by
  induction cs generalizing u with
  | nil => cases h
  | cons c cs ih =>
      rw [slotted, List.map_cons, List.mem_cons] at h
      rcases h with rfl | h
      · exact Int.le_refl _
      · have hle := ih h
        split at hle
        · exact hle
        · omega

theorem lt_of_mem_slotted {u : Nat} {cs : List Connect}
    {e : Connect × Int} (he : e ∈ slotted u cs) :
    e.2 < ((u + cs.length : Nat) : Int) := by
  induction cs generalizing u with
  | nil => cases he
  | cons c cs ih =>
      rw [slotted, List.mem_cons] at he
      rw [List.length_cons]
      rcases he with rfl | he
      · dsimp only
        omega
      · have hlt := ih he
        split at hlt
        · omega
        · omega

/-- The slots in front of the free ones are filled. -/
theorem mem_slotted {u j : Nat} {cs : List Connect}
    (hj : j < (real cs).length) :
    ∃ e ∈ slotted u cs, e.2 = ((u + j : Nat) : Int) := by
  induction cs generalizing u j with
  | nil => cases hj
  | cons c cs ih =>
      rw [real_cons] at hj
      rw [slotted]
      split at hj
      · next hc =>
          obtain ⟨e, he, hslot⟩ := ih (u := u) hj
          refine ⟨e, List.mem_cons_of_mem _ ?_, hslot⟩
          rw [if_pos hc]
          exact he
      · next hc =>
          cases j with
          | zero => exact ⟨(c, u), List.mem_cons_self .., rfl⟩
          | succ j =>
              rw [List.length_cons] at hj
              obtain ⟨e, he, hslot⟩ := ih (u := u + 1)
                (Nat.lt_of_succ_lt_succ hj)
              refine ⟨e, List.mem_cons_of_mem _ ?_, ?_⟩
              · rw [if_neg hc]
                exact he
              · rw [hslot]
                omega

/-- A slot is filled twice exactly if a connect with the null address has
filled it and another one follows. -/
theorem slotted_nodup_iff (u : Nat) (cs : List Connect) :
    ((slotted u cs).map Prod.snd).Nodup
      ↔ ∀ c ∈ cs.dropLast, c.guestMacaddr ≠ nullMacaddr := by
  induction cs generalizing u with
  | nil => simp [slotted]
  | cons c cs ih =>
      cases cs with
      | nil => simp [slotted]
      | cons d cs =>
          rw [slotted, List.map_cons, List.nodup_cons, ih,
            List.dropLast_cons_cons, List.forall_mem_cons]
          refine and_congr_left fun _ => ?_
          by_cases hc : c.guestMacaddr = nullMacaddr
          · rw [if_pos hc]
            simp [slotted, hc]
          · rw [if_neg hc]
            refine iff_of_true (fun hmem => ?_) hc
            have hle := le_of_mem_slotted hmem
            omega

-- ========================================================== the invariant

/-- The table after the connects `done` have succeeded. -/
structure Inv (done : List Connect) (s : Switch) : Prop where
  filled : s.filled = slotted 0 done
  count : s.lib.nConnected = done.length
  le : done.length ≤ vswitchNumNodes
  taken : ∀ (i : Fin vswitchNumNodes) (c : Connect),
    (real done)[i.val]? = some c → s.lib.nodes i = c.node
  free : ∀ i : Fin vswitchNumNodes, (real done).length ≤ i →
    (s.lib.nodes i).addr = nullMacaddr

/-- At most as many slots are taken as there were connects. -/
theorem real_length_le (done : List Connect) :
    (real done).length ≤ done.length := List.length_filter_le ..

namespace Inv

/-- The address of a slot that is taken is not the null address. -/
theorem addr_ne (h : Inv done s) {i : Fin vswitchNumNodes}
    (hi : i < (real done).length) : (s.lib.nodes i).addr ≠ nullMacaddr := by
  have hget := List.getElem?_eq_getElem hi
  rw [h.taken i _ hget]
  have hmem := List.getElem_mem hi
  exact of_decide_eq_true (List.mem_filter.1 hmem).2

/-- The first free slot. -/
theorem freeSlot_eq (h : Inv done s)
    (hlt : (real done).length < vswitchNumNodes) :
    vswitchFindFreeSlot s.lib = (real done).length := by
  refine indexOf_first (i := ⟨(real done).length, hlt⟩)
    (h.free _ (Nat.le_refl _)) ?_
  intro j hj
  exact h.addr_ne hj

theorem init : Inv [] ⟨vswitchInit, []⟩ := by
  refine ⟨rfl, rfl, Nat.zero_le _, ?_, fun _ _ => rfl⟩
  intro i c hc
  cases hc

/-- A call while there is room. -/
theorem connect_ok (h : Inv done s) (hlt : done.length < vswitchNumNodes)
    (c : Connect) :
    vswitchConnect s.lib c = .ok (0, {
      nConnected := s.lib.nConnected + 1
      nodes := fun i => if (i : Int) = (real done).length then c.node
        else s.lib.nodes i }) := by
  have hreal := Nat.lt_of_le_of_lt (real_length_le done) hlt
  unfold vswitchConnect
  rw [if_neg (by rw [h.count]; omega), if_neg (by rw [h.count]; omega),
    h.freeSlot_eq hreal]
  dsimp only
  rw [if_neg (by omega)]

/-- A call when there is none. -/
theorem connect_full (h : Inv done s) (hfull : done.length = vswitchNumNodes)
    (c : Connect) : vswitchConnect s.lib c = .ok (-1, s.lib) := by
  unfold vswitchConnect
  rw [if_neg (by rw [h.count]; omega), if_pos (by rw [h.count]; omega)]

/-- One more connect, as long as there were fewer than slots. -/
theorem step (h : Inv done s) (hlt : done.length < vswitchNumNodes)
    (c : Connect) :
    ∃ s', connectStep s c = .ok s' ∧ Inv (done ++ [c]) s' := by
  have hreal := Nat.lt_of_le_of_lt (real_length_le done) hlt
  have hslot := h.freeSlot_eq hreal
  unfold connectStep
  rw [h.connect_ok hlt c]
  dsimp only
  rw [if_pos rfl]
  refine ⟨_, rfl, ?_, ?_, ?_, ?_, ?_⟩
  · rw [slotted_append, h.filled, hslot, Nat.zero_add]
  · simp [h.count]
  · rw [List.length_append]
    exact hlt
  · intro i d hd
    have happend : real (done ++ [c]) = real done ++ real [c] :=
      List.filter_append ..
    rw [happend, List.getElem?_append] at hd
    dsimp only
    split at hd
    · next hi =>
        rw [if_neg (by omega)]
        exact h.taken i d hd
    · next hi =>
        have hmem := List.mem_of_getElem? hd
        have hdc := List.mem_singleton.1 (List.mem_filter.1 hmem).1
        have hlen : i.val - (real done).length < (real [c]).length :=
          (List.getElem?_eq_some_iff.1 hd).1
        have hle : (real [c]).length ≤ 1 := real_length_le [c]
        rw [if_pos (by omega), hdc]
  · intro i hi
    have happend : real (done ++ [c]) = real done ++ real [c] :=
      List.filter_append ..
    rw [happend, List.length_append] at hi
    dsimp only
    by_cases heq : (i : Int) = (real done).length
    · have hnone : (real [c]).length = 0 := by omega
      rw [if_pos heq]
      by_contra hne
      have hne : c.guestMacaddr ≠ nullMacaddr := hne
      rw [real_cons, if_neg hne] at hnone
      cases hnone
    · rw [if_neg heq]
      exact h.free i (by omega)

end Inv

/-- The first calls succeed, until the table is full. -/
theorem connectAll_ok (cs : List Connect) :
    ∃ s, connectAll cs = .ok s ∧ Inv (cs.take vswitchNumNodes) s := by
  induction cs using List.reverseRecOn with
  | nil => exact ⟨_, rfl, Inv.init⟩
  | append_singleton cs c ih =>
      obtain ⟨s, hrun, hI⟩ := ih
      have hsucc : connectAll (cs ++ [c]) = connectStep s c := by
        unfold connectAll at hrun ⊢
        rw [List.foldlM_append, hrun]
        show (connectStep s c >>= fun s => pure s) = _
        exact bind_pure _
      rw [hsucc]
      by_cases hlt : cs.length < vswitchNumNodes
      · rw [List.take_of_length_le (Nat.le_of_lt hlt)] at hI
        rw [List.take_of_length_le (by rw [List.length_append]; exact hlt)]
        exact hI.step hlt c
      · have hle : vswitchNumNodes ≤ cs.length := Nat.le_of_not_lt hlt
        rw [List.take_append_of_le_length hle]
        have hfull := List.length_take_of_le hle
        refine ⟨s, ?_, hI⟩
        unfold connectStep
        rw [hI.connect_full hfull c]
        rfl

-- ============================================================== lookups

namespace Inv

/-- The node with an address is the first that connected with it. -/
theorem firstWith_eq (h : Inv done s) (mac : EtherAddr) :
    firstWith s mac = done.find? fun c => c.guestMacaddr = mac := by
  unfold firstWith
  rw [h.filled]
  conv_rhs => rw [← map_fst_slotted 0 done, List.find?_map]
  rfl

/-- A node with another address than the null address. -/
theorem found (h : Inv done s) (hne : mac ≠ nullMacaddr) {d : Connect}
    (hd : firstWith s mac = some d) :
    ∃ node, vswitchGetDestnodeByMacaddr s.lib mac = .ok (some node)
      ∧ node.virtqueues = d.node.virtqueues := by
  rw [h.firstWith_eq] at hd
  have hmac : d.guestMacaddr = mac := by simpa using List.find?_some hd
  have hreal : (real done).find? (fun c => c.guestMacaddr = mac)
      = some d := by
    unfold real
    rw [List.find?_filter, ← hd]
    congr 1
    funext c
    by_cases hc : c.guestMacaddr = mac
    · simp [hc, hne]
    · simp [hc]
  obtain ⟨-, i, hi, hget, hbefore⟩ := List.find?_eq_some_iff_getElem.1 hreal
  have hlt : i < vswitchNumNodes :=
    Nat.lt_of_lt_of_le hi (Nat.le_trans (real_length_le done) h.le)
  have hnode : s.lib.nodes ⟨i, hlt⟩ = d.node :=
    h.taken ⟨i, hlt⟩ d (by rw [List.getElem?_eq_getElem hi, hget])
  have hindex : vswitchGetDestnodeIndexByMacaddr s.lib mac = i := by
    refine indexOf_first (i := ⟨i, hlt⟩) ?_ fun j hj => ?_
    · rw [hnode]
      exact hmac
    · have hji : j.val < i := hj
      have hjlen := Nat.lt_trans hji hi
      rw [h.taken j _ (List.getElem?_eq_getElem hjlen)]
      have hno := hbefore j.val hji
      rw [Bool.not_eq_true', decide_eq_false_iff_not] at hno
      exact hno
  refine ⟨d.node, ?_, rfl⟩
  unfold vswitchGetDestnodeByMacaddr
  rw [hindex]
  dsimp only
  rw [if_neg (by omega), Int.toNat_natCast, byIndex_eq ⟨i, hlt⟩, hnode,
    if_neg (by rw [← hmac] at hne; exact hne)]

/-- An address that no slot has. -/
theorem absent (h : Inv done s) (hnone : firstWith s mac = none)
    (hnull : mac = nullMacaddr →
      vswitchNumNodes ≤ (real done).length) :
    vswitchGetDestnodeByMacaddr s.lib mac = .ok none
      ∧ vswitchGetDestnodeIndexByMacaddr s.lib mac < 0 := by
  have hindex : vswitchGetDestnodeIndexByMacaddr s.lib mac = -1 := by
    apply indexOf_none
    intro i hi
    by_cases hlt : i.val < (real done).length
    · rw [h.taken i _ (List.getElem?_eq_getElem hlt)] at hi
      rw [h.firstWith_eq, List.find?_eq_none] at hnone
      have hmem := (List.mem_filter.1 (List.getElem_mem hlt)).1
      exact hnone _ hmem (decide_eq_true hi)
    · rw [h.free i (Nat.le_of_not_lt hlt)] at hi
      have hle := hnull hi.symm
      have hi := i.isLt
      omega
  unfold vswitchGetDestnodeByMacaddr
  rw [hindex]
  exact ⟨rfl, by decide⟩

/-- Looked up, the null address is never found. -/
theorem null_absent (h : Inv done s) (node : VswitchNode) :
    vswitchGetDestnodeByMacaddr s.lib nullMacaddr ≠ .ok (some node) := by
  by_cases hlt : (real done).length < vswitchNumNodes
  · have hindex : vswitchGetDestnodeIndexByMacaddr s.lib nullMacaddr
        = (real done).length := h.freeSlot_eq hlt
    unfold vswitchGetDestnodeByMacaddr
    rw [hindex]
    dsimp only
    rw [if_neg (by omega), Int.toNat_natCast,
      byIndex_eq ⟨(real done).length, hlt⟩,
      if_pos (h.free ⟨_, hlt⟩ (Nat.le_refl _))]
    nofun
  · have hindex : vswitchGetDestnodeIndexByMacaddr s.lib nullMacaddr
        = -1 := by
      apply indexOf_none
      intro i
      have hi := i.isLt
      exact h.addr_ne (by omega)
    unfold vswitchGetDestnodeByMacaddr
    rw [hindex]
    nofun

/-- A slot that was not given out is free. -/
theorem byIndex (h : Inv done s) {index : Nat}
    (hlt : index < vswitchNumNodes)
    (hout : ∀ e ∈ s.filled, e.2 ≠ index) :
    vswitchGetDestnodeByIndex s.lib index = .ok none := by
  have hfree : (real done).length ≤ index := by
    by_contra hnot
    obtain ⟨e, he, hslot⟩ := mem_slotted (u := 0) (Nat.lt_of_not_le hnot)
    rw [Nat.zero_add] at hslot
    exact hout e (h.filled ▸ he) hslot
  rw [byIndex_eq ⟨index, hlt⟩, if_pos (h.free ⟨index, hlt⟩ hfree)]

/-- Looked up, the null address has no index in a full table only. -/
theorem null_index_neg (h : Inv done s)
    (hneg : vswitchGetDestnodeIndexByMacaddr s.lib nullMacaddr < 0) :
    vswitchNumNodes ≤ (real done).length := by
  by_contra hnot
  have hindex : vswitchGetDestnodeIndexByMacaddr s.lib nullMacaddr
      = (real done).length := h.freeSlot_eq (Nat.lt_of_not_le hnot)
  rw [hindex] at hneg
  omega

end Inv

/-- A table full of other addresses. -/
theorem real_full_iff {cs : List Connect} :
    vswitchNumNodes ≤ (real (cs.take vswitchNumNodes)).length
      ↔ vswitchNumNodes ≤ cs.length
        ∧ ∀ c ∈ cs.take vswitchNumNodes,
          c.guestMacaddr ≠ nullMacaddr := by
  have hreal := real_length_le (cs.take vswitchNumNodes)
  have htake := List.length_take_le vswitchNumNodes cs
  constructor
  · intro hfull
    have hlen : (cs.take vswitchNumNodes).length = vswitchNumNodes := by
      omega
    refine ⟨?_, ?_⟩
    · rw [List.length_take] at hlen
      omega
    · intro c hc
      have hall := List.length_filter_eq_length_iff.1
        (show (real (cs.take vswitchNumNodes)).length = _ by omega)
      exact of_decide_eq_true (hall c hc)
  · rintro ⟨hlen, hall⟩
    have heq : real (cs.take vswitchNumNodes) = cs.take vswitchNumNodes :=
      List.filter_eq_self.2 fun c hc => decide_eq_true (hall c hc)
    rw [heq, List.length_take]
    omega

-- =========================================================== the registry

/-- The first connects succeed, and the registry is right about them
exactly if the null address does not get in the way and the index is one
of the table. -/
theorem registry_right_iff (cs : List Connect) (c : Connect) (mac : EtherAddr)
    (index : Nat) :
    ∃ s, connectAll cs = .ok s
      ∧ s.filled.map Prod.fst = cs.take vswitchNumNodes
      ∧ (Right s c mac index ↔ Meets cs mac index) := by
  obtain ⟨s, hrun, hI⟩ := connectAll_ok cs
  refine ⟨s, hrun, ?_, ?_, ?_⟩
  · rw [hI.filled, map_fst_slotted]
  · intro hR
    have hslots := hR.slots
    rw [hI.filled, slotted_nodup_iff] at hslots
    refine ⟨hslots, ?_, ?_⟩
    · rintro rfl
      rw [← real_full_iff]
      cases hfirst : firstWith s nullMacaddr with
      | some d =>
          obtain ⟨node, hnode, -⟩ := hR.found d hfirst
          exact absurd hnode (hI.null_absent node)
      | none => exact hI.null_index_neg (hR.absent hfirst).2
    · by_contra hnot
      have hbyIndex := hR.byIndex ?_
      · unfold vswitchGetDestnodeByIndex at hbyIndex
        rw [dif_neg hnot] at hbyIndex
        cases hbyIndex
      · intro e he heq
        rw [hI.filled] at he
        have hlt := lt_of_mem_slotted he
        have hle := hI.le
        omega
  · intro hM
    refine ⟨?_, ?_, ?_, ?_, ?_⟩
    · have hlen : s.filled.length = (cs.take vswitchNumNodes).length := by
        rw [← map_fst_slotted 0 (cs.take vswitchNumNodes), ← hI.filled,
          List.length_map]
      rw [hlen]
      rcases Nat.lt_or_eq_of_le hI.le with hlt | hfull
      · refine ⟨_, _, hI.connect_ok hlt c, ?_, fun h => absurd rfl h⟩
        exact iff_of_false (fun h => h rfl) (Nat.ne_of_lt hlt)
      · refine ⟨_, _, hI.connect_full hfull c, ?_, fun _ => rfl⟩
        exact iff_of_true (by decide) hfull
    · rw [hI.filled, slotted_nodup_iff]
      exact hM.null_last
    · intro d hd
      by_cases hne : mac = nullMacaddr
      · subst hne
        rw [hI.firstWith_eq] at hd
        have hmem := List.mem_of_find?_eq_some hd
        have hmac := List.find?_some hd
        exact absurd (of_decide_eq_true hmac) ((hM.lookup rfl).2 d hmem)
      · exact hI.found hne hd
    · intro hnone
      exact hI.absent hnone fun hnull => real_full_iff.2 (hM.lookup hnull)
    · exact fun hout => hI.byIndex hM.index_lt hout

/-- Two nodes, of which the first has the null address: the second one
takes its slot. -/
theorem null_overwritten :
    ∃ s,
      connectAll [⟨nullMacaddr, 16, 32⟩, ⟨fun _ => 2, 48, 64⟩] = .ok s
      ∧ s.filled.map Prod.snd = [0, 0]
      ∧ ¬Right s ⟨fun _ => 2, 48, 64⟩ (fun _ => 2) 0 := by
  refine ⟨_, rfl, by decide, fun hR => ?_⟩
  exact absurd hR.slots (by decide)

end ProjectsLibs.Vswitch
