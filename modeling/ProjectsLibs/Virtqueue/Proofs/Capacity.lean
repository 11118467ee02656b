/-
Which lengths of a queue work (`works_iff`): those that its 16-bit `next`
fields can hold, since the length itself is the end of the free list and
of a chain.

With such a length the calls take the descriptors in their order
(`Filled`). With a longer one the free list never gets to its end: its
head comes out of a 16-bit field (`Narrow`).

# The two directions

For a length below 65536 the induction is over the calls, with the number
of descriptors taken so far in the invariant: these are the first ones of
the table, the free list begins behind them, and the last descriptor of
each chain links to the length. When all are taken the head of the free
list is the length, and the call that comes then changes nothing.

For a longer length one property is enough. After any number of calls the
head of the free list was loaded from 16 bits, so it is not the length,
and every call takes the branch in which a descriptor is taken. More
calls succeed than there are descriptors, or the end of a chain, stored
in 16 bits, is read as another descriptor.
-/
import ProjectsLibs.Virtqueue.Capacity
import ProjectsLibs.Virtqueue.Proofs.Frame

namespace ProjectsLibs.Virtqueue

open Lib

variable {queueLen n : Nat} {s : System} {used : List Nat} {c : Nat}
  {b : Buf} {calls : List (Nat × Buf)}

-- ============================================================== one call

/-- What a call does with a free descriptor: the head of the list leaves
it and becomes the last of the chain. -/
structure Adds (s : System) (c : Nat) (s' : System) : Prop where
  drv : s'.drv = { s.drv with
    freeDescHead := (s.mem.desc s.drv.freeDescHead).next }
  dev : s'.dev = s.dev
  cur : (s'.chains c).obj.cur = s.drv.freeDescHead
  other : ∀ d, d ≠ c → s'.chains d = s.chains d
  next : s.drv.freeDescHead ≠ (s.chains c).obj.cur →
    (s'.mem.desc s.drv.freeDescHead).next = u16 s.drv.queueLen
  desc : ∀ i, i ≠ s.drv.freeDescHead → i ≠ (s.chains c).obj.cur →
    s'.mem.desc i = s.mem.desc i
  narrow : ∀ i, (s.mem.desc i).next < 2 ^ 16 →
    (s'.mem.desc i).next < 2 ^ 16

/-- The result, and the descriptor at the handle behind the call. -/
def addResult (s : System) (c : Nat) (b : Buf) : Nat × Nat :=
  let r := virtqueueAddAvailableBuf s.drv s.mem (s.chains c).obj b
  (r.1, r.2.2.2.cur)

/-- A sequence of adds is the first one and the rest in the state behind
it. -/
theorem addRun_cons :
    addRun s ((c, b) :: calls)
      = (addResult s c b :: (addRun (addAvailStep s c b) calls).1,
        (addRun (addAvailStep s c b) calls).2) := rfl

/-- At the end of the free list nothing is added and nothing changes: the
branch that every capacity result has to see taken. -/
theorem virtqueueAddAvailableBuf_full (mem : Mem) (obj : RingObject)
    (h : s.drv.freeDescHead = s.drv.queueLen) :
    virtqueueAddAvailableBuf s.drv mem obj b = (0, s.drv, mem, obj) := by
  simp [virtqueueAddAvailableBuf, vqAddDesc, h]

theorem u16_lt (x : Nat) : u16 x < 2 ^ 16 := Nat.mod_lt _ (by decide)

/-- The table behind a call: the new descriptor, linked from the one at the
handle. -/
def linkedDesc (s : System) (cur : Nat) (b : Buf) : Nat → VringDesc :=
  let new := s.drv.freeDescHead
  let desc := Function.update s.mem.desc new
    ⟨b.addr, b.len, b.flag, u16 s.drv.queueLen⟩
  if cur < s.drv.queueLen then
    Function.update desc cur { desc cur with next := u16 new }
  else desc

/-- The descriptor that was taken is the end of its chain: it links to what
16 bits hold of the queue's length, which is the length itself only below
65536. -/
theorem linkedDesc_new {cur : Nat} (h : s.drv.freeDescHead ≠ cur) :
    (linkedDesc s cur b s.drv.freeDescHead).next = u16 s.drv.queueLen := by
  unfold linkedDesc
  by_cases hcur : cur < s.drv.queueLen
  · simp only [if_pos hcur]
    rw [Function.update_of_ne h, Function.update_self]
  · simp only [if_neg hcur]
    rw [Function.update_self]

/-- Of the other descriptors only the one that was the last of the chain is
written to. -/
theorem linkedDesc_other {cur i : Nat} (hi : i ≠ s.drv.freeDescHead)
    (hcur : i ≠ cur) : linkedDesc s cur b i = s.mem.desc i := by
  unfold linkedDesc
  by_cases hlt : cur < s.drv.queueLen
  · simp only [if_pos hlt]
    rw [Function.update_of_ne hcur, Function.update_of_ne hi]
  · simp only [if_neg hlt]
    rw [Function.update_of_ne hi]

/-- Links are 16 bits wide in the table, and an add writes none that is
wider. -/
theorem linkedDesc_narrow {cur i : Nat}
    (h : (s.mem.desc i).next < 2 ^ 16) :
    (linkedDesc s cur b i).next < 2 ^ 16 := by
  have hnew : (Function.update s.mem.desc s.drv.freeDescHead
      ⟨b.addr, b.len, b.flag, u16 s.drv.queueLen⟩ i).next < 2 ^ 16 := by
    by_cases hi : i = s.drv.freeDescHead
    · rw [hi, Function.update_self]
      exact u16_lt _
    · rw [Function.update_of_ne hi]
      exact h
  unfold linkedDesc
  by_cases hlt : cur < s.drv.queueLen
  · simp only [if_pos hlt]
    by_cases hi : i = cur
    · rw [hi, Function.update_self]
      exact u16_lt _
    · rw [Function.update_of_ne hi]
      exact hnew
  · simp only [if_neg hlt]
    exact hnew

/-- The call on a queue whose free list is not at its end. -/
theorem virtqueueAddAvailableBuf_eq (obj : RingObject) (b : Buf)
    (h : s.drv.freeDescHead ≠ s.drv.queueLen) :
    ∃ mem first, virtqueueAddAvailableBuf s.drv s.mem obj b
      = (1, { s.drv with
          freeDescHead := (s.mem.desc s.drv.freeDescHead).next }, mem,
        { cur := s.drv.freeDescHead, first := first })
      ∧ mem.desc = linkedDesc s obj.cur b := by
  have hadd : vqAddDesc s.drv s.mem b obj.cur
      = (s.drv.freeDescHead, { s.drv with
          freeDescHead := (s.mem.desc s.drv.freeDescHead).next },
        { s.mem with desc := linkedDesc s obj.cur b }) := by
    simp only [vqAddDesc, if_neg h, linkedDesc]
  by_cases hfirst : s.drv.queueLen ≤ obj.first
  · refine ⟨(virtqueueAddAvailableBuf s.drv s.mem obj b).2.2.1,
      s.drv.freeDescHead, ?_, ?_⟩
    · simp only [virtqueueAddAvailableBuf, hadd, if_neg h, if_pos hfirst]
    · simp only [virtqueueAddAvailableBuf, hadd, if_neg h, if_pos hfirst]
  · refine ⟨(virtqueueAddAvailableBuf s.drv s.mem obj b).2.2.1, obj.first,
      ?_, ?_⟩
    · simp only [virtqueueAddAvailableBuf, hadd, if_neg h, if_neg hfirst]
    · simp only [virtqueueAddAvailableBuf, hadd, if_neg h, if_neg hfirst]

/-- A call while the free list is not at its end. -/
theorem adds_of_ne (c : Nat) (b : Buf)
    (h : s.drv.freeDescHead ≠ s.drv.queueLen) :
    addResult s c b = (1, s.drv.freeDescHead)
      ∧ Adds s c (addAvailStep s c b) := by
  obtain ⟨mem, first, hcall, hmem⟩ :=
    virtqueueAddAvailableBuf_eq (s.chains c).obj b h
  refine ⟨by simp only [addResult, hcall], ?_⟩
  unfold addAvailStep
  simp only [hcall]
  constructor
  · rfl
  · rfl
  · simp
  · intro d hd
    exact Function.update_of_ne hd _ _
  · intro hne
    rw [hmem]
    exact linkedDesc_new hne
  · intro i hi hcur
    rw [hmem]
    exact linkedDesc_other hi hcur
  · intro i hi
    rw [hmem]
    exact linkedDesc_narrow hi

-- ================================================= lengths that fit 16 bits

/-- `n` descriptors are taken, and the chains of the handles `used` end at
different ones of them. -/
structure Filled (queueLen n : Nat) (used : List Nat) (s : System) :
    Prop where
  drv_len : s.drv.queueLen = queueLen
  dev_len : s.dev.queueLen = queueLen
  head : s.drv.freeDescHead = n
  free : ∀ i, n ≤ i → i < queueLen → (s.mem.desc i).next = i + 1
  fresh : ∀ c, c ∉ used → (s.chains c).obj = virtqueueInitRingObject
  cur_lt : ∀ c ∈ used, (s.chains c).obj.cur < n
  ends : ∀ c ∈ used, (s.mem.desc (s.chains c).obj.cur).next = queueLen
  apart : ∀ c ∈ used, ∀ d ∈ used, c ≠ d →
    (s.chains c).obj.cur ≠ (s.chains d).obj.cur

/-- The table as it is set up: every descriptor free, each linking to the
next. -/
theorem Filled.init (hlen : queueLen < 2 ^ 16) (mem : Mem) :
    Filled queueLen 0 [] (init queueLen mem) where
  drv_len := rfl
  dev_len := rfl
  head := rfl
  free i _ hi := by
    show (initDescLoop mem.desc 0 queueLen i).next = i + 1
    rw [initDescLoop_apply, if_pos (by omega)]
    exact Nat.mod_eq_of_lt (by omega)
  fresh _ _ := rfl
  cur_lt := by simp
  ends := by simp
  apart := by simp

/-- No handle is at a descriptor that is free. -/
theorem Filled.cur_ne (h : Filled queueLen n used s)
    (hlen : queueLen < 2 ^ 16) (c : Nat) {i : Nat} (hi : n ≤ i)
    (hlt : i < queueLen) : i ≠ (s.chains c).obj.cur := by
  by_cases hc : c ∈ used
  · have hcur := h.cur_lt c hc
    omega
  · rw [h.fresh c hc]
    show i ≠ 2 ^ 32 - 1
    omega

/-- No other handle is at the descriptor of one in use. -/
theorem Filled.cur_apart (h : Filled queueLen n used s)
    (hlen : queueLen < 2 ^ 16) (hn : n ≤ queueLen) {c d : Nat}
    (hd : d ∈ used) (hdc : d ≠ c) :
    (s.chains d).obj.cur ≠ (s.chains c).obj.cur := by
  by_cases hc : c ∈ used
  · exact h.apart d hd c hc hdc
  · have hlt := h.cur_lt d hd
    rw [h.fresh c hc]
    show (s.chains d).obj.cur ≠ 2 ^ 32 - 1
    omega

/-- One more descriptor taken: the add reports its index, and the free list
begins behind it. -/
theorem Filled.add (h : Filled queueLen n used s) (hlen : queueLen < 2 ^ 16)
    (hn : n < queueLen) (c : Nat) (b : Buf) :
    addResult s c b = (1, n)
      ∧ Filled queueLen (n + 1) (c :: used) (addAvailStep s c b) := by
  have hne : s.drv.freeDescHead ≠ s.drv.queueLen := by
    rw [h.head, h.drv_len]
    omega
  obtain ⟨hresult, hadds⟩ := adds_of_ne c b hne
  have hcur_ne := h.cur_ne hlen c (Nat.le_refl n) hn
  have hcur : ((addAvailStep s c b).chains c).obj.cur = n :=
    hadds.cur.trans h.head
  have hother : ∀ d ∈ c :: used, d ≠ c → d ∈ used := fun d hd hdc =>
    (List.mem_cons.1 hd).resolve_left hdc
  rw [h.head] at hresult
  -- the chain that is added to ends at the new descriptor, the others
  -- where they did
  refine ⟨hresult, ?_, ?_, ?_, ?_, ?_, ?_, ?_, ?_⟩
  · rw [hadds.drv]
    exact h.drv_len
  · rw [hadds.dev]
    exact h.dev_len
  · rw [hadds.drv, h.head]
    exact h.free n (Nat.le_refl n) hn
  · intro i hi hlt
    rw [hadds.desc i (by rw [h.head]; omega)
      (h.cur_ne hlen c (by omega) hlt)]
    exact h.free i (by omega) hlt
  · intro d hd
    rw [List.mem_cons, not_or] at hd
    rw [hadds.other d hd.1]
    exact h.fresh d hd.2
  · intro d hd
    by_cases hdc : d = c
    · rw [hdc, hcur]
      exact Nat.lt_succ_self n
    · rw [hadds.other d hdc]
      exact Nat.lt_succ_of_lt (h.cur_lt d (hother d hd hdc))
  · intro d hd
    by_cases hdc : d = c
    · rw [hdc, hcur, ← h.head, hadds.next (by rw [h.head]; exact hcur_ne),
        h.drv_len]
      exact Nat.mod_eq_of_lt hlen
    · have hd' := hother d hd hdc
      have hlt := h.cur_lt d hd'
      rw [hadds.other d hdc, hadds.desc]
      · exact h.ends d hd'
      · rw [h.head]
        omega
      · exact h.cur_apart hlen (Nat.le_of_lt hn) hd' hdc
  · intro d hd e he hde
    by_cases hdc : d = c
    · have hec : e ≠ c := fun hec => hde (hdc.trans hec.symm)
      have hlt := h.cur_lt e (hother e he hec)
      rw [hdc, hcur, hadds.other e hec]
      omega
    · have hd' := hother d hd hdc
      have hlt := h.cur_lt d hd'
      by_cases hec : e = c
      · rw [hec, hcur, hadds.other d hdc]
        omega
      · rw [hadds.other d hdc, hadds.other e hec]
        exact h.apart d hd' e (hother e he hec) hde

/-- The calls take the descriptors in their order. -/
theorem Filled.run (h : Filled queueLen n used s) (hlen : queueLen < 2 ^ 16)
    (calls : List (Nat × Buf)) (hn : n + calls.length ≤ queueLen) :
    (addRun s calls).1 = (List.range' n calls.length).map (Prod.mk 1)
      ∧ ∃ used', (∀ c ∈ calls.map Prod.fst, c ∈ used')
        ∧ used ⊆ used'
        ∧ Filled queueLen (n + calls.length) used' (addRun s calls).2 := by
  induction calls generalizing n used s with
  | nil => exact ⟨rfl, used, by simp, List.Subset.refl used, h⟩
  | cons call calls ih =>
      obtain ⟨c, b⟩ := call
      rw [List.length_cons] at hn
      obtain ⟨hresult, hadd⟩ := h.add hlen (by omega) c b
      obtain ⟨hrun, used', hused', hsub, hfilled⟩ := ih hadd (by omega)
      rw [addRun_cons]
      refine ⟨?_, used', ?_, ?_, ?_⟩
      · show addResult s c b :: _ = _
        rw [hresult, hrun]
        rfl
      · intro d hd
        rcases List.mem_cons.1 hd with rfl | hd
        · exact hsub (List.mem_cons_self ..)
        · exact hused' d hd
      · exact fun d hd => hsub (List.mem_cons_of_mem c hd)
      · rw [List.length_cons, Nat.add_comm calls.length, ← Nat.add_assoc]
        exact hfilled

/-- Both sides see the end of a chain. -/
theorem Filled.endRecognised (h : Filled queueLen n used s)
    (hn : n ≤ queueLen) (hc : c ∈ used) :
    EndRecognised s (s.chains c).obj := by
  have hlt : (s.chains c).obj.cur < queueLen :=
    Nat.lt_of_lt_of_le (h.cur_lt c hc) hn
  have hends := h.ends c hc
  constructor
  · have hread : virtqueueGatherAvailable s.dev s.mem (s.chains c).obj
        = some ((s.mem.desc (s.chains c).obj.cur).buf,
          { (s.chains c).obj with cur := queueLen }) := by
      unfold virtqueueGatherAvailable
      rw [h.dev_len, if_neg (by omega), hends]
    refine ⟨_, _, hread, ?_⟩
    unfold virtqueueGatherAvailable
    rw [h.dev_len, if_pos (Nat.le_refl queueLen)]
  · have hread : virtqueueGatherUsed s.drv s.mem (s.chains c).obj
        = some ((s.mem.desc (s.chains c).obj.cur).buf,
          (vqPopDesc s.drv s.mem (s.chains c).obj.cur).2.2.1,
          (vqPopDesc s.drv s.mem (s.chains c).obj.cur).2.2.2,
          { (s.chains c).obj with cur := queueLen }) := by
      unfold virtqueueGatherUsed vqPopDesc
      rw [h.drv_len, if_neg (by omega), hends]
    refine ⟨_, _, _, _, hread, ?_⟩
    unfold virtqueueGatherUsed vqPopDesc
    show (if s.drv.queueLen ≤ queueLen then none else _) = none
    rw [if_pos (Nat.le_of_eq h.drv_len)]

/-- A queue whose length fits 16 bits works. -/
theorem works_of_lt (hlen : queueLen < 2 ^ 16) : Works queueLen := by
  intro mem calls hcalls
  obtain ⟨hrun, used, hused, -, hfilled⟩ :=
    (Filled.init hlen mem).run hlen calls (by omega)
  rw [Nat.zero_add] at hfilled
  have hindices : (addRun (init queueLen mem) calls).1.map Prod.snd
      = List.range calls.length := by
    rw [hrun, List.map_map, List.range_eq_range']
    exact List.map_id _
  constructor
  · intro r hr
    rw [hrun] at hr
    obtain ⟨i, -, rfl⟩ := List.mem_map.1 hr
    rfl
  · rw [hindices]
    exact List.nodup_range
  · intro i hi
    rw [hindices] at hi
    exact Nat.lt_of_lt_of_le (List.mem_range.1 hi) hcalls
  · intro hfull
    rw [hindices, hfull]
    refine ⟨List.Perm.refl _, fun obj b => ?_⟩
    rw [virtqueueAddAvailableBuf_full]
    rw [hfilled.head, hfilled.drv_len, hfull]
  · intro c hc
    exact hfilled.endRecognised hcalls (hused c hc)

-- =========================================================== longer lengths

/-- The head of the free list comes out of a 16-bit field. -/
structure Narrow (queueLen : Nat) (s : System) : Prop where
  len : s.drv.queueLen = queueLen
  head : s.drv.freeDescHead < 2 ^ 16
  next : ∀ i, i < 2 ^ 16 → (s.mem.desc i).next < 2 ^ 16

/-- A table of 65536 descriptors or more is set up with links that have
lost their upper bits. -/
theorem Narrow.init (hlen : 2 ^ 16 ≤ queueLen) (mem : Mem) :
    Narrow queueLen (init queueLen mem) where
  len := rfl
  head := Nat.two_pow_pos 16
  next i hi := by
    show (initDescLoop mem.desc 0 queueLen i).next < 2 ^ 16
    rw [initDescLoop_apply, if_pos (by omega)]
    exact u16_lt _

/-- The head of the free list was loaded from 16 bits, so it is never the
length that marks the end. -/
theorem Narrow.ne (h : Narrow queueLen s) (hlen : 2 ^ 16 ≤ queueLen) :
    s.drv.freeDescHead ≠ s.drv.queueLen := by
  have hlt := h.head
  rw [h.len]
  omega

theorem Narrow.add (h : Narrow queueLen s) (hlen : 2 ^ 16 ≤ queueLen)
    (c : Nat) (b : Buf) : Narrow queueLen (addAvailStep s c b) := by
  obtain ⟨-, hadds⟩ := adds_of_ne c b (h.ne hlen)
  constructor
  · rw [hadds.drv]
    exact h.len
  · rw [hadds.drv]
    exact h.next _ h.head
  · exact fun i hi => hadds.narrow i (h.next i hi)

theorem Narrow.run (h : Narrow queueLen s) (hlen : 2 ^ 16 ≤ queueLen) :
    Narrow queueLen (addRun s calls).2 := by
  induction calls generalizing s with
  | nil => exact h
  | cons call calls ih => exact ih (h.add hlen call.1 call.2)

/-- A longer queue is never full. -/
theorem Narrow.never_full (h : Narrow queueLen s) (hlen : 2 ^ 16 ≤ queueLen)
    (obj : RingObject) (b : Buf) :
    (virtqueueAddAvailableBuf s.drv s.mem obj b).1 = 1 := by
  obtain ⟨mem, first, hcall, -⟩ :=
    virtqueueAddAvailableBuf_eq obj b (h.ne hlen)
  rw [hcall]

/-- With 65536 descriptors or more the end of the free list is never seen,
and some add succeeds that should have failed. -/
theorem not_works_of_le (hlen : 2 ^ 16 ≤ queueLen) : ¬Works queueLen := by
  intro hworks
  let b : Buf := ⟨0, 0, .read⟩
  let mem : Mem := ⟨fun _ => ⟨0, 0, .read, 0⟩, ⟨0, 0, fun _ => 0⟩,
    ⟨0, 0, fun _ => ⟨0, 0⟩⟩⟩
  let calls : List (Nat × Buf) := List.replicate queueLen (0, b)
  have hcalls : calls.length = queueLen := List.length_replicate
  have hfull := ((hworks mem calls (Nat.le_of_eq hcalls)).full hcalls).2
    virtqueueInitRingObject b
  have hnarrow : Narrow queueLen (addRun (init queueLen mem) calls).2 :=
    (Narrow.init hlen mem).run hlen
  rw [hnarrow.never_full hlen] at hfull
  exact absurd hfull (by decide)

/-- Where the 16 bits of the length are zero, the end of a chain reads as
its first descriptor. -/
theorem end_missed (hpos : 0 < queueLen) (hlen : u16 queueLen = 0)
    (mem : Mem) (c : Nat) (b : Buf) :
    ¬EndRecognised (addAvailStep (init queueLen mem) c b)
      ((addAvailStep (init queueLen mem) c b).chains c).obj := by
  obtain ⟨-, hadds⟩ := adds_of_ne (s := init queueLen mem) c b
    (Nat.ne_of_lt hpos)
  have hcur := hadds.cur
  have hnext := hadds.next (by show 0 ≠ 2 ^ 32 - 1; omega)
  have hdev : (addAvailStep (init queueLen mem) c b).dev.queueLen
      = queueLen := by
    rw [hadds.dev]
    rfl
  intro hend
  obtain ⟨b', o', hread, hnone⟩ := hend.available
  unfold virtqueueGatherAvailable at hread hnone
  have hlt : ¬queueLen ≤ (init queueLen mem).drv.freeDescHead :=
    Nat.not_le_of_lt hpos
  rw [hcur, hdev, if_neg hlt] at hread
  obtain ⟨-, rfl⟩ := Prod.mk.inj (Option.some.inj hread)
  rw [hnext, hdev, if_neg] at hnone
  · cases hnone
  · show ¬queueLen ≤ u16 queueLen
    omega

/-- A length works, whatever is added and in which order, if and only if it
fits the 16-bit fields of the shared rings. -/
theorem works_iff (queueLen : Nat) : Works queueLen ↔ queueLen < 2 ^ 16 := by
  constructor
  · intro hworks
    by_contra hlen
    exact not_works_of_le (Nat.le_of_not_lt hlen) hworks
  · exact works_of_lt

/-- The shortest power of two that does not work: the queue never gets
full, and no chain of one buffer has an end. -/
theorem not_works_65536 :
    ¬Works 65536
      ∧ ∀ mem c b, ¬EndRecognised (addAvailStep (init 65536 mem) c b)
        ((addAvailStep (init 65536 mem) c b).chains c).obj :=
  ⟨not_works_of_le (by decide), end_missed (by decide) rfl⟩

end ProjectsLibs.Virtqueue
