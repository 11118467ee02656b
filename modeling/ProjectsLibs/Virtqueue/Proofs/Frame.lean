/-
What the preservation proofs share: the masked arithmetic of the ring
indices, a ring under its producer and its consumer, and the frame
lemmas that carry the untouched chains through a call. The module ends
with the invariant after the two init functions.

# How a call is looked at

A call changes one descriptor, one cell of a ring or one handle, and the
invariant is about all chains. What is needed is therefore always the
same: the list of the chain that the call is about is compared before and
after, and all other chains are carried through because the call stored
to no descriptor of theirs. `ChainInv.of_agree` is that rule for a chain,
and `forall_update` and `map_update` say what becomes of a statement
about all chains when one of them is replaced.

A ring has a producer and a consumer, which share the same cells at
indices that are masked with the length less one. Since the length is a
power of two, masking an index is a remainder, and the arithmetic of both
sides is in a few lemmas here; the calls only cite them.
-/
import ProjectsLibs.Virtqueue.Proofs.Invariant

namespace ProjectsLibs.Virtqueue

open Lib

variable {queueLen : Nat} {s : System}

-- ========================================================== arithmetic

/-- A power of two, so not zero: there is a slot to take the index modulo
the length of. -/
theorem QueueLen.pos (hq : QueueLen queueLen) : 0 < queueLen := by
  obtain ⟨k, -, rfl⟩ := hq
  exact Nat.two_pow_pos k

/-- Indices are 16 bits wide, so a length is at most half of their range. -/
theorem QueueLen.le (hq : QueueLen queueLen) : queueLen ≤ 32768 := by
  obtain ⟨k, hk, rfl⟩ := hq
  exact Nat.pow_le_pow_right (by decide) hk

/-- A value up to the queue length fits a 16-bit field. -/
theorem u16_of_le (hq : QueueLen queueLen) {x : Nat} (hx : x ≤ queueLen) :
    u16 x = x := by
  have := hq.le
  exact Nat.mod_eq_of_lt (by omega)

/-- The masked increment both cursors and both producer indices use. -/
theorem mask_succ (hq : QueueLen queueLen) {x : Nat} (hx : x < queueLen) :
    u32 (x + 1) &&& u32 (queueLen + (2 ^ 32 - 1)) = (x + 1) % queueLen := by
  have hle := hq.le
  have hpos := hq.pos
  have hx32 : u32 (x + 1) = x + 1 := Nat.mod_eq_of_lt (by omega)
  have hmask : u32 (queueLen + (2 ^ 32 - 1)) = queueLen - 1 := by
    unfold u32
    omega
  obtain ⟨k, -, rfl⟩ := hq
  rw [hx32, hmask, Nat.and_two_pow_sub_one_eq_mod]

/-- The producer index after a store. -/
theorem idx_succ (hq : QueueLen queueLen) (n : Nat) :
    u16 (u32 (n % queueLen + 1) &&& u32 (queueLen + (2 ^ 32 - 1)))
      = (n + 1) % queueLen := by
  rw [mask_succ hq (Nat.mod_lt _ hq.pos),
    u16_of_le hq (Nat.le_of_lt (Nat.mod_lt _ hq.pos)), Nat.mod_add_mod]

-- ============================================================ the rings

namespace RingInv

variable {α : Type} {slot : Nat → α} {idx lastSeen : Nat}
  {log taken : List α}

/-- The slot the consumer looks at. -/
theorem next_slot (h : RingInv queueLen slot idx lastSeen log taken)
    (hq : QueueLen queueLen) :
    u32 (lastSeen + 1) &&& u32 (queueLen + (2 ^ 32 - 1))
      = taken.length % queueLen := by
  rw [mask_succ hq h.seen_lt, h.seen_eq]

/-- A ring with nothing to take looks empty. -/
theorem looks_empty (h : RingInv queueLen slot idx lastSeen log taken)
    (he : log.length = taken.length) :
    taken.length % queueLen = idx := by
  rw [h.idx_eq, he]

/-- A ring that does not look empty has an entry to take. -/
theorem taken_lt (h : RingInv queueLen slot idx lastSeen log taken)
    (hne : taken.length % queueLen ≠ idx) : taken.length < log.length := by
  refine Nat.lt_of_le_of_ne h.holds.taken_le fun he => ?_
  exact hne (h.looks_empty he.symm)

/-- The producer's store. -/
theorem put (h : RingInv queueLen slot idx lastSeen log taken)
    (hq : QueueLen queueLen) (hroom : log.length < taken.length + queueLen)
    (x : α) :
    RingInv queueLen (Function.update slot idx x)
      (u16 (u32 (idx + 1) &&& u32 (queueLen + (2 ^ 32 - 1)))) lastSeen
      (log ++ [x]) taken where
  holds := by
    rw [h.idx_eq]
    exact h.holds.put hroom x
  idx_eq := by
    rw [h.idx_eq, idx_succ hq, List.length_append, List.length_singleton]
  seen_lt := h.seen_lt
  seen_eq := h.seen_eq
  taken_eq := by
    rw [List.take_append_of_le_length h.holds.taken_le]
    exact h.taken_eq

/-- The consumer's load. -/
theorem take (h : RingInv queueLen slot idx lastSeen log taken)
    (hq : QueueLen queueLen) (hne : taken.length < log.length) :
    RingInv queueLen slot idx (taken.length % queueLen) log
      (taken ++ [slot (taken.length % queueLen)]) where
  holds := by
    rw [List.length_append, List.length_singleton]
    exact h.holds.take hne
  idx_eq := h.idx_eq
  seen_lt := Nat.mod_lt _ hq.pos
  seen_eq := by
    rw [Nat.mod_add_mod, List.length_append, List.length_singleton]
  taken_eq := by
    rw [List.length_append, List.length_singleton, h.holds.take_succ hne,
      ← h.taken_eq]

end RingInv

-- ========================================================= frame lemmas

/-- A store to one descriptor, seen through the `next` fields. -/
theorem nextOf_update (desc : Nat → VringDesc) (i : Nat) (d : VringDesc) :
    nextOf (Function.update desc i d)
      = Function.update (nextOf desc) i d.next := by
  funext j
  by_cases hj : j = i
  · subst hj
    simp [nextOf]
  · simp [nextOf, Function.update_of_ne hj]

/-- A chain only depends on the descriptors it still owns. -/
theorem ChainInv.of_agree {desc desc' : Nat → VringDesc} {ch : Chain}
    (h : ChainInv queueLen desc ch)
    (hag : ∀ x ∈ ch.rem, desc' x = desc x) :
    ChainInv queueLen desc' ch :=
  { h with
    links := h.links.congr fun x hx => by
      simp only [nextOf, hag x hx]
    bufs_eq := by
      intro i x hi hx
      have hmem : x ∈ ch.rem := by
        refine List.mem_of_getElem? (i := i - ch.freed.length) ?_
        rw [Chain.rem, List.getElem?_drop, Nat.add_sub_cancel' hi]
        exact hx
      rw [hag x hmem]
      exact h.bufs_eq i x hi hx }

/-- Replacing one chain by another that looks the same through `f`. -/
theorem map_update {β : Type} (f : Chain → β) {chains : Nat → Chain}
    {c : Nat} {ch : Chain} (hf : f ch = f (chains c)) :
    (fun d => f (Function.update chains c ch d)) = fun d => f (chains d) := by
  funext d
  by_cases hd : d = c
  · subst hd
    rw [Function.update_self, hf]
  · rw [Function.update_of_ne hd]

/-- Conservation does not depend on the handles. -/
theorem Conserved.of_rem {s' : System} {free : List Nat}
    (hfree : Conserved queueLen s free) (hdesc : s'.mem.desc = s.mem.desc)
    (hhead : s'.drv.freeDescHead = s.drv.freeDescHead)
    (hpub : s'.pub = s.pub)
    (hrem : (fun d => (s'.chains d).rem) = fun d => (s.chains d).rem) :
    Conserved queueLen s' free := by
  unfold Conserved
  rw [hdesc, hhead, hpub, hrem]
  exact hfree

/-- A property of all chains after one is replaced. -/
theorem forall_update {P : Chain → Prop} {chains : Nat → Chain} {c : Nat}
    {ch : Chain} (hc : P ch) (hd : ∀ d, d ≠ c → P (chains d)) (d : Nat) :
    P (Function.update chains c ch d) := by
  by_cases hdc : d = c
  · subst hdc
    rwa [Function.update_self]
  · rw [Function.update_of_ne hdc]
    exact hd d hdc

-- ======================================================= initialisation

/-- The table `virtqueue_init_desc_table` leaves, entry by entry. -/
theorem initDescLoop_apply (table : Nat → VringDesc) (i n j : Nat) :
    initDescLoop table i n j
      = if i ≤ j ∧ j < i + n then ⟨0, 0, .read, u16 (j + 1)⟩
        else table j := by
  induction n generalizing table i with
  | zero =>
      rw [if_neg (by omega)]
      rfl
  | succ n ih =>
      rw [initDescLoop, ih]
      by_cases hj : j = i
      · subst hj
        rw [if_neg (by omega), if_pos (by omega), Function.update_self]
      · rw [Function.update_of_ne hj]
        by_cases hin : i + 1 ≤ j ∧ j < i + 1 + n
        · rw [if_pos hin, if_pos (by omega)]
        · rw [if_neg hin, if_neg (by omega)]

/-- Initially the free list is all indices in order. -/
theorem init_follows (hq : QueueLen queueLen) (table : Nat → VringDesc)
    (n i : Nat) (hi : i + n = queueLen) :
    Follows (nextOf (virtqueueInitDescTable table queueLen)) queueLen i
      (List.range' i n) := by
  induction n generalizing i with
  | zero => exact hi
  | succ n ih =>
      have hlt : i < queueLen := by omega
      refine ⟨rfl, by omega, ?_⟩
      have hnext : nextOf (virtqueueInitDescTable table queueLen) i
          = i + 1 := by
        unfold nextOf virtqueueInitDescTable
        rw [initDescLoop_apply, if_pos (by omega)]
        exact u16_of_le hq hlt
      rw [hnext]
      exact ih (i + 1) (by omega)

/-- A ring nothing was put in. -/
theorem RingInv.nil {α : Type} (hq : QueueLen queueLen) (slot : Nat → α) :
    RingInv queueLen slot 0 (u32 (queueLen + (2 ^ 32 - 1))) [] [] := by
  have hpos := hq.pos
  have hle := hq.le
  have hlast : u32 (queueLen + (2 ^ 32 - 1)) = queueLen - 1 := by
    unfold u32
    omega
  refine ⟨RingHolds.nil _ _, by simp, by omega, ?_, rfl⟩
  rw [hlast, Nat.sub_add_cancel hpos]
  simp

/-- The invariant holds after the two init functions. -/
theorem inv_init (hq : QueueLen queueLen) (mem : Mem) :
    Inv queueLen (init queueLen mem) where
  drv_len := rfl
  dev_len := rfl
  chain := fun _ => ChainInv.fresh _ _
  conserved := by
    refine ⟨List.range queueLen, ?_, ?_⟩
    · rw [List.range_eq_range']
      exact init_follows hq mem.desc queueLen 0 (Nat.zero_add _)
    · simp [init]
  phases := by constructor <;> simp [init, Chain.view]
  avail := RingInv.nil hq _
  used := RingInv.nil hq _

end ProjectsLibs.Virtqueue
