/-
The invariant of a virtqueue under API-conforming clients, and its
consequences that do not need a step: separation and the counting link
between ring occupancy, live chains and the descriptors.

# Shape

- `ChainInv` is about one chain and the part of the table it still
  owns: the descriptors not yet reaped, linked in order and ended by
  the queue length, carry the buffers not yet reaped; the three handles
  stand where the number of calls made with them says.
- `Inv` adds what ties the chains together: the free list and the
  unreaped descriptors of the published chains are, taken together, a
  permutation of all indices; which chains are in which phase; and both
  rings hold exactly the entries not yet taken.

No fullness check is needed for the rings because of `live_le`: chains
in a ring are published and unreaped, so each owns a descriptor of its
own.
-/
import ProjectsLibs.Lib.Links
import ProjectsLibs.Lib.Pieces
import ProjectsLibs.Lib.Ring
import ProjectsLibs.Virtqueue.System

namespace ProjectsLibs.Virtqueue

open Lib

-- ========================================================== one chain

/-- The results of successive calls that iterate over `l`: call `i`
yields entry `i`, and nothing once the entries are used up. -/
def Iterates {β : Type} (l : List β) (log : List (Option β)) : Prop :=
  ∀ (i : Nat) (r : Option β), log[i]? = some r → r = l[i]?

/-- The descriptors of a chain that are not yet reaped. -/
def Chain.rem (ch : Chain) : List Nat := ch.idxs.drop ch.freed.length

/-- What holds of one chain against the descriptor table. -/
structure ChainInv (queueLen : Nat) (desc : Nat → VringDesc)
    (ch : Chain) : Prop where
  len_eq : ch.idxs.length = ch.bufs.length
  obj_first : ch.obj.first = ch.idxs.head?.getD (2 ^ 32 - 1)
  obj_cur : ch.obj.cur = ch.idxs.getLast?.getD (2 ^ 32 - 1)
  -- the table
  links : Follows (nextOf desc) queueLen (ch.rem.head?.getD queueLen) ch.rem
  bufs_eq : ∀ i x, ch.freed.length ≤ i → ch.idxs[i]? = some x →
    ch.bufs[i]? = some (desc x).buf
  -- the device's iteration
  dev_none : ch.dev = none → ch.devLog = [] ∧ ch.linked = []
  atGet_prefix : ch.atGet <+: ch.linked
  linked_prefix : ch.linked <+: ch.bufs
  dev_first : ∀ o, ch.dev = some o → ch.idxs.head? = some o.first
  dev_linked : ∀ o, ch.dev = some o → ch.linked ≠ []
  dev_cur : ∀ o, ch.dev = some o → ch.returned = false →
    o.cur = (ch.idxs.take ch.linked.length)[ch.devLog.length]?.getD queueLen
  dev_log : Iterates ch.linked ch.devLog
  -- the driver's iteration
  drv_none : ch.drv = none → ch.drvLog = []
  drv_first : ∀ o, ch.drv = some o → ch.idxs.head? = some o.first
  drv_cur : ∀ o, ch.drv = some o →
    o.cur = ch.idxs[ch.drvLog.length]?.getD queueLen
  drv_log : Iterates ch.bufs ch.drvLog
  freed_eq : ch.freed = ch.idxs.take ch.drvLog.length

/-- A handle no call has been made with. -/
theorem ChainInv.fresh (queueLen : Nat) (desc : Nat → VringDesc) :
    ChainInv queueLen desc {} := by
  constructor <;> simp [Chain.rem, Follows, Iterates, virtqueueInitRingObject]

-- ========================================================= the system

/-- The free list and the unreaped descriptors together are all
indices, each once. -/
def Conserved (queueLen : Nat) (s : System) (free : List Nat) : Prop :=
  Follows (nextOf s.mem.desc) queueLen s.drv.freeDescHead free
    ∧ (free ++ s.pub.flatMap fun c => (s.chains c).rem).Perm
        (List.range queueLen)

/-- What the phases depend on: the chain's head and which handles
exist. -/
structure View where
  head : Option Nat
  dev : Bool
  returned : Bool
  drv : Bool

/-- The phase data of a chain. -/
def Chain.view (ch : Chain) : View :=
  ⟨ch.idxs.head?, ch.dev.isSome, ch.returned, ch.drv.isSome⟩

/-- A change of the chain `c` that keeps a field of it keeps it for all. -/
theorem View.keeps {β : Type} (f : View → β) {view view' : Nat → View}
    {c : Nat} (hc : f (view' c) = f (view c))
    (hother : ∀ d, d ≠ c → view' d = view d) (d : Nat) :
    f (view' d) = f (view d) := by
  by_cases hd : d = c
  · rw [hd, hc]
  · rw [hother d hd]

/-- Which chains are published, held by the device, returned and got
back, and that the ring histories are theirs. -/
structure Phases (view : Nat → View) (pub published : List Nat)
    (taken : Nat) (ret : List Nat) (returned : List VringUsedElem)
    (got : Nat) : Prop where
  pub_iff : ∀ c, c ∈ pub ↔ (view c).head.isSome
  pub_nodup : pub.Nodup
  heads : published.map some = pub.map fun c => (view c).head
  dev_iff : ∀ c, (view c).dev ↔ c ∈ pub.take taken
  ret_iff : ∀ c, (view c).returned ↔ c ∈ ret
  ret_nodup : ret.Nodup
  ret_dev : ∀ c ∈ ret, (view c).dev
  ids : returned.map (fun e => some e.id) = ret.map fun c => (view c).head
  drv_iff : ∀ c, (view c).drv ↔ c ∈ ret.take got

/-- A ring of `queueLen` slots with its producer index and its
consumer cursor, against what was put and taken. -/
structure RingInv {α : Type} (queueLen : Nat) (slot : Nat → α)
    (idx lastSeen : Nat) (log taken : List α) : Prop where
  holds : RingHolds queueLen slot log taken.length
  idx_eq : idx = log.length % queueLen
  seen_lt : lastSeen < queueLen
  seen_eq : (lastSeen + 1) % queueLen = taken.length % queueLen
  taken_eq : taken = log.take taken.length

/-- The invariant of the whole system. -/
structure Inv (queueLen : Nat) (s : System) : Prop where
  drv_len : s.drv.queueLen = queueLen
  dev_len : s.dev.queueLen = queueLen
  chain : ∀ c, ChainInv queueLen s.mem.desc (s.chains c)
  conserved : ∃ free, Conserved queueLen s free
  phases : Phases (fun c => (s.chains c).view) s.pub s.published
    s.taken.length s.ret s.returned s.got.length
  avail : RingInv queueLen s.mem.avail.ring s.mem.avail.idx
    s.dev.aRingLastSeen s.published s.taken
  used : RingInv queueLen s.mem.used.ring s.mem.used.idx
    s.drv.uRingLastSeen s.returned s.got

namespace Inv

variable {queueLen : Nat} {s : System}

/-- There are as many published heads as published chains. -/
theorem published_length (h : Inv queueLen s) :
    s.published.length = s.pub.length := by
  simpa using congrArg List.length h.phases.heads

/-- There are as many returned pairs as returned chains. -/
theorem returned_length (h : Inv queueLen s) :
    s.returned.length = s.ret.length := by
  simpa using congrArg List.length h.phases.ids

/-- The published chains are those with a descriptor. -/
theorem pub_iff (h : Inv queueLen s) {c : Nat} :
    c ∈ s.pub ↔ (s.chains c).idxs ≠ [] := by
  rw [h.phases.pub_iff c]
  exact List.isSome_head?

/-- The device has a handle of exactly the chains taken. -/
theorem dev_iff (h : Inv queueLen s) {c : Nat} :
    (s.chains c).dev.isSome ↔ c ∈ s.pub.take s.taken.length :=
  h.phases.dev_iff c

/-- The chains marked returned are those in the return history. -/
theorem ret_iff (h : Inv queueLen s) {c : Nat} :
    (s.chains c).returned = true ↔ c ∈ s.ret :=
  h.phases.ret_iff c

/-- The driver has a reaping handle of exactly the chains got back. -/
theorem drv_iff (h : Inv queueLen s) {c : Nat} :
    (s.chains c).drv.isSome ↔ c ∈ s.ret.take s.got.length :=
  h.phases.drv_iff c

/-- Only a chain the driver got back is being reaped. -/
theorem drv_of_freed (h : Inv queueLen s) {c : Nat}
    (hf : (s.chains c).freed ≠ []) : (s.chains c).drv.isSome := by
  cases hd : (s.chains c).drv with
  | some o => rfl
  | none =>
      have hlog := (h.chain c).drv_none hd
      have hfr := (h.chain c).freed_eq
      rw [hlog] at hfr
      exact absurd (by simpa using hfr) hf

/-- A chain the device has not returned is not being reaped. -/
theorem freed_of_not_returned (h : Inv queueLen s) {c : Nat}
    (hr : (s.chains c).returned = false) : (s.chains c).freed = [] := by
  by_contra hf
  have hdrv := h.drv_iff.1 (h.drv_of_freed hf)
  have hret := h.ret_iff.2 (List.mem_of_mem_take hdrv)
  rw [hr] at hret
  cases hret

/-- A chain still in the available ring is not being reaped. -/
theorem freed_of_untaken (h : Inv queueLen s) {c : Nat}
    (hc : c ∈ s.pub.drop s.taken.length) : (s.chains c).freed = [] := by
  by_contra hf
  have hdrv := h.drv_iff.1 (h.drv_of_freed hf)
  have hdev := h.dev_iff.1 (h.phases.ret_dev c (List.mem_of_mem_take hdrv))
  exact List.disjoint_take_drop h.phases.pub_nodup (Nat.le_refl _) hdev hc

/-- A chain still in the used ring is not being reaped. -/
theorem freed_of_ungot (h : Inv queueLen s) {c : Nat}
    (hc : c ∈ s.ret.drop s.got.length) : (s.chains c).freed = [] := by
  by_contra hf
  have hdrv := h.drv_iff.1 (h.drv_of_freed hf)
  exact List.disjoint_take_drop h.phases.ret_nodup (Nat.le_refl _) hdrv hc

/-- Returned chains were published. -/
theorem pub_of_ret (h : Inv queueLen s) {c : Nat} (hc : c ∈ s.ret) :
    c ∈ s.pub :=
  List.mem_of_mem_take (h.dev_iff.1 (h.phases.ret_dev c hc))

/-- The counting link: distinct published chains that are not being
reaped are, with the free descriptors, at most `queueLen`. -/
theorem live_le (h : Inv queueLen s) {free l : List Nat}
    (hfree : Conserved queueLen s free) (hnd : l.Nodup)
    (hl : ∀ c ∈ l, c ∈ s.pub ∧ (s.chains c).freed = []) :
    l.length + free.length ≤ queueLen := by
  have hpieces : l.length
      ≤ (s.pub.flatMap fun c => (s.chains c).rem).length := by
    refine length_le_length_flatMap hnd (fun c hc => (hl c hc).1) ?_
    intro c hc
    have hidxs := h.pub_iff.1 (hl c hc).1
    simpa [Chain.rem, (hl c hc).2] using hidxs
  have hlen := hfree.2.length_eq
  rw [List.length_append, List.length_range] at hlen
  omega

/-- Chains in the available ring and free descriptors are at most
`queueLen` together. -/
theorem untaken_le (h : Inv queueLen s) {free : List Nat}
    (hfree : Conserved queueLen s free) :
    s.published.length - s.taken.length + free.length ≤ queueLen := by
  have hle := h.live_le hfree
    (h.phases.pub_nodup.sublist (List.drop_sublist s.taken.length s.pub))
    fun c hc => ⟨List.mem_of_mem_drop hc, h.freed_of_untaken hc⟩
  rw [List.length_drop] at hle
  rw [h.published_length]
  exact hle

/-- A chain the device still holds leaves room for itself in the used
ring. -/
theorem ungot_lt (h : Inv queueLen s) {c : Nat}
    (hdev : (s.chains c).dev.isSome) (hr : (s.chains c).returned = false) :
    s.returned.length < s.got.length + queueLen := by
  obtain ⟨free, hfree⟩ := h.conserved
  have hcret : c ∉ s.ret := fun hm => by
    have := h.ret_iff.2 hm
    rw [hr] at this
    cases this
  have hnd : (c :: s.ret.drop s.got.length).Nodup :=
    List.nodup_cons.2 ⟨fun hm => hcret (List.mem_of_mem_drop hm),
      h.phases.ret_nodup.sublist (List.drop_sublist _ _)⟩
  have hle := h.live_le hfree hnd fun d hd => by
    rcases List.mem_cons.1 hd with rfl | hd
    · exact ⟨List.mem_of_mem_take (h.dev_iff.1 hdev),
        h.freed_of_not_returned hr⟩
    · exact ⟨h.pub_of_ret (List.mem_of_mem_drop hd), h.freed_of_ungot hd⟩
  rw [List.length_cons, List.length_drop, ← h.returned_length] at hle
  omega

/-- The free list and the unreaped descriptors do not repeat. -/
theorem nodup (_ : Inv queueLen s) {free : List Nat}
    (hfree : Conserved queueLen s free) :
    (free ++ s.pub.flatMap fun c => (s.chains c).rem).Nodup :=
  hfree.2.nodup_iff.2 List.nodup_range

/-- Unreaped descriptors belong to published chains. -/
theorem pub_of_mem_rem (h : Inv queueLen s) {c x : Nat}
    (hx : x ∈ (s.chains c).rem) : c ∈ s.pub := by
  refine h.pub_iff.2 fun hnil => ?_
  rw [Chain.rem, hnil, List.drop_nil] at hx
  cases hx

/-- An unreaped descriptor is one of the table's. -/
theorem rem_lt (h : Inv queueLen s) {c x : Nat}
    (hx : x ∈ (s.chains c).rem) : x < queueLen := by
  obtain ⟨free, hfree⟩ := h.conserved
  refine List.mem_range.1 (hfree.2.mem_iff.1 (List.mem_append_right _ ?_))
  exact List.mem_flatMap.2 ⟨c, h.pub_of_mem_rem hx, hx⟩

/-- Separation: two chains share no unreaped descriptor. -/
theorem rem_disjoint (h : Inv queueLen s) {c d x : Nat} (hne : c ≠ d)
    (hx : x ∈ (s.chains c).rem) : x ∉ (s.chains d).rem := by
  obtain ⟨free, hfree⟩ := h.conserved
  intro hx'
  exact disjoint_pieces (List.nodup_append.1 (h.nodup hfree)).2.1
    (h.pub_of_mem_rem hx) (h.pub_of_mem_rem hx') hne hx hx'

/-- Separation: no chain owns a free descriptor. -/
theorem free_disjoint (h : Inv queueLen s) {free : List Nat}
    (hfree : Conserved queueLen s free) {c x : Nat} (hx : x ∈ free) :
    x ∉ (s.chains c).rem := by
  intro hx'
  have hmem : x ∈ s.pub.flatMap fun c => (s.chains c).rem :=
    List.mem_flatMap.2 ⟨c, h.pub_of_mem_rem hx', hx'⟩
  exact (List.nodup_append.1 (h.nodup hfree)).2.2 x hx x hmem rfl

/-- A free descriptor is one of the table's. -/
theorem free_lt (_ : Inv queueLen s) {free : List Nat}
    (hfree : Conserved queueLen s free) {x : Nat} (hx : x ∈ free) :
    x < queueLen :=
  List.mem_range.1 (hfree.2.mem_iff.1 (List.mem_append_left _ hx))

/-- The head of the free list is an index or the end value. -/
theorem head_le (h : Inv queueLen s) {free : List Nat}
    (hfree : Conserved queueLen s free) :
    s.drv.freeDescHead ≤ queueLen := by
  rw [hfree.1.start_eq_head]
  cases free with
  | nil => exact Nat.le_refl _
  | cons x free =>
      exact Nat.le_of_lt (h.free_lt hfree (List.mem_cons_self ..))

end Inv

end ProjectsLibs.Virtqueue
