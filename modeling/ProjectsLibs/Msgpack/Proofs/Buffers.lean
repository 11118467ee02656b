/-
The buffers of an unpacker: what each function does to the counters and to
the bytes, and what it keeps.

`Fits` is the invariant of an unpacker with its buffers, and `Moved` what a
change of them may do that others hold buffers too: the counters go on
counting, and no bytes are lost that somebody else can see.

# The counters

A buffer begins with a counter of its holders: the unpacker that reads
from it, and each zone with objects whose bodies are in it. `Moved` is
the relation between the heaps before and after an operation of one
unpacker. The counter of a buffer changes by as much as this unpacker
holds it more or less often than before, so what others hold is still
counted; and a buffer with holders keeps its bytes. The relation is all
that the run of several unpackers and messages needs of an operation.

`Fits` is about the numbers: `used` and `free` are the size of the buffer
together, `off` lies between the counter and what is used, and the bodies
of the objects that are being built lie in buffers that are kept. A
request for more room can be met by rewinding, in place or in a new
buffer, and it can be refused; `Reserved` is one statement for all of
these.
-/
import ProjectsLibs.Msgpack.Unpacker
import ProjectsLibs.Msgpack.Proofs.Bodies
import ProjectsLibs.Msgpack.Proofs.Pack

namespace ProjectsLibs.Msgpack

open Lib

-- ============================================================== the heap

section Heap

variable {α : Type} {h : Heap} {b c : Nat}

theorem getCount_lt (hc : 0 < getCount h b) : b < h.length := by
  by_contra hge
  unfold getCount at hc
  rw [List.getElem?_eq_none (Nat.not_lt.1 hge)] at hc
  exact absurd hc (Nat.lt_irrefl 0)

/-- A field of a buffer where one buffer is changed. -/
theorem field_modify (g : Buffer → α) (d : α) (f : Buffer → Buffer)
    (hb : b < h.length) :
    ((h.modify b f)[c]?.map g).getD d
      = if c = b then g (f h[b]) else (h[c]?.map g).getD d := by
  rw [List.getElem?_modify]
  by_cases hc : c = b
  · subst hc
    rw [if_pos rfl, List.getElem?_eq_getElem hb]
    simp
  · rw [if_neg hc]
    cases h[c]? with
    | none => rfl
    | some x => simp [Ne.symm hc]

/-- A field of a buffer where one buffer is added. -/
theorem field_append (g : Buffer → α) (d : α) (x : Buffer) :
    ((h ++ [x])[c]?.map g).getD d
      = if c = h.length then g x else (h[c]?.map g).getD d := by
  by_cases hc : c < h.length
  · rw [List.getElem?_append_left hc, if_neg (by omega)]
  · rw [List.getElem?_append_right (Nat.not_lt.1 hc)]
    by_cases heq : c = h.length
    · rw [if_pos heq, heq, Nat.sub_self]
      rfl
    · rw [if_neg heq, List.getElem?_eq_none (by
        rw [List.length_singleton]
        omega), List.getElem?_eq_none (Nat.not_lt.1 hc)]

/-- The size that a buffer was made with. -/
def sizeOf (h : Heap) (b : Nat) : Nat := (h[b]?.map Buffer.size).getD 0

/-- A new buffer comes with its own count. -/
theorem getCount_append (x : Buffer) :
    getCount (h ++ [x]) c
      = if c = h.length then x.count else getCount h c :=
  field_append _ _ x

theorem dataOf_append (x : Buffer) :
    dataOf (h ++ [x]) c = if c = h.length then x.data else dataOf h c :=
  field_append _ _ x

theorem sizeOf_append (x : Buffer) :
    sizeOf (h ++ [x]) c = if c = h.length then x.size else sizeOf h c :=
  field_append _ _ x

/-- The count of a buffer that exists. -/
theorem getCount_eq (hb : b < h.length) : getCount h b = h[b].count := by
  unfold getCount
  rw [List.getElem?_eq_getElem hb]
  rfl

theorem dataOf_eq (hb : b < h.length) : dataOf h b = h[b].data := by
  unfold dataOf
  rw [List.getElem?_eq_getElem hb]
  rfl

/-- A change of one buffer that leaves a field alone. -/
theorem field_same (g : Buffer → α) (d : α) {f : Buffer → Buffer}
    (hsame : ∀ x, g (f x) = g x) :
    ((h.modify b f)[c]?.map g).getD d = (h[c]?.map g).getD d := by
  rw [List.getElem?_modify]
  cases h[c]? with
  | none => rfl
  | some x =>
      by_cases hc : b = c
      · simp [hc, hsame]
      · simp [hc]

theorem getCount_incr (hb : b < h.length) :
    getCount (incrCount h b) c
      = if c = b then getCount h b + 1 else getCount h c := by
  rw [getCount_eq hb]
  exact field_modify _ _ _ hb

theorem getCount_decr :
    getCount (decrCount h b) c
      = if c = b then getCount h b - 1 else getCount h c := by
  by_cases hb : b < h.length
  · rw [getCount_eq hb]
    exact field_modify _ _ _ hb
  · have hnone : decrCount h b = h :=
      List.modify_eq_self (Nat.not_lt.1 hb)
    rw [hnone]
    split
    · rename_i hc
      have hzero : ¬ 0 < getCount h b := fun hpos => hb (getCount_lt hpos)
      rw [hc]
      omega
    · rfl

/-- A buffer that is freed has no holder. -/
theorem getCount_free (hb : b < h.length) :
    getCount (freeBuffer h b) c = if c = b then 0 else getCount h c :=
  field_modify _ _ _ hb

@[simp] theorem dataOf_incr : dataOf (incrCount h b) c = dataOf h c :=
  field_same _ _ fun _ => rfl

@[simp] theorem dataOf_decr : dataOf (decrCount h b) c = dataOf h c :=
  field_same _ _ fun _ => rfl

@[simp] theorem dataOf_free : dataOf (freeBuffer h b) c = dataOf h c :=
  field_same _ _ fun _ => rfl

@[simp] theorem sizeOf_incr : sizeOf (incrCount h b) c = sizeOf h c :=
  field_same _ _ fun _ => rfl

@[simp] theorem sizeOf_decr : sizeOf (decrCount h b) c = sizeOf h c :=
  field_same _ _ fun _ => rfl

@[simp] theorem length_decr : (decrCount h b).length = h.length :=
  List.length_modify _ _ _

/-- There are no bytes where there is no buffer. -/
theorem dataOf_length : dataOf h h.length = [] := by
  unfold dataOf
  rw [List.getElem?_eq_none (Nat.le_refl _)]
  rfl

theorem getCount_length : getCount h h.length = 0 := by
  unfold getCount
  rw [List.getElem?_eq_none (Nat.le_refl _)]
  rfl

/-- What the finalizers of a zone do to the counters. -/
theorem getCount_zoneFree (z : Zone) :
    getCount (msgpackZoneFree z h) c = getCount h c - z.count c := by
  induction z with
  | nil => rfl
  | cons b z ih =>
      have hcons : msgpackZoneFree (b :: z) h
          = decrCount (msgpackZoneFree z h) b := rfl
      rw [hcons, List.count_cons, getCount_decr]
      by_cases hc : c = b
      · subst hc
        rw [if_pos rfl, ih, if_pos (beq_self_eq_true c)]
        omega
      · rw [if_neg hc, ih, if_neg (by simpa using Ne.symm hc)]
        omega

@[simp] theorem dataOf_zoneFree (z : Zone) :
    dataOf (msgpackZoneFree z h) c = dataOf h c := by
  induction z with
  | nil => rfl
  | cons b z ih => exact dataOf_decr.trans ih

@[simp] theorem sizeOf_zoneFree (z : Zone) :
    sizeOf (msgpackZoneFree z h) c = sizeOf h c := by
  induction z with
  | nil => rfl
  | cons b z ih => exact sizeOf_decr.trans ih

end Heap

-- ============================================================= invariants

/-- An extension of the greatest 32-bit size. With the byte of its type the
size wraps to zero, so `template_execute` waits for no body and delivers
such an extension as soon as its head is there. -/
def Overflows : Object Ref → Prop
  | .ext _ r => r.size = 2 ^ 32 - 1
  | _ => False

/-- The body of an object is in a buffer that is kept, behind its counter
and within the bytes that are used of it. An extension of the greatest size
is the exception to the last: its body would be where bytes have never been
fed (`Overflows`), and nothing is said of where it ends. -/
def Kept (h : Heap) (keep : Nat → Prop) (o : Object Ref) : Prop :=
  ∀ r ∈ o.ownBody, keep r.buffer ∧ counterSize ≤ r.pos
    ∧ (r.pos + r.size ≤ counterSize + (dataOf h r.buffer).length
      ∨ Overflows o)

/-- A body that is kept is kept where there are more buffers or more bytes
in them. -/
theorem Kept.mono {h h' : Heap} {keep keep' : Nat → Prop} {o : Object Ref}
    (ho : Kept h keep o)
    (hkeep : ∀ b, keep b → keep' b ∧ dataOf h b <+: dataOf h' b) :
    Kept h' keep' o := by
  intro r hr
  obtain ⟨hb, hpos, hin⟩ := ho r hr
  obtain ⟨hb', hpre⟩ := hkeep r.buffer hb
  refine ⟨hb', hpos, hin.imp_left fun hle => ?_⟩
  have hlen := hpre.length_le
  omega

/-- How often an unpacker holds a buffer. -/
def Unpacker.holds (u : Unpacker) (b : Nat) : Nat :=
  (if u.buffer = b then 1 else 0) + u.z.count b

/-- The buffers that an unpacker has references to. -/
def Unpacker.keeps (u : Unpacker) (b : Nat) : Prop :=
  b ∈ u.z ∨ (u.ctx.referenced = true ∧ b = u.buffer)

/-- An unpacker whose numbers are those of its buffer, and whose objects have
their bodies in buffers that it keeps. -/
structure Fits (w : Nat) (h : Heap) (u : Unpacker) : Prop where
  used : u.used = counterSize + (dataOf h u.buffer).length
  offGe : counterSize ≤ u.off
  offLe : u.off ≤ u.used
  size : u.used + u.free = sizeOf h u.buffer
  limit : u.used + u.free < 2 ^ (w - 1)
  fresh : u.off = counterSize →
    u.ctx.referenced = false ∧ getCount h u.buffer = 1
  refs : EveryFrame (Kept h u.keeps) u.ctx.stack

/-- What becomes of the buffers where others hold some of them too. -/
structure Moved (h : Heap) (u : Unpacker) (h' : Heap) (u' : Unpacker) :
    Prop where
  counts : ∀ b, getCount h' b + u.holds b = getCount h b + u'.holds b
  data : ∀ b, (b = u.buffer → 1 < getCount h b) →
    dataOf h b <+: dataOf h' b

section Invariants

variable {w : Nat} {h h' : Heap} {u u' : Unpacker}

/-- The unpacker holds the buffer that it reads from. -/
theorem holds_buffer (u : Unpacker) : 0 < u.holds u.buffer := by
  unfold Unpacker.holds
  rw [if_pos rfl]
  omega

theorem holds_zone {b : Nat} (hb : b ∈ u.z) : 0 < u.holds b := by
  have hpos := List.count_pos_iff.2 hb
  unfold Unpacker.holds
  omega

/-- Nobody holds a buffer that is not there. -/
theorem holds_length (hcount : ∀ b, u.holds b ≤ getCount h b) :
    u.holds h.length = 0 := by
  by_contra hpos
  have hle := hcount h.length
  have hlt := getCount_lt (h := h) (b := h.length) (by omega)
  exact absurd hlt (Nat.lt_irrefl _)

theorem buffer_lt (hcount : ∀ b, u.holds b ≤ getCount h b) :
    u.buffer < h.length :=
  getCount_lt (Nat.lt_of_lt_of_le (holds_buffer u) (hcount u.buffer))

theorem zone_lt (hcount : ∀ b, u.holds b ≤ getCount h b) {b : Nat}
    (hb : b ∈ u.z) : b < h.length :=
  getCount_lt (Nat.lt_of_lt_of_le (holds_zone hb) (hcount b))

theorem keeps_lt (hcount : ∀ b, u.holds b ≤ getCount h b) {b : Nat}
    (hb : u.keeps b) : b < h.length := by
  rcases hb with hb | ⟨-, rfl⟩
  · exact zone_lt hcount hb
  · exact buffer_lt hcount

theorem Moved.refl (h : Heap) (u : Unpacker) : Moved h u h u :=
  ⟨fun _ => rfl, fun _ _ => List.prefix_refl _⟩

/-- The unpacker holds no more than the counters say. -/
theorem Moved.le (hmoved : Moved h u h' u')
    (hcount : ∀ b, u.holds b ≤ getCount h b) (b : Nat) :
    u'.holds b ≤ getCount h' b := by
  have hsame := hmoved.counts b
  have hle := hcount b
  omega

end Invariants

-- ======================================================== more room

section Reserve

variable {w : Nat} {h : Heap} {u : Unpacker}

theorem mayRewind_iff : mayRewind h u = true ↔ u.used = u.off
    ∧ getCount h u.buffer = 1 ∧ u.ctx.referenced = false := by
  unfold mayRewind
  simp [and_assoc]

theorem rewind_counts (b : Nat) :
    getCount (rewind h u).1 b = getCount h b := by
  unfold rewind
  split
  · exact field_same _ _ fun _ => rfl
  · rfl

theorem rewind_holds (b : Nat) : (rewind h u).2.holds b = u.holds b := by
  unfold rewind
  split <;> rfl

/-- It drops the bytes of the one buffer, and only if nothing refers to it. -/
theorem rewind_data (hlt : u.buffer < h.length) (b : Nat) :
    dataOf (rewind h u).1 b
      = if mayRewind h u = true ∧ b = u.buffer then [] else dataOf h b := by
  unfold rewind
  by_cases hrewind : mayRewind h u = true
  · rw [if_pos hrewind]
    refine (field_modify _ _ _ hlt).trans ?_
    by_cases hb : b = u.buffer
    · rw [if_pos hb, if_pos ⟨hrewind, hb⟩]
    · rw [if_neg hb, if_neg fun hboth => hb hboth.2]
      rfl
  · rw [if_neg hrewind, if_neg fun hboth => hrewind hboth.1]

/-- Rewinding is seen by nobody else. -/
theorem rewind_moved (hlt : u.buffer < h.length) :
    Moved h u (rewind h u).1 (rewind h u).2 := by
  refine ⟨fun b => ?_, fun b hb => ?_⟩
  · rw [rewind_counts, rewind_holds]
  · rw [rewind_data hlt]
    split
    · rename_i hboth
      have hone := (mayRewind_iff.1 hboth.1).2.1
      have hmany := hb hboth.2
      rw [hboth.2] at hmany
      omega
    · exact List.prefix_refl _

theorem sizeOf_modify_data (b c : Nat) (f : List UInt8 → List UInt8) :
    sizeOf (h.modify b fun x => { x with data := f x.data }) c
      = sizeOf h c :=
  field_same _ _ fun _ => rfl

/-- A buffer that is held once is in no zone of its unpacker. -/
theorem notMem_of_one (hcount : ∀ b, u.holds b ≤ getCount h b)
    (hone : getCount h u.buffer = 1) : u.buffer ∉ u.z := by
  intro hmem
  have hle := hcount u.buffer
  have hpos := List.count_pos_iff.2 hmem
  unfold Unpacker.holds at hle
  rw [if_pos rfl] at hle
  omega

theorem rewind_fits (hcount : ∀ b, u.holds b ≤ getCount h b)
    (hu : Fits w h u) : Fits w (rewind h u).1 (rewind h u).2 := by
  have hlt := buffer_lt hcount
  by_cases hrewind : mayRewind h u = true
  · obtain ⟨hoff, hone, href⟩ := mayRewind_iff.1 hrewind
    have hdata := rewind_data (u := u) hlt
    have hcounts := rewind_counts (h := h) (u := u)
    have hrefs := hu.refs
    have hlimit := hu.limit
    have hsize := hu.size
    have hused : counterSize ≤ u.used := by
      rw [hu.used]
      exact Nat.le_add_right _ _
    have heq : rewind h u = (h.modify u.buffer fun x => { x with data := [] },
        { u with
          free := u.free + (u.used - counterSize)
          used := counterSize
          off := counterSize }) := by
      unfold rewind
      rw [if_pos hrewind]
    rw [heq] at hdata hcounts ⊢
    refine ⟨?_, Nat.le_refl _, Nat.le_refl _, ?_, ?_, ?_, ?_⟩
    · rw [hdata, if_pos ⟨hrewind, rfl⟩]
      rfl
    · rw [sizeOf_modify_data _ _ fun _ => [], ← hsize]
      show counterSize + (u.free + (u.used - counterSize)) = _
      omega
    · show counterSize + (u.free + (u.used - counterSize)) < _
      omega
    · exact fun _ => ⟨href, by rw [hcounts]; exact hone⟩
    · refine EveryFrame.mono (fun o ho => ho.mono fun b hb =>
        ⟨hb, ?_⟩) hrefs
      rw [hdata]
      split
      · rename_i hboth
        rcases hb with hb | ⟨hflag, -⟩
        · exact absurd (hboth.2 ▸ hb) (notMem_of_one hcount hone)
        · rw [href] at hflag
          cases hflag
      · exact List.prefix_refl _
  · have hsame : rewind h u = (h, u) := by
      unfold rewind
      rw [if_neg hrewind]
    rw [hsame]
    exact hu

variable {malloc : Nat → Bool} {size : Nat}

/-- A size that has been grown to, as the number that the code takes. -/
theorem grown_sub {need used nextSize : Nat} (hw : 0 < w)
    (hneed : need + used < 2 ^ w)
    (hnext : nextSize < 2 ^ (w - 1))
    (hge : (need + used) % 2 ^ w ≤ nextSize) :
    need + used ≤ nextSize
      ∧ (nextSize + 2 ^ w - used) % 2 ^ w = nextSize - used := by
  have hpow : 2 ^ w = 2 * 2 ^ (w - 1) := by
    rw [← Nat.pow_succ', Nat.succ_eq_add_one, Nat.sub_add_cancel hw]
  rw [Nat.mod_eq_of_lt hneed] at hge
  refine ⟨hge, ?_⟩
  rw [show nextSize + 2 ^ w - used = nextSize - used + 2 ^ w by omega,
    Nat.add_mod_right, Nat.mod_eq_of_lt (by omega)]

/-- What is expected of a request for room for `size` bytes. -/
structure Reserved (w : Nat) (h : Heap) (u : Unpacker) (size : Nat)
    (r : Bool × Heap × Unpacker) : Prop where
  moved : Moved h u r.2.1 r.2.2
  fits : Fits w r.2.1 r.2.2
  room : r.1 = true → size ≤ r.2.2.free
  rest : (dataOf r.2.1 r.2.2.buffer).drop (r.2.2.off - counterSize)
    = (dataOf h u.buffer).drop (u.off - counterSize)

/-- A reservation that is refused changes nothing. -/
theorem Reserved.refused (hu : Fits w h u) :
    Reserved w h u size (false, h, u) :=
  ⟨Moved.refl h u, hu, nofun, rfl⟩

/-- The unpacker goes on in a new buffer. It gives up the old one, `d` is
one, or leaves it to its zone. -/
theorem counts_moved {h' : Heap} {u' : Unpacker} {d : Nat}
    (hcount : ∀ b, u.holds b ≤ getCount h b)
    (hbuffer : u'.buffer = h.length)
    (hcounts : ∀ b, getCount h' b = if b = h.length then 1
      else getCount h b - if b = u.buffer then d else 0)
    (hzone : ∀ b, u'.z.count b + (if b = u.buffer then d else 0)
      = u.z.count b + if b = u.buffer then 1 else 0) (b : Nat) :
    getCount h' b + u.holds b = getCount h b + u'.holds b := by
  have hlt := buffer_lt hcount
  have hle := hcount b
  have hz := hzone b
  have hc := hcounts b
  unfold Unpacker.holds at hle ⊢
  rw [hbuffer]
  by_cases hnew : b = h.length
  · have hzero := holds_length hcount
    have hnone : ¬ 0 < getCount h h.length :=
      fun hpos => absurd (getCount_lt hpos) (Nat.lt_irrefl _)
    unfold Unpacker.holds at hzero
    subst hnew
    have hne : h.length ≠ u.buffer := by omega
    rw [if_pos rfl] at hc ⊢
    rw [if_neg hne, if_neg hne] at hz
    omega
  · rw [if_neg hnew] at hc
    rw [if_neg (Ne.symm hnew)]
    by_cases hold : b = u.buffer
    · subst hold
      rw [if_pos rfl] at hc hz hle ⊢
      rw [if_pos rfl] at hz
      omega
    · rw [if_neg hold] at hc hz
      rw [if_neg (Ne.symm hold)] at hle ⊢
      rw [if_neg hold] at hz
      omega

/-- What `realloc` does. -/
theorem expandInPlace_reserved (hw : 0 < w)
    (hmalloc : ∀ n, malloc n = true → n < 2 ^ (w - 1))
    (hsize : size < 2 ^ (w - 1))
    (hcount : ∀ b, u.holds b ≤ getCount h b) (hu : Fits w h u)
    (hoff : u.off = counterSize) :
    Reserved w h u size (expandInPlace w malloc h u size) := by
  have hpow : 2 ^ w = 2 * 2 ^ (w - 1) := by
    rw [← Nat.pow_succ', Nat.succ_eq_add_one, Nat.sub_add_cancel hw]
  have hlt := buffer_lt hcount
  have hlimit := hu.limit
  have hused := hu.used
  obtain ⟨href, hone⟩ := hu.fresh hoff
  have hge := growSize_ge w ((size + u.used) % 2 ^ w)
    ((u.used + u.free) * 2 % 2 ^ w)
  unfold expandInPlace
  dsimp only
  generalize growSize w ((size + u.used) % 2 ^ w)
    ((u.used + u.free) * 2 % 2 ^ w) = nextSize at hge ⊢
  -- memory was given: the bytes are as before, the counter of the new
  -- block is 1
  by_cases hgranted : malloc nextSize = true
  · have hnext := hmalloc _ hgranted
    obtain ⟨hroom, hfree⟩ := grown_sub hw (by omega) hnext hge
    have hdata : (dataOf h u.buffer).take (nextSize - counterSize)
        = dataOf h u.buffer :=
      List.take_of_length_le (by omega)
    have hlen : (freeBuffer h u.buffer).length = h.length :=
      List.length_modify _ _ _
    have hdataOf : ∀ b x, dataOf (freeBuffer h u.buffer ++ [x]) b
        = if b = h.length then x.data else dataOf h b := by
      intro b x
      rw [dataOf_append, hlen, dataOf_free]
    rw [if_pos hgranted, hfree, hdata, hone]
    refine ⟨⟨counts_moved (d := 1) hcount rfl (fun b => ?_)
      (fun b => rfl), fun b _ => ?_⟩, ⟨?_, hu.offGe, hu.offLe, ?_, ?_,
      ?_, ?_⟩, fun _ => ?_, ?_⟩
    · show getCount (freeBuffer h u.buffer ++ [_]) b = _
      rw [getCount_append, getCount_free hlt, hlen]
      split
      · rfl
      · split
        · rename_i hb
          rw [hb, hone]
        · rfl
    · show _ <+: dataOf (freeBuffer h u.buffer ++ [_]) b
      rw [hdataOf]
      split
      · rename_i hb
        rw [hb, dataOf_length]
        exact List.nil_prefix
      · exact List.prefix_refl _
    · show u.used = counterSize + (dataOf _ h.length).length
      rw [hdataOf, if_pos rfl]
      exact hused
    · show u.used + (nextSize - u.used) = sizeOf _ h.length
      rw [sizeOf_append, hlen, if_pos rfl]
      show _ = nextSize
      omega
    · show u.used + (nextSize - u.used) < _
      omega
    · refine fun _ => ⟨href, ?_⟩
      show getCount _ h.length = 1
      rw [getCount_append, hlen, if_pos rfl]
    · refine EveryFrame.mono (fun o ho => ho.mono fun b hb => ?_) hu.refs
      rcases hb with hb | ⟨hflag, -⟩
      · refine ⟨.inl hb, ?_⟩
        show _ <+: dataOf (freeBuffer h u.buffer ++ [_]) b
        have hltb := zone_lt hcount hb
        rw [hdataOf, if_neg (by omega)]
      · rw [href] at hflag
        cases hflag
    · show size ≤ nextSize - u.used
      omega
    · show (dataOf (freeBuffer h u.buffer ++ [_]) h.length).drop _ = _
      rw [hdataOf, if_pos rfl]
  · rw [if_neg hgranted]
    exact .refused hu

/-- What a new buffer does. -/
theorem expandInNew_reserved (hw : 0 < w)
    (hmalloc : ∀ n, malloc n = true → n < 2 ^ (w - 1))
    (hsize : size < 2 ^ (w - 1)) (finalizer : Bool)
    (hcount : ∀ b, u.holds b ≤ getCount h b) (hu : Fits w h u) :
    Reserved w h u size (expandInNew w malloc finalizer h u size) := by
  have hpow : 2 ^ w = 2 * 2 ^ (w - 1) := by
    rw [← Nat.pow_succ', Nat.succ_eq_add_one, Nat.sub_add_cancel hw]
  have hlt := buffer_lt hcount
  have hlimit := hu.limit
  have hused := hu.used
  have hoffGe := hu.offGe
  have hoffLe := hu.offLe
  have hge := growSize_ge w
    ((size + (u.used - u.off) + counterSize) % 2 ^ w) u.initialBufferSize
  unfold expandInNew
  dsimp only
  generalize growSize w ((size + (u.used - u.off) + counterSize) % 2 ^ w)
    u.initialBufferSize = nextSize at hge ⊢
  by_cases hgranted : malloc nextSize = true
  · have hnext := hmalloc _ hgranted
    rw [Nat.add_assoc] at hge
    obtain ⟨hroom, hfree⟩ := grown_sub hw (by omega) hnext hge
    rw [if_pos hgranted, hfree]
    -- The unpacker that has moved, with what its zone and its context are.
    have hmoved : ∀ (h' : Heap) (z : Zone) (ctx : Machine Ref),
        (∀ b, dataOf h' b = if b = h.length
          then (dataOf h u.buffer).drop (u.off - counterSize)
          else dataOf h b) →
        sizeOf h' h.length = nextSize → getCount h' h.length = 1 →
        ctx.referenced = false → ctx.stack = u.ctx.stack →
        (∀ b, u.keeps b → b ∈ z) →
        Fits w h'
          { u with
            buffer := h.length
            used := u.used - u.off + counterSize
            free := nextSize - (u.used - u.off + counterSize)
            off := counterSize
            z := z
            ctx := ctx } := by
      intro h' z ctx hdata hsizeOf hone href hstack hkeeps
      refine ⟨?_, Nat.le_refl _, ?_, ?_, ?_, fun _ => ⟨href, hone⟩, ?_⟩
      · show u.used - u.off + counterSize
          = counterSize + (dataOf h' h.length).length
        rw [hdata, if_pos rfl, List.length_drop]
        omega
      · show counterSize ≤ u.used - u.off + counterSize
        omega
      · show u.used - u.off + counterSize + (nextSize - _)
          = sizeOf h' h.length
        rw [hsizeOf]
        omega
      · show u.used - u.off + counterSize + (nextSize - _) < _
        omega
      · show EveryFrame _ ctx.stack
        rw [hstack]
        refine EveryFrame.mono (fun o ho => ho.mono fun b hb => ?_) hu.refs
        have hltb := keeps_lt hcount hb
        refine ⟨.inl (hkeeps b hb), ?_⟩
        rw [hdata, if_neg (by omega)]
    have hpre : ∀ (x : Buffer) (b : Nat),
        dataOf h b <+: dataOf (h ++ [x]) b := by
      intro x b
      rw [dataOf_append]
      split
      · rename_i hb
        rw [hb, dataOf_length]
        exact List.nil_prefix
      · exact List.prefix_refl _
    cases href : u.ctx.referenced with
    | true =>
        rw [if_pos rfl]
        cases finalizer with
        | true =>
            rw [if_pos rfl]
            refine ⟨⟨counts_moved (d := 0) hcount rfl (fun b => ?_)
              (fun b => ?_), fun b _ => hpre _ b⟩, ?_, fun _ => ?_, ?_⟩
            · show getCount (h ++ [_]) b = _
              rw [getCount_append]
              split
              · rfl
              · split <;> rfl
            · show (u.z ++ [u.buffer]).count b + _ = _
              rw [List.count_append, List.count_singleton]
              by_cases hb : b = u.buffer
              · rw [if_pos hb, if_pos hb, if_pos (by simp [hb])]
              · rw [if_neg hb, if_neg hb, if_neg (by simpa using Ne.symm hb)]
            · refine hmoved _ _ _ (fun b => dataOf_append _) ?_ ?_ rfl rfl ?_
              · rw [sizeOf_append, if_pos rfl]
              · rw [getCount_append, if_pos rfl]
              · rintro b (hb | ⟨-, rfl⟩)
                · exact List.mem_append_left _ hb
                · exact List.mem_append_right _ (List.mem_singleton_self _)
            · show size ≤ nextSize - _
              omega
            · show (dataOf (h ++ [_]) h.length).drop _ = _
              rw [dataOf_append, if_pos rfl, Nat.sub_self]
              rfl
        | false =>
            rw [if_neg (by decide)]
            have hne : u.buffer ≠ h.length := by omega
            have hdata : ∀ x, dataOf (h ++ [x]) u.buffer
                = dataOf h u.buffer := fun x => by
              rw [dataOf_append, if_neg hne]
            refine ⟨⟨fun b => ?_, fun b _ => hpre _ b⟩, ?_, nofun,
              by rw [hdata]⟩
            · show getCount (h ++ [_]) b + _ = _
              rw [getCount_append]
              split
              · rename_i hb
                rw [hb, getCount_length]
              · rfl
            · refine ⟨?_, hoffGe, hoffLe, ?_, hlimit, fun hfresh => ?_, ?_⟩
              · rw [hdata]
                exact hused
              · rw [sizeOf_append, if_neg hne]
                exact hu.size
              · rw [getCount_append, if_neg hne]
                exact hu.fresh hfresh
              · exact EveryFrame.mono
                  (fun o ho => ho.mono fun b hb => ⟨hb, hpre _ b⟩) hu.refs
    | false =>
        rw [if_neg (by decide)]
        have hlen : (decrCount h u.buffer).length = h.length := length_decr
        refine ⟨⟨counts_moved (d := 1) hcount rfl (fun b => ?_)
          (fun b => rfl), fun b _ => ?_⟩, ?_, fun _ => ?_, ?_⟩
        · show getCount (decrCount h u.buffer ++ [_]) b = _
          rw [getCount_append, getCount_decr, hlen]
          split
          · rfl
          · split
            · rename_i hb
              rw [hb]
            · rfl
        · show _ <+: dataOf (decrCount h u.buffer ++ [_]) b
          have happ := hpre
            ⟨1, nextSize, (dataOf h u.buffer).drop (u.off - counterSize)⟩ b
          rw [dataOf_append] at happ ⊢
          rw [hlen, dataOf_decr]
          exact happ
        · refine hmoved _ _ _ (fun b => ?_) ?_ ?_ href rfl ?_
          · rw [dataOf_append, hlen, dataOf_decr]
          · rw [sizeOf_append, hlen, if_pos rfl]
          · rw [getCount_append, hlen, if_pos rfl]
          · rintro b (hb | ⟨hflag, -⟩)
            · exact hb
            · rw [href] at hflag
              cases hflag
        · show size ≤ nextSize - _
          omega
        · show (dataOf (decrCount h u.buffer ++ [_]) h.length).drop _ = _
          rw [dataOf_append, hlen, if_pos rfl, Nat.sub_self]
          rfl
  · rw [if_neg hgranted]
    exact .refused hu

theorem rewind_buffer : (rewind h u).2.buffer = u.buffer := by
  unfold rewind
  split <;> rfl

/-- A buffer is only rewound when all of it has been parsed. -/
theorem rewind_rest (hlt : u.buffer < h.length) (hu : Fits w h u) :
    (dataOf (rewind h u).1 (rewind h u).2.buffer).drop
        ((rewind h u).2.off - counterSize)
      = (dataOf h u.buffer).drop (u.off - counterSize) := by
  rw [rewind_buffer, rewind_data hlt]
  by_cases hrewind : mayRewind h u = true
  · have hoff := (mayRewind_iff.1 hrewind).1
    have hused := hu.used
    rw [if_pos ⟨hrewind, rfl⟩, List.drop_nil,
      List.drop_eq_nil_of_le (by omega)]
  · rw [if_neg fun hboth => hrewind hboth.1]
    unfold rewind
    rw [if_neg hrewind]

/-- A request that begins with rewinding the buffer. -/
theorem Reserved.of_rewind {r : Bool × Heap × Unpacker}
    (hlt : u.buffer < h.length) (hu : Fits w h u)
    (hr : Reserved w (rewind h u).1 (rewind h u).2 size r) :
    Reserved w h u size r := by
  have hfirst := rewind_moved hlt
  refine ⟨⟨fun b => ?_, fun b hb => ?_⟩, hr.fits, hr.room,
    hr.rest.trans (rewind_rest hlt hu)⟩
  · have hcounts := hr.moved.counts b
    rwa [rewind_counts, rewind_holds] at hcounts
  · refine (hfirst.data b hb).trans (hr.moved.data b ?_)
    rw [rewind_buffer, rewind_counts]
    exact hb

/-- `msgpack_unpacker_reserve_buffer`. -/
theorem reserveBuffer_reserved (hw : 0 < w)
    (hmalloc : ∀ n, malloc n = true → n < 2 ^ (w - 1))
    (hsize : size < 2 ^ (w - 1)) (finalizer : Bool)
    (hcount : ∀ b, u.holds b ≤ getCount h b) (hu : Fits w h u) :
    Reserved w h u size
      (msgpackUnpackerReserveBuffer w malloc finalizer h u size) := by
  have hlt := buffer_lt hcount
  have hcount' : ∀ b,
      (rewind h u).2.holds b ≤ getCount (rewind h u).1 b := by
    intro b
    rw [rewind_holds, rewind_counts]
    exact hcount b
  have hfits := rewind_fits hcount hu
  unfold msgpackUnpackerReserveBuffer
  split
  · rename_i hroom
    exact ⟨Moved.refl h u, hu, fun _ => hroom, rfl⟩
  · unfold msgpackUnpackerExpandBuffer
    dsimp only
    split
    · rename_i hroom
      refine Reserved.of_rewind hlt hu ?_
      exact ⟨Moved.refl _ _, hfits, fun _ => hroom.2, rfl⟩
    · split
      · rename_i hoff
        exact (expandInPlace_reserved hw hmalloc hsize hcount' hfits
          hoff).of_rewind hlt hu
      · exact (expandInNew_reserved hw hmalloc hsize finalizer hcount'
          hfits).of_rewind hlt hu

end Reserve

-- ============================================================== the bytes

section Feed

variable {w : Nat} {h : Heap} {u : Unpacker} {bytes : List UInt8}

/-- The bytes written by the caller are those that become used. -/
theorem bufferConsumed_data (bytes : List UInt8)
    (hlt : u.buffer < h.length) (b : Nat) :
    dataOf (msgpackUnpackerBufferConsumed h u bytes).1 b
      = if b = u.buffer then dataOf h b ++ bytes else dataOf h b := by
  refine (field_modify _ _ _ hlt).trans ?_
  split
  · rename_i hb
    rw [hb, dataOf_eq hlt]
  · rfl

/-- What is fed is written within the buffer. -/
theorem bufferConsumed_fits (hcount : ∀ b, u.holds b ≤ getCount h b)
    (hu : Fits w h u) (hfree : bytes.length ≤ u.free) :
    Moved h u (msgpackUnpackerBufferConsumed h u bytes).1
        (msgpackUnpackerBufferConsumed h u bytes).2
      ∧ Fits w (msgpackUnpackerBufferConsumed h u bytes).1
        (msgpackUnpackerBufferConsumed h u bytes).2 := by
  have hdata := bufferConsumed_data bytes (buffer_lt hcount)
  have hcounts : ∀ b, getCount (msgpackUnpackerBufferConsumed h u bytes).1 b
      = getCount h b := fun b => field_same _ _ fun _ => rfl
  have hsizeOf : ∀ b, sizeOf (msgpackUnpackerBufferConsumed h u bytes).1 b
      = sizeOf h b := fun b => field_same _ _ fun _ => rfl
  have hpre : ∀ b, dataOf h b
      <+: dataOf (msgpackUnpackerBufferConsumed h u bytes).1 b := by
    intro b
    rw [hdata]
    split
    · exact List.prefix_append _ _
    · exact List.prefix_refl _
  have hused := hu.used
  have hlimit := hu.limit
  have hsize := hu.size
  have hoffLe := hu.offLe
  refine ⟨⟨fun b => by rw [hcounts]; rfl, fun b _ => hpre b⟩,
    ⟨?_, hu.offGe, ?_, ?_, ?_, ?_, ?_⟩⟩
  · show u.used + bytes.length
      = counterSize + (dataOf (msgpackUnpackerBufferConsumed h u bytes).1
        u.buffer).length
    rw [hdata, if_pos rfl, List.length_append]
    omega
  · show u.off ≤ u.used + bytes.length
    omega
  · rw [hsizeOf]
    show u.used + bytes.length + (u.free - bytes.length) = sizeOf h u.buffer
    omega
  · show u.used + bytes.length + (u.free - bytes.length) < _
    omega
  · intro hoff
    rw [hcounts]
    exact hu.fresh hoff
  · exact EveryFrame.mono
      (fun o ho => ho.mono fun b hb => ⟨hb, hpre b⟩) hu.refs

end Feed

-- ============================================================= execution

section Execute

variable {w : Nat} {h : Heap} {u : Unpacker}

/-- What is said of the objects of an unpacker, by its `referenced`. -/
def KeptBy (h : Heap) (u : Unpacker) (flag : Bool) : Object Ref → Prop :=
  Kept h fun b => b ∈ u.z ∨ (flag = true ∧ b = u.buffer)

/-- The bodies that `template_execute` makes are within its buffer. -/
theorem keptBy_admits (env : Env Ref) (hu : Fits w h u) :
    Admits (KeptBy h u) (env.within u.buffer) (u.start h) := by
  refine ⟨fun flag o ho => ?_, fun o ho => ho.mono fun b hb => ?_,
    fun cs k trail hk htrail => ?_⟩
  · intro r hr
    rw [ho] at hr
    cases hr
  · refine ⟨hb.imp_right fun hflag => ?_, List.prefix_refl _⟩
    cases hflag.1
  · have hoff := hu.offGe
    change k < ((dataOf h u.buffer).drop (u.off - counterSize)).length at hk
    change trail ≤ (((dataOf h u.buffer).drop
      (u.off - counterSize)).drop k).length at htrail
    rw [List.length_drop] at hk
    rw [List.length_drop, List.length_drop] at htrail
    have hplain : ∀ o : Object Ref,
        o.ownBody = some ⟨u.buffer, u.off + k, trail⟩ →
        KeptBy h u true o := by
      intro o ho r hr
      rw [ho] at hr
      cases hr
      refine ⟨.inr ⟨rfl, rfl⟩, ?_, .inl ?_⟩
      · show counterSize ≤ u.off + k
        omega
      · show u.off + k + trail ≤ counterSize + (dataOf h u.buffer).length
        omega
    cases cs with
    | str => exact hplain _ rfl
    | bin => exact hplain _ rfl
    | ext =>
        intro r hr
        cases hr
        refine ⟨.inr ⟨rfl, rfl⟩, ?_, ?_⟩
        · show counterSize ≤ u.off + k + 1
          omega
        · by_cases hzero : trail = 0
          · right
            subst hzero
            rfl
          · left
            show u.off + k + 1 + (trail + 2 ^ 32 - 1) % 2 ^ 32
              ≤ counterSize + (dataOf h u.buffer).length
            have hmod : (trail + 2 ^ 32 - 1) % 2 ^ 32 ≤ trail - 1 := by
              rw [show trail + 2 ^ 32 - 1 = trail - 1 + 2 ^ 32 by omega,
                Nat.add_mod_right]
              exact Nat.mod_le _ _
            omega

/-- `msgpack_unpacker_execute`. -/
theorem execute_fits (env : Env Ref) (hu : Fits w h u) :
    Fits w h (msgpackUnpackerExecute env h u).2
      ∧ ∀ obj, (msgpackUnpackerExecute env h u).1 = .finish obj →
        obj.Every (Kept h (msgpackUnpackerExecute env h u).2.keeps) := by
  have hevery := execute_every (keptBy_admits env hu) hu.refs
  have hflag := execute_referenced (env.within u.buffer) (u.start h)
  obtain ⟨k, hpos, -, hle⟩ := execute_at (env.within u.buffer) (u.start h)
  have hused := hu.used
  have hoffGe := hu.offGe
  have hoffLe := hu.offLe
  unfold msgpackUnpackerExecute
  dsimp only
  generalize templateExecute (env.within u.buffer) (u.start h) = r
    at hevery hflag hpos ⊢
  obtain ⟨r, m⟩ := r
  change k ≤ ((dataOf h u.buffer).drop (u.off - counterSize)).length at hle
  rw [List.length_drop] at hle
  change m.pos = u.off + k at hpos
  change m.referenced = u.ctx.referenced ∨ u.off < m.pos at hflag
  have hstack : EveryFrame (KeptBy h u m.referenced) m.stack := by
    cases r with
    | finish obj => exact hevery.2
    | out => exact hevery
    | failed => exact hevery
  refine ⟨⟨hused, ?_, ?_, hu.size, hu.limit, fun hoff => ?_, hstack⟩,
    ?_⟩
  · show counterSize ≤ m.pos
    omega
  · show m.pos ≤ u.used
    omega
  · change m.pos = counterSize at hoff
    have hfresh := hu.fresh (by omega)
    refine ⟨?_, hfresh.2⟩
    show m.referenced = false
    rcases hflag with hsame | hlt
    · exact hsame.trans hfresh.1
    · omega
  · intro obj hobj
    have hr : r = .finish obj := hobj
    subst hr
    exact hevery.1

end Execute

end ProjectsLibs.Msgpack
