/-
The unpacker and its clients: nothing is freed that is still needed, and
what has been delivered stays as it is.

# The invariant

The counter of a buffer is the number of those who hold it (`counted`): the
unpacker, and the finalizers of the zones, of its own and of those that have
been delivered. The bodies of a message are in buffers that its zone holds
(`kept`), so that they are there as long as the message is; and no function
takes bytes away from a buffer that another holds (`Moved`), so that they
stay the same (`read`).

A message whose zone could not be made is left out: its bodies are only
there until the unpacker is used again.
-/
import ProjectsLibs.Msgpack.Proofs.Buffers

namespace ProjectsLibs.Msgpack

open Lib

-- ============================================================ the holders

/-- The zones of the messages that have not been destroyed. -/
def resultZones (results : List (Option Unpacked)) : List Zone :=
  results.filterMap fun r => r.bind Unpacked.zone

/-- How often a buffer is held. -/
def World.holders (s : World) (b : Nat) : Nat :=
  s.mpac.elim 0 (fun u => u.holds b)
    + (resultZones s.results).flatten.count b

/-- There is no extension of the greatest size in an object, so that all of
its bodies are among the bytes that have been fed. -/
def NoOverflow (o : Object Ref) : Prop := o.Every fun o => ¬ Overflows o

/-- The invariant of a world in which `out` has been delivered. -/
structure Safe (w : Nat) (out : List Value) (s : World) : Prop where
  counted : ∀ b, getCount s.heap b = s.holders b
  fits : ∀ u, s.mpac = some u → Fits w s.heap u
  kept : ∀ (k : Nat) r z, s.results[k]? = some (some r) →
    r.zone = some z →
    r.data.Every (Kept s.heap (· ∈ z))
  length : s.results.length = out.length
  read : ∀ (k : Nat) r z, s.results[k]? = some (some r) →
    r.zone = some z →
    NoOverflow r.data → out[k]? = some (r.read s.heap)

section Holders

variable {w : Nat} {out : List Value} {s : World} {u : Unpacker}
  {results : List (Option Unpacked)} {k : Nat} {b : Nat} {z : Zone}
  {r : Unpacked}

/-- A message that is destroyed gives up its zone. -/
theorem count_set (results : List (Option Unpacked)) (k b : Nat) :
    (resultZones (results.set k none)).flatten.count b
        + ((World.zoneAt ⟨[], none, results⟩ k).getD []).count b
      = (resultZones results).flatten.count b := by
  induction results generalizing k with
  | nil => rfl
  | cons x rest ih =>
      cases k with
      | zero =>
          cases x with
          | none => rfl
          | some r =>
              cases hz : r.zone with
              | none =>
                  simp [resultZones, World.zoneAt, hz]
              | some z =>
                  simp [resultZones, World.zoneAt, hz]
                  omega
      | succ k =>
          have hrest := ih k
          have hzone : World.zoneAt ⟨[], none, x :: rest⟩ (k + 1)
              = World.zoneAt ⟨[], none, rest⟩ k := rfl
          rw [hzone, List.set_cons_succ]
          cases x with
          | none => exact hrest
          | some r =>
              cases hz : r.zone with
              | none =>
                  simp only [resultZones, List.filterMap_cons,
                    Option.bind_some, hz] at hrest ⊢
                  exact hrest
              | some z =>
                  simp only [resultZones, List.filterMap_cons,
                    Option.bind_some, hz, List.flatten_cons,
                    List.count_append] at hrest ⊢
                  omega

/-- A message holds the buffers of its zone. -/
theorem count_zone (hr : results[k]? = some (some r))
    (hz : r.zone = some z) (hb : b ∈ z) :
    0 < (resultZones results).flatten.count b := by
  refine List.count_pos_iff.2 (List.mem_flatten.2 ⟨z, ?_, hb⟩)
  exact List.mem_filterMap.2 ⟨some r, List.mem_of_getElem? hr, hz⟩

/-- The unpacker holds no more than the counters say. -/
theorem Safe.holds_le (hs : Safe w out s) (hu : s.mpac = some u) (b : Nat) :
    u.holds b ≤ getCount s.heap b := by
  rw [hs.counted b]
  unfold World.holders
  rw [hu]
  exact Nat.le_add_right _ _

end Holders

-- ========================================================== what survives

section Survive

variable {w : Nat} {out : List Value} {s : World} {u : Unpacker}
  {h h' : Heap} {z : Zone} {r : Unpacked}

/-- A body is read as before if its buffer has only grown. -/
theorem readRef_same {x : Ref} (hpos : counterSize ≤ x.pos)
    (hin : x.pos + x.size ≤ counterSize + (dataOf h x.buffer).length)
    (hpre : dataOf h x.buffer <+: dataOf h' x.buffer) :
    readRef h x = readRef h' x := by
  obtain ⟨more, hmore⟩ := hpre
  unfold readRef
  rw [← hmore, List.drop_append_of_le_length (by omega),
    List.take_append_of_le_length (by
      rw [List.length_drop]
      omega)]

/-- A message reads the same where its buffers have their bytes. -/
theorem read_same (hkept : r.data.Every (Kept h (· ∈ z)))
    (hno : NoOverflow r.data)
    (hpre : ∀ b ∈ z, dataOf h b <+: dataOf h' b) :
    r.read h = r.read h' := by
  refine Object.mapBody_congr (P := fun o => Kept h (· ∈ z) o
    ∧ ¬ Overflows o) ?_ (hkept.and hno)
  rintro o ⟨ho, hover⟩ x hx
  obtain ⟨hz, hpos, hin⟩ := ho x hx
  exact readRef_same hpos (hin.resolve_right hover) (hpre x.buffer hz)

/-- What is delivered survives where no bytes of its buffers are lost. -/
theorem Safe.survive (h' : Heap) (hs : Safe w out s)
    (hpre : ∀ b, 0 < (resultZones s.results).flatten.count b →
      dataOf s.heap b <+: dataOf h' b) (k : Nat) (r : Unpacked) (z : Zone)
    (hr : s.results[k]? = some (some r)) (hz : r.zone = some z) :
    r.data.Every (Kept h' (· ∈ z))
      ∧ (NoOverflow r.data → out[k]? = some (r.read h')) := by
  have hkept := hs.kept k r z hr hz
  have hdata : ∀ b ∈ z, dataOf s.heap b <+: dataOf h' b :=
    fun b hb => hpre b (count_zone hr hz hb)
  refine ⟨hkept.mono fun o ho => ho.mono fun b hb => ⟨hb, hdata b hb⟩,
    ?_⟩
  intro hno
  rw [← read_same hkept hno hdata]
  exact hs.read k r z hr hz hno

/-- A change of the buffers of the unpacker. -/
theorem Safe.withUnpacker (hs : Safe w out s) (hu : s.mpac = some u)
    {q : Heap × Unpacker} (hmoved : Moved s.heap u q.1 q.2)
    (hfits : Fits w q.1 q.2) : Safe w out (s.withUnpacker q) := by
  have hsurvive := hs.survive q.1 (fun b hb => by
    refine hmoved.data b fun hbuffer => ?_
    have hcount := hs.counted b
    have hholds := holds_buffer u
    unfold World.holders at hcount
    rw [hu] at hcount
    change getCount s.heap b = u.holds b + _ at hcount
    rw [← hbuffer] at hholds
    omega)
  refine ⟨fun b => ?_, ?_, fun k r z hr hz => (hsurvive k r z hr hz).1,
    hs.length, fun k r z hr hz => (hsurvive k r z hr hz).2⟩
  · have hcount := hs.counted b
    have hsame := hmoved.counts b
    unfold World.holders at hcount ⊢
    rw [hu] at hcount
    change getCount q.1 b
      = q.2.holds b + (resultZones s.results).flatten.count b
    change getCount s.heap b = u.holds b + _ at hcount
    omega
  · rintro u' ⟨⟩
    exact hfits

end Survive

-- ============================================================== destroying

section Destroy

variable {w : Nat} {out : List Value} {s : World} {u : Unpacker}
  {h h' : Heap}

/-- Destroying a result gives up what its zone held. -/
theorem getCount_destroy (zone : Option Zone) (b : Nat) :
    getCount (msgpackUnpackedDestroy zone h) b
      = getCount h b - (zone.getD []).count b := by
  cases zone with
  | none => rfl
  | some z => exact getCount_zoneFree z

theorem dataOf_destroy (zone : Option Zone) (b : Nat) :
    dataOf (msgpackUnpackedDestroy zone h) b = dataOf h b := by
  cases zone with
  | none => rfl
  | some z => exact dataOf_zoneFree z

theorem sizeOf_destroy (zone : Option Zone) (b : Nat) :
    sizeOf (msgpackUnpackedDestroy zone h) b = sizeOf h b := by
  cases zone with
  | none => rfl
  | some z => exact sizeOf_zoneFree z

/-- Counters that go down do not matter to an unpacker. -/
theorem Fits.of_same (hu : Fits w h u)
    (hdata : ∀ b, dataOf h' b = dataOf h b)
    (hsize : ∀ b, sizeOf h' b = sizeOf h b)
    (hone : getCount h u.buffer = 1 → getCount h' u.buffer = 1) :
    Fits w h' u := by
  refine ⟨?_, hu.offGe, hu.offLe, ?_, hu.limit, fun hoff => ?_, ?_⟩
  · rw [hdata]
    exact hu.used
  · rw [hsize]
    exact hu.size
  · exact ⟨(hu.fresh hoff).1, hone (hu.fresh hoff).2⟩
  · refine EveryFrame.mono (fun o ho => ho.mono fun b hb =>
      ⟨hb, ?_⟩) hu.refs
    rw [hdata]

theorem Safe.destroyResult (hs : Safe w out s) (k : Nat) :
    Safe w out (s.destroyResult k) := by
  have hcounted : ∀ b, getCount (s.destroyResult k).heap b
      = (s.destroyResult k).holders b := by
    intro b
    have hcount := hs.counted b
    have hset := count_set s.results k b
    change _ + ((s.zoneAt k).getD []).count b = _ at hset
    unfold World.holders at hcount ⊢
    change getCount (msgpackUnpackedDestroy (s.zoneAt k) s.heap) b
      = s.mpac.elim 0 (fun u => u.holds b)
        + (resultZones (s.results.set k none)).flatten.count b
    rw [getCount_destroy]
    omega
  have hsurvive := hs.survive (s.destroyResult k).heap (fun b _ => by
    show dataOf s.heap b <+: dataOf (msgpackUnpackedDestroy _ _) b
    rw [dataOf_destroy])
  have hold : ∀ (j : Nat) (r : Unpacked),
      (s.destroyResult k).results[j]? = some (some r) →
      s.results[j]? = some (some r) := by
    intro j r hr
    change (s.results.set k none)[j]? = _ at hr
    by_cases hj : k = j
    · subst hj
      rw [List.getElem?_set] at hr
      simp at hr
    · rwa [List.getElem?_set_ne hj] at hr
  refine ⟨hcounted, fun u hu => ?_,
    fun j r z hr hz => (hsurvive j r z (hold j r hr) hz).1, ?_,
    fun j r z hr hz => (hsurvive j r z (hold j r hr) hz).2⟩
  · refine (hs.fits u hu).of_same (fun b => dataOf_destroy _ b)
      (fun b => sizeOf_destroy _ b) fun hone => ?_
    have hle : getCount (s.destroyResult k).heap u.buffer
        ≤ getCount s.heap u.buffer := by
      show getCount (msgpackUnpackedDestroy _ _) _ ≤ _
      rw [getCount_destroy]
      omega
    have hcount := hcounted u.buffer
    have hpos := holds_buffer u
    unfold World.holders at hcount
    rw [show (s.destroyResult k).mpac = some u from hu] at hcount
    change _ = u.holds u.buffer + _ at hcount
    omega
  · show (s.results.set k none).length = _
    rw [List.length_set]
    exact hs.length

theorem Safe.destroyUnpacker (hs : Safe w out s) (hu : s.mpac = some u) :
    Safe w out (s.destroyUnpacker u) := by
  have hsurvive := hs.survive (s.destroyUnpacker u).heap
    (fun b _ => by
      show dataOf s.heap b <+: dataOf (decrCount _ _) b
      rw [dataOf_decr, dataOf_zoneFree])
  refine ⟨fun b => ?_, nofun,
    fun j r z hr hz => (hsurvive j r z hr hz).1, hs.length,
    fun j r z hr hz => (hsurvive j r z hr hz).2⟩
  have hcount := hs.counted b
  unfold World.holders at hcount ⊢
  rw [hu] at hcount
  change getCount s.heap b = u.holds b + _ at hcount
  change getCount (decrCount (msgpackZoneFree u.z s.heap) u.buffer) b
    = 0 + (resultZones s.results).flatten.count b
  rw [getCount_decr, getCount_zoneFree, getCount_zoneFree]
  unfold Unpacker.holds at hcount
  by_cases hb : b = u.buffer
  · subst hb
    rw [if_pos rfl] at hcount ⊢
    omega
  · rw [if_neg (Ne.symm hb)] at hcount
    rw [if_neg hb]
    omega

end Destroy

-- ============================================================== delivering

section Deliver

variable {w : Nat} {out : List Value} {s : World} {u : Unpacker}
  {h : Heap} {obj : Object Ref}

/-- What is in the last place of a list, or before. -/
theorem getElem?_concat {α : Type} {xs : List α} {x y : α} {k : Nat}
    (hk : (xs ++ [x])[k]? = some y) :
    xs[k]? = some y ∨ (k = xs.length ∧ x = y) := by
  by_cases hlt : k < xs.length
  · rw [List.getElem?_append_left hlt] at hk
    exact .inl hk
  · rw [List.getElem?_append_right (Nat.not_lt.1 hlt)] at hk
    obtain ⟨hlen, hx⟩ := List.getElem?_eq_some_iff.1 hk
    rw [List.length_singleton] at hlen
    right
    refine ⟨by omega, ?_⟩
    rw [← hx, List.getElem_singleton]

/-- What is in a list is in a longer one. -/
theorem getElem?_append_some {α : Type} {xs : List α} {x : α} {k : Nat}
    (hk : xs[k]? = some x) (ys : List α) : (xs ++ ys)[k]? = some x := by
  obtain ⟨hlt, -⟩ := List.getElem?_eq_some_iff.1 hk
  rw [List.getElem?_append_left hlt]
  exact hk

/-- A message without a zone. -/
theorem Safe.deliverNone (hs : Safe w out s) (v : Value) :
    Safe w (out ++ [v])
      { s with results := s.results ++ [some ⟨none, obj⟩] } := by
  have hold : ∀ (k : Nat) r z,
      (s.results ++ [some ⟨none, obj⟩])[k]? = some (some r) →
      r.zone = some z → s.results[k]? = some (some r) := by
    intro k r z hr hz
    rcases getElem?_concat hr with hr | ⟨-, hr⟩
    · exact hr
    · cases hr
      cases hz
  refine ⟨fun b => ?_, hs.fits,
    fun k r z hr hz => hs.kept k r z (hold k r z hr hz) hz, ?_,
    fun k r z hr hz hno => ?_⟩
  · rw [show getCount _ b = getCount s.heap b from rfl, hs.counted b]
    unfold World.holders
    simp [resultZones]
  · rw [List.length_append, List.length_append, hs.length]
    rfl
  · exact getElem?_append_some
      (hs.read k r z (hold k r z hr hz) hz hno) [v]

/-- A message that takes the zone of the unpacker. -/
theorem Safe.deliverZone (hs : Safe w out s) (hu : s.mpac = some u)
    (hobj : obj.Every (Kept s.heap (· ∈ u.z))) (hstack : u.ctx.stack = []) :
    Safe w (out ++ [obj.mapBody (readRef s.heap)])
      { s with
        mpac := some { u with z := [] }
        results := s.results ++ [some ⟨some u.z, obj⟩] } := by
  have hfits := hs.fits u hu
  refine ⟨fun b => ?_, ?_, fun k r z hr hz => ?_, ?_,
    fun k r z hr hz hno => ?_⟩
  · have hcount := hs.counted b
    unfold World.holders at hcount ⊢
    rw [hu] at hcount
    change getCount s.heap b = (if u.buffer = b then 1 else 0)
      + u.z.count b + (resultZones s.results).flatten.count b at hcount
    have hzones : resultZones (s.results ++ [some ⟨some u.z, obj⟩])
        = resultZones s.results ++ [u.z] := by
      simp [resultZones]
    change getCount s.heap b = (if u.buffer = b then 1 else 0) + 0
      + (resultZones (s.results ++ [some ⟨some u.z, obj⟩])).flatten.count b
    rw [hzones, List.flatten_append, List.count_append,
      List.flatten_singleton]
    omega
  · rintro u' ⟨⟩
    refine ⟨hfits.used, hfits.offGe, hfits.offLe, hfits.size, hfits.limit,
      hfits.fresh, ?_⟩
    show EveryFrame _ u.ctx.stack
    rw [hstack]
    exact nofun
  · rcases getElem?_concat hr with hr | ⟨-, hr⟩
    · exact hs.kept k r z hr hz
    · cases hr
      cases hz
      exact hobj
  · rw [List.length_append, List.length_append, hs.length]
    rfl
  · rcases getElem?_concat hr with hr | ⟨hk, hr⟩
    · exact getElem?_append_some (hs.read k r z hr hz hno) _
    · cases hr
      rw [hk, hs.length]
      exact List.getElem?_concat_length

/-- What `msgpack_unpacker_flush_zone` leaves. -/
structure Flushed (w : Nat) (h : Heap) (u : Unpacker)
    (r : Bool × Heap × Unpacker) : Prop where
  moved : Moved h u r.2.1 r.2.2
  fits : Fits w r.2.1 r.2.2
  data : ∀ b, dataOf r.2.1 b = dataOf h b
  stack : r.2.2.ctx.stack = u.ctx.stack
  zone : r.1 = true → ∀ b, u.keeps b → b ∈ r.2.2.z

/-- Flushing the zone leaves an empty one behind. -/
theorem flushZone_flushed (finalizer : Bool)
    (hcount : ∀ b, u.holds b ≤ getCount h b) (hu : Fits w h u) :
    Flushed w h u (msgpackUnpackerFlushZone finalizer h u) := by
  have hlt := buffer_lt hcount
  unfold msgpackUnpackerFlushZone
  cases href : u.ctx.referenced with
  | false =>
      rw [if_neg (by decide)]
      refine ⟨Moved.refl h u, hu, fun _ => rfl, rfl, fun _ b hb => ?_⟩
      rcases hb with hb | ⟨hflag, -⟩
      · exact hb
      · rw [href] at hflag
        cases hflag
  | true =>
      rw [if_pos rfl]
      cases finalizer with
      | false =>
          rw [if_neg (by decide)]
          exact ⟨Moved.refl h u, hu, fun _ => rfl, rfl, nofun⟩
      | true =>
          rw [if_pos rfl]
          have hkeeps : ∀ b, u.keeps b → b ∈ u.z ++ [u.buffer] := by
            rintro b (hb | ⟨-, rfl⟩)
            · exact List.mem_append_left _ hb
            · exact List.mem_append_right _ (List.mem_singleton_self _)
          refine ⟨⟨fun b => ?_, fun b _ => ?_⟩,
            ⟨?_, hu.offGe, hu.offLe, ?_,
            hu.limit, fun hoff => ?_, ?_⟩, fun b => dataOf_incr, rfl,
            fun _ => hkeeps⟩
          · show getCount (incrCount h u.buffer) b
                + ((if u.buffer = b then 1 else 0) + u.z.count b)
              = getCount h b + ((if u.buffer = b then 1 else 0)
                + (u.z ++ [u.buffer]).count b)
            rw [getCount_incr hlt, List.count_append, List.count_singleton]
            by_cases hb : b = u.buffer
            · subst hb
              rw [if_pos rfl, if_pos rfl, if_pos (beq_self_eq_true _)]
              omega
            · rw [if_neg hb, if_neg (Ne.symm hb),
                if_neg (by simpa using Ne.symm hb)]
              omega
          · rw [dataOf_incr]
          · rw [dataOf_incr]
            exact hu.used
          · rw [sizeOf_incr]
            exact hu.size
          · have hfresh := (hu.fresh hoff).1
            rw [href] at hfresh
            cases hfresh
          · refine EveryFrame.mono (fun o ho => ho.mono fun b hb => ?_)
              hu.refs
            refine ⟨.inl (hkeeps b hb), ?_⟩
            rw [dataOf_incr]

/-- Resetting the parser does not touch the buffer. -/
theorem Fits.reset (hu : Fits w h u) : Fits w h (msgpackUnpackerReset u) :=
  ⟨hu.used, hu.offGe, hu.offLe, hu.size, hu.limit, hu.fresh, nofun⟩

/-- A change of the unpacker alone, which holds what it held. -/
theorem Moved.of_holds {u' : Unpacker}
    (hholds : ∀ b, u'.holds b = u.holds b) :
    Moved h u h u' :=
  ⟨fun b => by rw [hholds], fun _ _ => List.prefix_refl _⟩

/-- `msgpack_unpacker_next`. -/
theorem Safe.next (env : Env Ref) (hs : Safe w out s) (hu : s.mpac = some u)
    (finalizer zoneNew : Bool) (k : Nat) :
    Safe w
      (out ++ ((s.next env finalizer zoneNew k u).2.1.map
        (Unpacked.read (s.next env finalizer zoneNew k u).2.2.heap)).toList)
      (s.next env finalizer zoneNew k u).2.2 := by
  have hs₁ := hs.destroyResult k
  have hexec := execute_fits env (hs₁.fits u hu)
  have hholds : ∀ b, (msgpackUnpackerExecute env
      (s.destroyResult k).heap u).2.holds b = u.holds b := fun _ => rfl
  unfold World.next msgpackUnpackerNext
  dsimp only
  change Safe w out (s.destroyResult k) at hs₁
  rw [show msgpackUnpackedDestroy (s.zoneAt k) s.heap
    = (s.destroyResult k).heap from rfl]
  generalize msgpackUnpackerExecute env (s.destroyResult k).heap u = e
    at hexec hholds ⊢
  obtain ⟨r, u₁⟩ := e
  have hs₂ := hs₁.withUnpacker hu (q := ((s.destroyResult k).heap, u₁))
    (Moved.of_holds hholds) hexec.1
  cases r with
  | failed =>
      simp only [Option.map_none, Option.toList_none, List.append_nil]
      exact hs₂
  | out =>
      simp only [Option.map_none, Option.toList_none, List.append_nil]
      exact hs₂
  | finish obj =>
      have hf : Flushed w (s.destroyResult k).heap u₁
          (msgpackUnpackerFlushZone finalizer (s.destroyResult k).heap u₁) :=
        flushZone_flushed finalizer (hs₂.holds_le rfl) hexec.1
      have hobj := hexec.2 obj rfl
      unfold msgpackUnpackerReleaseZone
      dsimp only
      generalize msgpackUnpackerFlushZone finalizer
        (s.destroyResult k).heap u₁ = f at hf ⊢
      obtain ⟨ok, h₃, u₃⟩ := f
      have hs₃ := hs₂.withUnpacker rfl (q := (h₃, u₃)) hf.moved hf.fits
      have hs₄ := hs₃.withUnpacker rfl
        (q := (h₃, msgpackUnpackerReset u₃))
        (Moved.of_holds fun _ => rfl) hf.fits.reset
      cases ok with
      | false => exact hs₄.deliverNone _
      | true =>
          cases zoneNew with
          | false => exact hs₄.deliverNone _
          | true =>
              refine hs₄.deliverZone rfl ?_ rfl
              refine hobj.mono fun o ho => ho.mono fun b hb => ?_
              refine ⟨hf.zone rfl b hb, ?_⟩
              show _ <+: dataOf h₃ b
              rw [show dataOf h₃ b = _ from hf.data b]

end Deliver

-- ================================================================== runs

section Runs

variable {w size : Nat} {env : Env Ref} {fed : List UInt8}
  {out : List Value} {s : World}

theorem init_safe (hsize : size < 2 ^ (w - 1))
    (hcounter : counterSize < 2 ^ (w - 1)) : Safe w [] (.init size) := by
  refine ⟨fun b => ?_, ?_, nofun, rfl, nofun⟩
  · have happ := getCount_append (h := []) (c := b)
      ⟨1, if size < counterSize then counterSize else size, []⟩
    refine happ.trans ?_
    show (if b = 0 then 1 else getCount [] b)
      = (if 0 = b then 1 else 0) + 0 + 0
    by_cases hb : b = 0
    · subst hb
      rfl
    · rw [if_neg (Ne.symm hb), if_neg hb]
      rfl
  · rintro u ⟨⟩
    refine ⟨rfl, Nat.le_refl _, Nat.le_refl _, ?_, ?_, fun _ =>
      ⟨rfl, rfl⟩, nofun⟩
    · show counterSize + ((if size < counterSize then counterSize else size)
        - counterSize) = if size < counterSize then counterSize else size
      split <;> omega
    · show counterSize + ((if size < counterSize then counterSize else size)
        - counterSize) < _
      split <;> omega

/-- What holds in every run. -/
theorem run_safe (hw : 0 < w) (hsize : size < 2 ^ (w - 1))
    (hcounter : counterSize < 2 ^ (w - 1))
    (h : Run w env size fed out s) : Safe w out s := by
  induction h with
  | init => exact init_safe hsize hcounter
  | reserve malloc finalizer n _ hu hmalloc hn ih =>
      have hreserved := reserveBuffer_reserved hw hmalloc hn finalizer
        (ih.holds_le hu) (ih.fits _ hu)
      exact ih.withUnpacker hu hreserved.moved hreserved.fits
  | feed bytes _ hu hfree ih =>
      have hfed := bufferConsumed_fits (ih.holds_le hu) (ih.fits _ hu) hfree
      exact ih.withUnpacker hu hfed.1 hfed.2
  | next finalizer zoneNew k _ hu ih => exact ih.next env hu finalizer zoneNew k
  | destroyResult k _ ih => exact ih.destroyResult k
  | destroyUnpacker _ hu ih => exact ih.destroyUnpacker hu

/-- A string that has been delivered. -/
theorem run_str :
    ∃ s u, Run 64 (refEnv fun _ => 0) 64 [0xa1, 0x61] [.str [0x61]] s
      ∧ s.mpac = some u ∧ u.buffer = 0
      ∧ s.results[0]? = some (some ⟨some [0], .str ⟨0, 5, 1⟩⟩) :=
  ⟨_, _, .next true true 0 (.feed [0xa1, 0x61] .init rfl (by decide)) rfl,
    rfl, rfl, rfl⟩

/-- A buffer has been freed if and only if nobody holds it: it is not the
buffer of the unpacker, and is in no zone that has not been freed. -/
theorem run_frees (hw : 0 < w) (hsize : size < 2 ^ (w - 1))
    (hcounter : counterSize < 2 ^ (w - 1))
    (h : Run w env size fed out s) (b : Nat) :
    getCount s.heap b = 0
      ↔ (∀ u, s.mpac = some u → u.buffer ≠ b ∧ b ∉ u.z)
        ∧ ∀ (k : Nat) r z, s.results[k]? = some (some r) →
          r.zone = some z → b ∉ z := by
  have hs := run_safe hw hsize hcounter h
  have hcount := hs.counted b
  constructor
  · intro hfree
    rw [hfree] at hcount
    unfold World.holders at hcount
    refine ⟨fun u hu => ?_, fun k r z hr hz hb => ?_⟩
    · have hzero : u.holds b = 0 := by
        rw [hu] at hcount
        change 0 = u.holds b + _ at hcount
        omega
      refine ⟨?_, fun hb => ?_⟩
      · rintro rfl
        exact Nat.ne_of_gt (holds_buffer u) hzero
      · exact Nat.ne_of_gt (holds_zone hb) hzero
    · have hpos := count_zone hr hz hb
      omega
  · rintro ⟨hmpac, hresults⟩
    have hzones : (resultZones s.results).flatten.count b = 0 := by
      refine List.count_eq_zero.2 fun hb => ?_
      obtain ⟨z, hz, hbz⟩ := List.mem_flatten.1 hb
      obtain ⟨x, hx, hxz⟩ := List.mem_filterMap.1 hz
      obtain ⟨r, rfl, hrz⟩ := Option.bind_eq_some_iff.1 hxz
      obtain ⟨k, hk⟩ := List.mem_iff_getElem?.1 hx
      exact hresults k r z hk hrz hbz
    rw [hcount]
    unfold World.holders
    rw [hzones, Nat.add_zero]
    cases hu : s.mpac with
    | none => rfl
    | some u =>
        obtain ⟨hbuffer, hz⟩ := hmpac u hu
        show (if u.buffer = b then 1 else 0) + u.z.count b = 0
        rw [if_neg hbuffer, List.count_eq_zero.2 hz]

/-- It is in the buffer of the unpacker, and stays there without it. -/
theorem run_frees_str :
    ∃ s, Run 64 (refEnv fun _ => 0) 64 [0xa1, 0x61] [.str [0x61]] s
      ∧ s.mpac = none ∧ getCount s.heap 0 ≠ 0 := by
  obtain ⟨s, u, h, hu, -, hr⟩ := run_str
  refine ⟨s.destroyUnpacker u, .destroyUnpacker h hu, rfl, fun hfree => ?_⟩
  have hfrees := run_frees (by decide) (by decide) (by decide)
    (.destroyUnpacker h hu) 0
  exact (hfrees.1 hfree).2 0 _ _ hr rfl (List.mem_singleton_self 0)

/-- The bodies of a message that has its zone are in buffers that have not
been freed, within what is used of them, but for extensions of the greatest
size; and a message without such an extension is what it was when it was
delivered, whatever has been done since. -/
theorem run_reads (hw : 0 < w) (hsize : size < 2 ^ (w - 1))
    (hcounter : counterSize < 2 ^ (w - 1))
    (h : Run w env size fed out s) {k : Nat} {r : Unpacked} {z : Zone}
    (hr : s.results[k]? = some (some r)) (hz : r.zone = some z) :
    r.data.Every (Kept s.heap fun b => 0 < getCount s.heap b)
      ∧ (NoOverflow r.data → out[k]? = some (r.read s.heap)) := by
  have hs := run_safe hw hsize hcounter h
  refine ⟨(hs.kept k r z hr hz).mono fun o ho => ho.mono fun b hb => ?_,
    hs.read k r z hr hz⟩
  refine ⟨?_, List.prefix_refl _⟩
  have hpos := count_zone hr hz hb
  rw [hs.counted b]
  exact Nat.lt_of_lt_of_le hpos (Nat.le_add_left _ _)

/-- A string of one byte, read after the unpacker is gone. -/
theorem run_reads_str :
    ∃ s, Run 64 (refEnv fun _ => 0) 64 [0xa1, 0x61] [.str [0x61]] s
      ∧ s.mpac = none
      ∧ some (.str [0x61]) = some (Unpacked.read s.heap
        ⟨some [0], .str ⟨0, 5, 1⟩⟩) := by
  obtain ⟨s, u, h, hu, -, hr⟩ := run_str
  refine ⟨s.destroyUnpacker u, .destroyUnpacker h hu, rfl, ?_⟩
  refine (run_reads (by decide) (by decide) (by decide)
    (.destroyUnpacker h hu) hr rfl).2 ?_
  exact id

/-- A request for room gives it within the buffer, or says that it does not;
in both cases the bytes that have not been parsed are there as before. The
request is for less than half of the address space: behind it the size that
`msgpack_unpacker_expand_buffer` computes can wrap, and a request for
`SIZE_MAX` bytes is granted without the room. -/
theorem run_reserve (hw : 0 < w) (hsize : size < 2 ^ (w - 1))
    (hcounter : counterSize < 2 ^ (w - 1))
    (h : Run w env size fed out s) {u : Unpacker} (hu : s.mpac = some u)
    {malloc : Nat → Bool}
    (hmalloc : ∀ n, malloc n = true → n < 2 ^ (w - 1))
    {n : Nat} (hn : n < 2 ^ (w - 1)) (finalizer ok : Bool) (h' : Heap)
    (u' : Unpacker)
    (hr : msgpackUnpackerReserveBuffer w malloc finalizer s.heap u n
      = (ok, h', u')) :
    (ok = true → n ≤ u'.free)
      ∧ u'.used = counterSize + (dataOf h' u'.buffer).length
      ∧ u'.used + u'.free = sizeOf h' u'.buffer
      ∧ (dataOf h' u'.buffer).drop (u'.off - counterSize)
        = (dataOf s.heap u.buffer).drop (u.off - counterSize) := by
  have hs := run_safe hw hsize hcounter h
  have hreserved := reserveBuffer_reserved hw hmalloc hn finalizer
    (hs.holds_le hu) (hs.fits u hu)
  rw [hr] at hreserved
  exact ⟨hreserved.room, hreserved.fits.used, hreserved.fits.size,
    hreserved.rest⟩

/-- More room than a new unpacker has. -/
theorem run_reserve_init :
    ∃ ok h' u', msgpackUnpackerReserveBuffer 64
        (fun n => decide (n < 2 ^ 63)) true (World.init 8).heap
        (msgpackUnpackerInit [] 8).2 5 = (ok, h', u')
      ∧ (ok = true → 5 ≤ u'.free) := by
  refine ⟨_, _, _, rfl, ?_⟩
  exact (@run_reserve 64 8 (refEnv fun _ => 0) [] [] (.init 8) (by decide)
    (by decide) (by decide) .init _ rfl _
    (fun _ h => of_decide_eq_true h) 5 (by decide) true _ _ _ rfl).1

end Runs

end ProjectsLibs.Msgpack
