/-
What is fed is delivered: every message, in turn, once all of its bytes are
there, and no sooner.

# Shape of the argument

- A *place* is a position in all that has been fed; `placeOf` takes a
  reference to it, by the place where the buffer begins. `Unpacker.abs` is
  what `template_execute` starts from, with places for references.
- `Feeding`: a run from `abs` does what a run would that reads all of the
  message again. To make room changes buffers and positions, but not `abs`
  (`reserve_feeding`), and a run that ends for want of bytes has read the
  part of the message that is there (`execute_out`).
- `opening_complete` and `opening_incomplete` are about the run that reads
  all of the message, where the message is there or is not yet.

A place counts the bytes of the counter too, so that it is `counterSize`
for the first byte that is fed.
-/
import ProjectsLibs.Msgpack.Proofs.Safe
import ProjectsLibs.Msgpack.Proofs.Next

namespace ProjectsLibs.Msgpack

open Lib

-- ================================================================= places

/-- The bodies of objects are places with sizes. -/
def Env.atPlaces (env : Env Ref) : Env (Nat × Nat) :=
  { env with body := fun p n _ => (p, n) }

/-- The place of a reference. -/
def placeOf (base : Nat → Nat) (r : Ref) : Nat × Nat :=
  (base r.buffer + r.pos, r.size)

/-- What `template_execute` starts from, with `more` behind it. -/
def Unpacker.abs (base : Nat → Nat) (h : Heap) (u : Unpacker)
    (more : List UInt8) : Machine (Nat × Nat) :=
  (u.start h).via (placeOf base) (base u.buffer) more true

/-- A machine at the beginning of a message, `start` bytes behind the first
that is fed. -/
def opening {β : Type} (allocs start : Nat) (rest : List UInt8) :
    Machine β :=
  ⟨.header, [], allocs, true, start + counterSize, rest⟩

/-- The unpacker has read part of the message that begins at `start`. -/
structure Feeding (env : Env Ref) (fed : List UInt8) (start : Nat)
    (base : Nat → Nat) (h : Heap) (u : Unpacker) : Prop where
  tail : dataOf h u.buffer = fed.drop (base u.buffer)
  baseLe : base u.buffer ≤ fed.length
  others : ∀ b, dataOf h b <+: fed.drop (base b)
  startLe : start ≤ fed.length
  resume : ∃ allocs, ∀ more,
    templateExecute env.atPlaces
        (opening allocs start (fed.drop start ++ more))
      = templateExecute env.atPlaces (u.abs base h more)

-- ============================================================== more bytes

section Feed

variable {w : Nat} {env : Env Ref} {fed bytes : List UInt8} {start : Nat}
  {base base' : Nat → Nat} {h h' : Heap} {u u' : Unpacker}

/-- More bytes are fed. -/
theorem Feeding.feed (hf : Feeding env fed start base h u) (hu : Fits w h u)
    (hlt : u.buffer < h.length) :
    Feeding env (fed ++ bytes) start base
      (msgpackUnpackerBufferConsumed h u bytes).1
      (msgpackUnpackerBufferConsumed h u bytes).2 := by
  have hdata := bufferConsumed_data bytes hlt
  have htail : dataOf (msgpackUnpackerBufferConsumed h u bytes).1 u.buffer
      = (fed ++ bytes).drop (base u.buffer) := by
    rw [hdata, if_pos rfl, hf.tail, List.drop_append_of_le_length hf.baseLe]
  obtain ⟨allocs, hresume⟩ := hf.resume
  refine ⟨htail, ?_, fun b => ?_, ?_, allocs, fun more => ?_⟩
  · rw [List.length_append]
    exact Nat.le_add_right_of_le hf.baseLe
  · by_cases hb : b = u.buffer
    · rw [hb]
      exact htail ▸ List.prefix_refl _
    · rw [hdata, if_neg hb]
      refine (hf.others b).trans ?_
      rw [List.drop_append]
      exact List.prefix_append _ _
  · rw [List.length_append]
    exact Nat.le_add_right_of_le hf.startLe
  · rw [List.drop_append_of_le_length hf.startLe, List.append_assoc,
      hresume]
    have hused := hu.used
    have hoffLe := hu.offLe
    have hstart : (dataOf (msgpackUnpackerBufferConsumed h u bytes).1
        u.buffer).drop (u.off - counterSize)
        = (dataOf h u.buffer).drop (u.off - counterSize) ++ bytes := by
      rw [hdata, if_pos rfl, List.drop_append_of_le_length (by omega)]
    have hrest : (dataOf h u.buffer).drop (u.off - counterSize)
          ++ (bytes ++ more)
        = (dataOf (msgpackUnpackerBufferConsumed h u bytes).1
          u.buffer).drop (u.off - counterSize) ++ more := by
      rw [hstart, List.append_assoc]
    exact congrArg (fun rest => templateExecute env.atPlaces
      (Machine.mk u.ctx.control _ u.ctx.allocs _ _ rest)) hrest

/-- The unpacker has other buffers, but what it has read and what is before
it is the same. -/
theorem Feeding.moved (hf : Feeding env fed start base h u)
    (hu : Fits w h u) (hcontrol : u'.ctx.control = u.ctx.control)
    (hallocs : u'.ctx.allocs = u.ctx.allocs)
    (hstack : u'.ctx.stack = u.ctx.stack)
    (hbase : ∀ b, u.keeps b → base' b = base b)
    (hpos : u'.off + base' u'.buffer = u.off + base u.buffer)
    (hrest : (dataOf h' u'.buffer).drop (u'.off - counterSize)
      = (dataOf h u.buffer).drop (u.off - counterSize))
    (htail : dataOf h' u'.buffer = fed.drop (base' u'.buffer))
    (hbaseLe : base' u'.buffer ≤ fed.length)
    (hothers : ∀ b, dataOf h' b <+: fed.drop (base' b)) :
    Feeding env fed start base' h' u' := by
  obtain ⟨allocs, hresume⟩ := hf.resume
  refine ⟨htail, hbaseLe, hothers, hf.startLe, allocs, fun more => ?_⟩
  have hframes : u'.ctx.stack.map (Frame.mapBody (placeOf base'))
      = u.ctx.stack.map (Frame.mapBody (placeOf base)) := by
    rw [hstack]
    refine EveryFrame.map_congr (P := Kept h u.keeps) ?_ hu.refs
    intro o ho r hr
    unfold placeOf
    rw [hbase r.buffer (ho r hr).1]
  have habs : u'.abs base' h' more = u.abs base h more := by
    unfold Unpacker.abs Machine.via Unpacker.start
    dsimp only
    rw [hcontrol, hallocs, hframes, hpos, hrest, Bool.or_true, Bool.or_true]
  rw [habs]
  exact hresume more

end Feed

-- ================================================================ more room

section Reserve

variable {w : Nat} {env : Env Ref} {fed : List UInt8} {start : Nat}
  {base : Nat → Nat} {h : Heap} {u : Unpacker} {malloc : Nat → Bool}
  {size : Nat}

/-- A buffer of its own is at another place. -/
def atPlace (base : Nat → Nat) (b place : Nat) (c : Nat) : Nat :=
  if c = b then place else base c

theorem atPlace_self (b place : Nat) : atPlace base b place b = place :=
  if_pos rfl

theorem atPlace_ne {b c place : Nat} (h : c ≠ b) :
    atPlace base b place c = base c :=
  if_neg h

/-- The bytes of other buffers, where a buffer is added. -/
theorem others_append {x : Buffer} {place : Nat} {h' : Heap}
    (hlen : h'.length = h.length) (hdata : ∀ b, dataOf h' b = dataOf h b)
    (hothers : ∀ b, dataOf h b <+: fed.drop (base b))
    (hx : x.data <+: fed.drop place) (b : Nat) :
    dataOf (h' ++ [x]) b <+: fed.drop (atPlace base h.length place b) := by
  rw [dataOf_append, hlen]
  by_cases hb : b = h.length
  · rw [if_pos hb, hb, atPlace_self]
    exact hx
  · rw [if_neg hb, atPlace_ne hb, hdata]
    exact hothers b

/-- Rewinding changes where the bytes lie, not which of them are still to
be parsed. -/
theorem rewind_feeding (hcount : ∀ b, u.holds b ≤ getCount h b)
    (hu : Fits w h u) (hf : Feeding env fed start base h u) :
    ∃ base', Feeding env fed start base' (rewind h u).1 (rewind h u).2 := by
  have hlt := buffer_lt hcount
  by_cases hrewind : mayRewind h u = true
  · obtain ⟨hoff, hone, href⟩ := mayRewind_iff.1 hrewind
    have hdata := rewind_data (u := u) hlt
    have heq : (rewind h u).2 = { u with
        free := u.free + (u.used - counterSize)
        used := counterSize
        off := counterSize } := by
      unfold rewind
      rw [if_pos hrewind]
    have hused := hu.used
    have hlen := congrArg List.length hf.tail
    rw [List.length_drop] at hlen
    have hbaseLe := hf.baseLe
    refine ⟨atPlace base u.buffer fed.length, ?_⟩
    have hnil : dataOf (rewind h u).1 u.buffer = [] := by
      rw [hdata, if_pos ⟨hrewind, rfl⟩]
    rw [heq]
    refine hf.moved hu rfl rfl rfl (fun b hb => atPlace_ne ?_) ?_ ?_ ?_ ?_
      fun b => ?_
    · rintro rfl
      rcases hb with hb | ⟨hflag, -⟩
      · exact notMem_of_one hcount hone hb
      · rw [href] at hflag
        cases hflag
    · show counterSize + atPlace base u.buffer fed.length u.buffer = _
      rw [atPlace_self]
      omega
    · show (dataOf (rewind h u).1 u.buffer).drop _ = _
      rw [hnil, List.drop_nil, List.drop_eq_nil_of_le (by omega)]
    · show dataOf (rewind h u).1 u.buffer
        = fed.drop (atPlace base u.buffer fed.length u.buffer)
      rw [hnil, atPlace_self, List.drop_length]
    · show atPlace base u.buffer fed.length u.buffer ≤ _
      rw [atPlace_self]
    · rw [hdata]
      by_cases hb : b = u.buffer
      · rw [if_pos ⟨hrewind, hb⟩]
        exact List.nil_prefix
      · rw [if_neg fun hboth => hb hboth.2, atPlace_ne hb]
        exact hf.others b
  · have hsame : rewind h u = (h, u) := by
      unfold rewind
      rw [if_neg hrewind]
    rw [hsame]
    exact ⟨base, hf⟩

theorem expandInPlace_feeding (hw : 0 < w)
    (hmalloc : ∀ n, malloc n = true → n < 2 ^ (w - 1))
    (hsize : size < 2 ^ (w - 1))
    (hcount : ∀ b, u.holds b ≤ getCount h b) (hu : Fits w h u)
    (hf : Feeding env fed start base h u) :
    ∃ base', Feeding env fed start base'
      (expandInPlace w malloc h u size).2.1
      (expandInPlace w malloc h u size).2.2 := by
  have hpow : 2 ^ w = 2 * 2 ^ (w - 1) := by
    rw [← Nat.pow_succ', Nat.succ_eq_add_one, Nat.sub_add_cancel hw]
  have hlimit := hu.limit
  have hused := hu.used
  have hge := growSize_ge w ((size + u.used) % 2 ^ w)
    ((u.used + u.free) * 2 % 2 ^ w)
  unfold expandInPlace
  dsimp only
  generalize growSize w ((size + u.used) % 2 ^ w)
    ((u.used + u.free) * 2 % 2 ^ w) = nextSize at hge ⊢
  by_cases hgranted : malloc nextSize = true
  · have hnext := hmalloc _ hgranted
    obtain ⟨hroom, -⟩ := grown_sub hw (by omega) hnext hge
    have hdata : (dataOf h u.buffer).take (nextSize - counterSize)
        = dataOf h u.buffer :=
      List.take_of_length_le (by omega)
    have hlen : (freeBuffer h u.buffer).length = h.length :=
      List.length_modify _ _ _
    rw [if_pos hgranted, hdata]
    refine ⟨atPlace base h.length (base u.buffer), ?_⟩
    have hnew : ∀ n c, dataOf (freeBuffer h u.buffer
        ++ [⟨c, n, dataOf h u.buffer⟩]) h.length = dataOf h u.buffer := by
      intro n c
      rw [dataOf_append, hlen, if_pos rfl]
    refine hf.moved hu rfl rfl rfl (fun b hb => atPlace_ne ?_) ?_ ?_ ?_ ?_
      (others_append hlen (fun _ => dataOf_free) hf.others ?_)
    · exact Nat.ne_of_lt (keeps_lt hcount hb)
    · show u.off + atPlace base h.length (base u.buffer) h.length = _
      rw [atPlace_self]
    · show (dataOf _ h.length).drop _ = _
      rw [hnew]
    · show dataOf _ h.length
        = fed.drop (atPlace base h.length (base u.buffer) h.length)
      rw [hnew, atPlace_self]
      exact hf.tail
    · show atPlace base h.length (base u.buffer) h.length ≤ _
      rw [atPlace_self]
      exact hf.baseLe
    · exact hf.others u.buffer
  · rw [if_neg hgranted]
    exact ⟨base, hf⟩

theorem expandInNew_feeding (finalizer : Bool)
    (hcount : ∀ b, u.holds b ≤ getCount h b) (hu : Fits w h u)
    (hf : Feeding env fed start base h u) :
    ∃ base', Feeding env fed start base'
      (expandInNew w malloc finalizer h u size).2.1
      (expandInNew w malloc finalizer h u size).2.2 := by
  have hused := hu.used
  have hoffGe := hu.offGe
  have hoffLe := hu.offLe
  have hlt := buffer_lt hcount
  have hlen := congrArg List.length hf.tail
  rw [List.length_drop] at hlen
  have hbaseLe := hf.baseLe
  unfold expandInNew
  dsimp only
  generalize growSize w ((size + (u.used - u.off) + counterSize) % 2 ^ w)
    u.initialBufferSize = nextSize
  -- The bytes that have not been parsed are at the place of the new buffer.
  have hplace : (dataOf h u.buffer).drop (u.off - counterSize)
      = fed.drop (base u.buffer + (u.off - counterSize)) := by
    rw [hf.tail, List.drop_drop]
  have hmoved : ∀ (h' : Heap) (x : Buffer) (u' : Unpacker),
      h'.length = h.length → (∀ b, dataOf h' b = dataOf h b) →
      x.data = (dataOf h u.buffer).drop (u.off - counterSize) →
      u'.ctx.control = u.ctx.control → u'.ctx.allocs = u.ctx.allocs →
      u'.ctx.stack = u.ctx.stack → u'.buffer = h.length →
      u'.off = counterSize →
      Feeding env fed start
        (atPlace base h.length (base u.buffer + (u.off - counterSize)))
        (h' ++ [x]) u' := by
    intro h' x u' hlen' hdata hx hcontrol hallocs hstack hbuffer hoff
    have hnew : dataOf (h' ++ [x]) h.length
        = (dataOf h u.buffer).drop (u.off - counterSize) := by
      rw [dataOf_append, hlen', if_pos rfl, hx]
    refine hf.moved hu hcontrol hallocs hstack
      (fun b hb => atPlace_ne (Nat.ne_of_lt (keeps_lt hcount hb))) ?_ ?_ ?_ ?_
      (others_append hlen' hdata hf.others ?_)
    · rw [hbuffer, hoff, atPlace_self]
      omega
    · rw [hbuffer, hoff, hnew, Nat.sub_self]
      rfl
    · rw [hbuffer, hnew, atPlace_self]
      exact hplace
    · rw [hbuffer, atPlace_self]
      omega
    · rw [hx, hplace]
  by_cases hgranted : malloc nextSize = true
  · rw [if_pos hgranted]
    cases href : u.ctx.referenced with
    | true =>
        rw [if_pos rfl]
        cases finalizer with
        | true =>
            rw [if_pos rfl]
            exact ⟨_, hmoved h _ _ rfl (fun _ => rfl) rfl rfl rfl rfl rfl
              rfl⟩
        | false =>
            rw [if_neg (by decide)]
            have hne : u.buffer ≠ h.length := Nat.ne_of_lt hlt
            refine ⟨atPlace base h.length
              (base u.buffer + (u.off - counterSize)), ?_⟩
            have hold : ∀ x, dataOf (h ++ [x]) u.buffer
                = dataOf h u.buffer := fun x => by
              rw [dataOf_append, if_neg hne]
            refine hf.moved hu rfl rfl rfl
              (fun b hb => atPlace_ne (Nat.ne_of_lt (keeps_lt hcount hb)))
              ?_ ?_ ?_ ?_
              (others_append rfl (fun _ => rfl) hf.others (by rw [hplace]))
            · rw [atPlace_ne hne]
            · rw [hold]
            · rw [hold, atPlace_ne hne]
              exact hf.tail
            · rw [atPlace_ne hne]
              exact hf.baseLe
    | false =>
        rw [if_neg (by decide)]
        exact ⟨_, hmoved _ _ _ length_decr (fun _ => dataOf_decr) rfl rfl rfl
          rfl rfl rfl⟩
  · rw [if_neg hgranted]
    exact ⟨base, hf⟩

/-- More room does not change what is read. -/
theorem reserve_feeding (hw : 0 < w)
    (hmalloc : ∀ n, malloc n = true → n < 2 ^ (w - 1))
    (hsize : size < 2 ^ (w - 1)) (finalizer : Bool)
    (hcount : ∀ b, u.holds b ≤ getCount h b) (hu : Fits w h u)
    (hf : Feeding env fed start base h u) :
    ∃ base', Feeding env fed start base'
      (msgpackUnpackerReserveBuffer w malloc finalizer h u size).2.1
      (msgpackUnpackerReserveBuffer w malloc finalizer h u size).2.2 := by
  have hcount' : ∀ b, (rewind h u).2.holds b
      ≤ getCount (rewind h u).1 b := by
    intro b
    rw [rewind_holds, rewind_counts]
    exact hcount b
  have hfits := rewind_fits hcount hu
  obtain ⟨base', hfirst⟩ := rewind_feeding hcount hu hf
  unfold msgpackUnpackerReserveBuffer
  split
  · exact ⟨base, hf⟩
  · unfold msgpackUnpackerExpandBuffer
    dsimp only
    split
    · exact ⟨base', hfirst⟩
    · split
      · exact expandInPlace_feeding hw hmalloc hsize hcount' hfits hfirst
      · exact expandInNew_feeding finalizer hcount' hfits hfirst

end Reserve

-- ============================================================= one message

/-- `n` bytes: those of `bytes`, and zeros behind them. -/
def padded (n : Nat) (bytes : List UInt8) : List UInt8 :=
  bytes.take n ++ List.replicate (n - bytes.length) 0

/-- The bytes at a place. -/
def bytesAt (fed : List UInt8) (x : Nat × Nat) : List UInt8 :=
  padded x.2 (fed.drop (x.1 - counterSize))

/-- The bodies are as many bytes as they say. -/
def Env.ofBytes (env : Env Ref) : Env (List UInt8) :=
  { env with body := fun _ n bytes => padded n bytes }

section Opening

variable {env : Env Ref} {fed bytes post missing : List UInt8}
  {start allocs : Nat} {o : Value}

/-- Padding makes the bytes as many as asked for. -/
theorem length_padded (n : Nat) (bytes : List UInt8) :
    (padded n bytes).length = n := by
  unfold padded
  rw [List.length_append, List.length_take, List.length_replicate]
  omega

/-- Enough bytes are cut off rather than padded. -/
theorem padded_of_le {n : Nat} (h : n ≤ bytes.length) :
    padded n bytes = bytes.take n := by
  unfold padded
  rw [Nat.sub_eq_zero_of_le h, List.replicate_zero, List.append_nil]

/-- The run that reads all of a message, which is there. -/
theorem opening_complete (allocs : Nat) (hgrants : env.Grants)
    (h : Wire env.toDouble o bytes)
    (hdepth : o.depth ≤ msgpackEmbedStackSize)
    (hfed : fed.drop start = bytes ++ post) :
    ∃ w m', templateExecute env.atPlaces
        (opening allocs start (fed.drop start)) = (.finish w, m')
      ∧ w.mapBody (bytesAt fed) = o
      ∧ m'.pos = start + counterSize + bytes.length := by
  have hcarries : Carries (bytesAt fed) 0 [] env.atPlaces env.ofBytes
      (opening allocs start (fed.drop start)) := by
    refine ⟨fun k n _ => ?_, rfl, rfl, rfl, rfl, rfl⟩
    show padded n (((fed.drop start).drop k) ++ [])
      = padded n (fed.drop (start + counterSize + k - counterSize))
    rw [List.append_nil, List.drop_drop,
      show start + counterSize + k - counterSize = start + k by omega]
  have hden : env.ofBytes.Denotes id := fun _ _ _ hn => padded_of_le hn
  have hrest : fed.drop start ++ [] = bytes ++ post := by
    rw [List.append_nil, hfed]
  obtain ⟨o', ho', m₁, hpos, -, hrun⟩ := execute_one hden hgrants h
    (m := (opening allocs start (fed.drop start)).via (bytesAt fed) 0 []
      false) rfl hrest (by
      show 0 + o.depth ≤ _
      omega)
  rw [Object.mapBody_id] at ho'
  rw [pushes_one, execute_via false hcarries] at hrun
  revert hrun
  cases templateExecute env.atPlaces
      (opening allocs start (fed.drop start)) with
  | mk r m' =>
      intro hrun
      cases r with
      | finish w =>
          obtain ⟨hobj, hm⟩ := Prod.ext_iff.1 hrun
          refine ⟨w, m', rfl, ?_, ?_⟩
          · rw [← ho']
            exact Ret.finish.inj hobj
          · exact (congrArg Machine.pos hm).trans hpos
      | out => cases (Prod.ext_iff.1 hrun).1
      | failed => cases (Prod.ext_iff.1 hrun).1

/-- The run that reads all of a message, of which bytes are missing. -/
theorem opening_incomplete (hgrants : env.Grants)
    (h : Wire env.toDouble o bytes)
    (hdepth : o.depth ≤ msgpackEmbedStackSize)
    (hstart : start ≤ fed.length)
    (hbytes : bytes = fed.drop start ++ missing) (hmissing : missing ≠ []) :
    (templateExecute env.atPlaces
      (opening allocs start (fed.drop start))).1 = .out := by
  by_contra hdone
  have hcarries : Carries id 0 missing env.atPlaces env.atPlaces
      (opening allocs start (fed.drop start)) :=
    ⟨fun _ _ _ => rfl, rfl, rfl, rfl, rfl, rfl⟩
  have hall : (fed ++ missing).drop start = bytes ++ [] := by
    rw [List.drop_append_of_le_length hstart, List.append_nil, hbytes]
  obtain ⟨w, m', hrun, -, hpos⟩ :=
    opening_complete allocs hgrants h hdepth hall
  rw [List.drop_append_of_le_length hstart] at hrun
  have hsame := (execute_via_more false hcarries).2 hdone
  have hrun' := hrun.symm.trans hsame
  obtain ⟨k, hk, -, hle⟩ := execute_at env.atPlaces
    (opening allocs start (fed.drop start))
  have hend := congrArg (fun r => r.2.pos) hrun'
  have hlen := List.length_pos_iff.2 hmissing
  have hall' := congrArg List.length hbytes
  rw [List.length_append] at hall'
  change m'.pos = (templateExecute env.atPlaces
    (opening allocs start (fed.drop start))).2.pos at hend
  change _ = start + counterSize + k at hk
  change k ≤ (fed.drop start).length at hle
  omega

/-- Without a byte the parser asks for more. -/
theorem opening_nil {β : Type} (env : Env β) :
    (templateExecute env (opening allocs start [])).1 = .out := by
  rw [execute_eq, step_nil rfl]
  rfl

end Opening

-- =============================================================== execution

section Execute

variable {w : Nat} {env : Env Ref} {fed bytes post missing : List UInt8}
  {start : Nat} {base : Nat → Nat} {h h' : Heap} {u u' : Unpacker}
  {o : Value}

/-- The run in memory is the one over the whole stream, with other places
for the bodies. -/
theorem abs_carries (base : Nat → Nat) (h : Heap) (u : Unpacker)
    (more : List UInt8) :
    Carries (placeOf base) (base u.buffer) more (env.within u.buffer)
      env.atPlaces (u.start h) := by
  refine ⟨fun k n _ => ?_, rfl, rfl, rfl, rfl, rfl⟩
  show (u.off + k + base u.buffer, n) = (base u.buffer + (u.off + k), n)
  rw [Nat.add_comm]

/-- Where a run ends, the unpacker goes on. -/
theorem execute_start (env : Env Ref) (hu : Fits w h u) :
    (msgpackUnpackerExecute env h u).2.start h
      = (templateExecute (env.within u.buffer) (u.start h)).2 := by
  have hoffGe := hu.offGe
  obtain ⟨k, hpos, hrest, -⟩ :=
    execute_at (env.within u.buffer) (u.start h)
  unfold msgpackUnpackerExecute
  generalize templateExecute (env.within u.buffer) (u.start h) = r
    at hpos hrest ⊢
  obtain ⟨r, m⟩ := r
  change m.pos = u.off + k at hpos
  change m.rest = ((dataOf h u.buffer).drop (u.off - counterSize)).drop k
    at hrest
  show Machine.mk m.control m.stack m.allocs m.referenced m.pos
    ((dataOf h u.buffer).drop (m.pos - counterSize)) = m
  have hsame : (dataOf h u.buffer).drop (m.pos - counterSize) = m.rest := by
    rw [hrest, List.drop_drop, hpos]
    congr 1
    omega
  rw [hsame]

/-- What a run from the beginning of the message gives is what the unpacker
gives. -/
theorem Feeding.execute (hf : Feeding env fed start base h u) :
    ∃ allocs, templateExecute env.atPlaces
        (opening allocs start (fed.drop start))
      = ((msgpackUnpackerExecute env h u).1.mapBody (placeOf base),
        (msgpackUnpackerExecute env h u).2.ctx.via (placeOf base)
          (base u.buffer) [] true) := by
  obtain ⟨allocs, hresume⟩ := hf.resume
  have hrun := hresume []
  rw [List.append_nil] at hrun
  exact ⟨allocs, hrun.trans (execute_via true (abs_carries base h u []))⟩

/-- A run that ends for want of bytes. -/
theorem Feeding.execute_out (hf : Feeding env fed start base h u)
    (hu : Fits w h u)
    (hout : (msgpackUnpackerExecute env h u).1 = .out) :
    Feeding env fed start base h (msgpackUnpackerExecute env h u).2 := by
  obtain ⟨allocs, hresume⟩ := hf.resume
  refine ⟨hf.tail, hf.baseLe, hf.others, hf.startLe, allocs,
    fun more => ?_⟩
  rw [hresume more]
  unfold Unpacker.abs
  rw [execute_start env hu]
  exact (execute_via_more true (abs_carries base h u more)).1 hout

/-- The counters are of no account to what is read. -/
theorem Feeding.same_data (hf : Feeding env fed start base h u)
    (hdata : ∀ b, dataOf h' b = dataOf h b) :
    Feeding env fed start base h' u := by
  obtain ⟨allocs, hresume⟩ := hf.resume
  refine ⟨by rw [hdata]; exact hf.tail, hf.baseLe,
    fun b => by rw [hdata]; exact hf.others b, hf.startLe, allocs,
    fun more => ?_⟩
  have hstart : u.start h' = u.start h := by
    unfold Unpacker.start
    rw [hdata]
  unfold Unpacker.abs
  rw [hstart]
  exact hresume more

/-- A message that is there is read. -/
theorem Feeding.finish (hf : Feeding env fed start base h u)
    (hgrants : env.Grants) (h₁ : Wire env.toDouble o bytes)
    (hdepth : o.depth ≤ msgpackEmbedStackSize)
    (hfed : fed.drop start = bytes ++ post) :
    ∃ obj, (msgpackUnpackerExecute env h u).1 = .finish obj
      ∧ obj.mapBody (bytesAt fed ∘ placeOf base) = o
      ∧ (msgpackUnpackerExecute env h u).2.off + base u.buffer
        = start + counterSize + bytes.length := by
  obtain ⟨allocs, hexec⟩ := hf.execute
  obtain ⟨v, m', hrun, hv, hpos⟩ :=
    opening_complete allocs hgrants h₁ hdepth hfed
  have hboth := hrun.symm.trans hexec
  revert hboth
  cases hr : (msgpackUnpackerExecute env h u).1 with
  | finish obj =>
      intro hboth
      obtain ⟨hobj, hm⟩ := Prod.ext_iff.1 hboth
      refine ⟨obj, rfl, ?_, ?_⟩
      · rw [← Object.mapBody_mapBody, ← hv]
        exact congrArg _ (Ret.finish.inj hobj).symm
      · exact (congrArg Machine.pos hm).symm.trans hpos
  | out => exact fun hboth => nomatch (Prod.ext_iff.1 hboth).1
  | failed => exact fun hboth => nomatch (Prod.ext_iff.1 hboth).1

/-- The unpacker wants bytes where the run from the beginning does. -/
theorem Feeding.out (hf : Feeding env fed start base h u)
    (hopening : ∀ allocs, (templateExecute env.atPlaces
      (opening allocs start (fed.drop start))).1 = .out) :
    (msgpackUnpackerExecute env h u).1 = .out := by
  obtain ⟨allocs, hexec⟩ := hf.execute
  have hout := hopening allocs
  rw [hexec] at hout
  revert hout
  cases (msgpackUnpackerExecute env h u).1 with
  | finish obj => exact nofun
  | out => exact fun _ => rfl
  | failed => exact nofun

/-- The next message begins where the unpacker is. -/
theorem Feeding.opened (hf : Feeding env fed start base h u)
    {start' : Nat} (hbuffer : u'.buffer = u.buffer)
    (hdata : ∀ b, dataOf h' b = dataOf h b)
    (hcontrol : u'.ctx.control = .header) (hstack : u'.ctx.stack = [])
    (hoffGe : counterSize ≤ u'.off)
    (hpos : u'.off + base u.buffer = start' + counterSize)
    (hstart : start' ≤ fed.length) :
    Feeding env fed start' base h' u' := by
  have htail : dataOf h' u'.buffer = fed.drop (base u'.buffer) := by
    rw [hdata, hbuffer, hf.tail]
  have hbaseLe := hf.baseLe
  refine ⟨htail, by rw [hbuffer]; exact hbaseLe,
    fun b => by rw [hdata]; exact hf.others b, hstart, u'.ctx.allocs,
    fun more => ?_⟩
  have hrest : (dataOf h' u'.buffer).drop (u'.off - counterSize)
      = fed.drop start' := by
    rw [htail, List.drop_drop, hbuffer]
    congr 1
    omega
  have habs : u'.abs base h' more
      = opening u'.ctx.allocs start' (fed.drop start' ++ more) := by
    unfold Unpacker.abs Machine.via Unpacker.start
    dsimp only
    rw [hcontrol, hstack, hrest, Bool.or_true, hbuffer, hpos]
    rfl
  rw [habs]

end Execute

-- ============================================================== the message

section Message

variable {fed : List UInt8} {base : Nat → Nat} {h h' : Heap} {o : Value}

/-- What is known of an object with other bodies is known of the object. -/
theorem every_of_mapBody {β γ : Type} {f : β → γ}
    {P : Object γ → Prop} {x : Object β} (hx : (x.mapBody f).Every P) :
    x.Every fun x => P (x.mapBody f) := by
  induction x using Object.induct with
  | array items ih =>
      rw [Object.mapBody, Object.mapItems_eq] at hx
      refine ⟨?_, (Object.everyItem_iff items).2 fun y hy => ?_⟩
      · show P (.array (Object.mapItems f items))
        rw [Object.mapItems_eq]
        exact hx.1
      · exact ih y hy ((Object.everyItem_iff _).1 hx.2 _
          (List.mem_map_of_mem hy))
  | map kvs ih =>
      rw [Object.mapBody, Object.mapKvs_eq] at hx
      refine ⟨?_, (Object.everyKv_iff kvs).2 fun kv hkv => ?_⟩
      · show P (.map (Object.mapKvs f kvs))
        rw [Object.mapKvs_eq]
        exact hx.1
      · have hboth := (Object.everyKv_iff _).1 hx.2 _
          (List.mem_map_of_mem hkv)
        exact ⟨(ih kv hkv).1 hboth.1, (ih kv hkv).2 hboth.2⟩
  | _ => exact hx

/-- A body whose bytes are those at its place. -/
theorem readRef_bytesAt {r : Ref} (hpos : counterSize ≤ r.pos)
    (hin : r.pos + r.size ≤ counterSize + (dataOf h r.buffer).length)
    (hother : dataOf h r.buffer <+: fed.drop (base r.buffer)) :
    readRef h r = bytesAt fed (placeOf base r) := by
  obtain ⟨more, hmore⟩ := hother
  have hdrop : fed.drop (base r.buffer + r.pos - counterSize)
      = (dataOf h r.buffer).drop (r.pos - counterSize) ++ more := by
    rw [Nat.add_sub_assoc hpos, ← List.drop_drop, ← hmore,
      List.drop_append_of_le_length (by omega)]
  have hle : r.size ≤ ((dataOf h r.buffer).drop
      (r.pos - counterSize)).length := by
    rw [List.length_drop]
    omega
  show ((dataOf h r.buffer).drop _).take r.size
    = padded r.size (fed.drop (base r.buffer + r.pos - counterSize))
  rw [hdrop, padded_of_le (by rw [List.length_append]; omega),
    List.take_append_of_le_length hle]

/-- A message is read as what it is at its places. -/
theorem read_places (keep : Nat → Prop) {obj : Object Ref}
    (hkept : obj.Every (Kept h keep))
    (hobj : obj.mapBody (bytesAt fed ∘ placeOf base) = o) (ho : Sized o)
    (hothers : ∀ b, dataOf h b <+: fed.drop (base b)) :
    obj.mapBody (readRef h) = o := by
  have hno : NoOverflow obj := by
    refine (every_of_mapBody (hobj ▸ ho)).mono fun x hx hover => ?_
    cases x with
    | ext type r =>
        have hsize : (bytesAt fed (placeOf base r)).length + 1 < 2 ^ 32 := hx
        have hmax : r.size = 2 ^ 32 - 1 := hover
        rw [show (bytesAt fed (placeOf base r)).length = r.size from
          length_padded _ _] at hsize
        omega
    | _ => exact hover.elim
  rw [← hobj]
  refine Object.mapBody_congr (P := fun x => Kept h keep x
    ∧ ¬ Overflows x) ?_ (hkept.and hno)
  rintro x ⟨hx, hover⟩ r hr
  obtain ⟨-, hpos, hin⟩ := hx r hr
  exact readRef_bytesAt hpos (hin.resolve_right hover) (hothers r.buffer)

end Message

-- ================================================================== runs

/-- All the bytes of the `k`-th message have been fed. -/
def Arrived (msgs : List (Value × List UInt8)) (fed : List UInt8)
    (k : Nat) : Prop :=
  k < msgs.length
    ∧ ((msgs.take (k + 1)).flatMap Prod.snd).length ≤ fed.length

instance {msgs : List (Value × List UInt8)} {fed : List UInt8} {k : Nat} :
    Decidable (Arrived msgs fed k) :=
  inferInstanceAs (Decidable (_ ∧ _))

/-- What has been delivered are the first of the messages, and the unpacker
is about to read the next one. -/
structure Delivering (env : Env Ref) (msgs : List (Value × List UInt8))
    (fed : List UInt8) (out : List Value) (s : World) : Prop where
  values : out <+: msgs.map Prod.fst
  feeding : ∀ u, s.mpac = some u → ∃ base, Feeding env fed
    ((msgs.take out.length).flatMap Prod.snd).length base s.heap u

section Runs

variable {w size : Nat} {env : Env Ref} {fed bytes : List UInt8}
  {out : List Value} {s : World} {u : Unpacker}
  {msgs : List (Value × List UInt8)}

/-- Messages that can be delivered: bytes of the format, of objects that are
nested no deeper than the parse stack. -/
def Deliverable (env : Env Ref) (msgs : List (Value × List UInt8)) : Prop :=
  ∀ msg ∈ msgs, Wire env.toDouble msg.1 msg.2
    ∧ msg.1.depth ≤ msgpackEmbedStackSize

/-- The bytes before a message, its own, and those behind. -/
theorem flatMap_split {k : Nat} (hk : k < msgs.length) :
    msgs.flatMap Prod.snd = (msgs.take k).flatMap Prod.snd
      ++ (msgs[k].2 ++ (msgs.drop (k + 1)).flatMap Prod.snd) := by
  conv_lhs => rw [← List.take_append_drop k msgs,
    List.drop_eq_getElem_cons hk]
  rw [List.flatMap_append, List.flatMap_cons]

/-- One more message is one more piece of the stream. -/
theorem flatMap_take_succ {k : Nat} (hk : k < msgs.length) :
    (msgs.take (k + 1)).flatMap Prod.snd
      = (msgs.take k).flatMap Prod.snd ++ msgs[k].2 := by
  rw [List.take_succ_eq_append_getElem hk, List.flatMap_append]
  simp

/-- What has been fed of a message that has arrived. -/
theorem drop_of_arrived {k : Nat} (hfed : fed <+: msgs.flatMap Prod.snd)
    (hk : k < msgs.length) (harrived : Arrived msgs fed k) :
    ∃ post, fed.drop ((msgs.take k).flatMap Prod.snd).length
      = msgs[k].2 ++ post := by
  have hle := harrived.2
  have hpre : (msgs.take (k + 1)).flatMap Prod.snd <+: fed := by
    refine List.prefix_of_prefix_length_le ?_ hfed hle
    rw [flatMap_split hk, flatMap_take_succ hk, ← List.append_assoc]
    exact List.prefix_append _ _
  obtain ⟨post, hpost⟩ := hpre
  refine ⟨post, ?_⟩
  rw [← hpost, flatMap_take_succ hk, List.append_assoc, List.drop_left]

/-- What has been fed of a message that has not arrived. -/
theorem drop_of_not_arrived {k : Nat}
    (hfed : fed <+: msgs.flatMap Prod.snd) (hk : k < msgs.length)
    (hstart : ((msgs.take k).flatMap Prod.snd).length ≤ fed.length)
    (harrived : ¬ Arrived msgs fed k) :
    ∃ missing, msgs[k].2
        = fed.drop ((msgs.take k).flatMap Prod.snd).length ++ missing
      ∧ missing ≠ [] := by
  have hgt : fed.length < ((msgs.take (k + 1)).flatMap Prod.snd).length := by
    by_contra hle
    exact harrived ⟨hk, Nat.not_lt.1 hle⟩
  have hpre : fed <+: (msgs.take (k + 1)).flatMap Prod.snd := by
    refine List.prefix_of_prefix_length_le hfed ?_ (Nat.le_of_lt hgt)
    rw [flatMap_split hk, flatMap_take_succ hk, ← List.append_assoc]
    exact List.prefix_append _ _
  obtain ⟨missing, hmissing⟩ := hpre
  refine ⟨missing, ?_, ?_⟩
  · have hdrop := congrArg
      (List.drop ((msgs.take k).flatMap Prod.snd).length) hmissing
    rw [flatMap_take_succ hk, List.drop_left,
      List.drop_append_of_le_length hstart] at hdrop
    exact hdrop.symm
  · rintro rfl
    rw [List.append_nil] at hmissing
    rw [hmissing] at hgt
    exact Nat.lt_irrefl _ hgt

/-- What `msgpack_unpacker_next` gives where a message is to be read. -/
structure NextIs (env : Env Ref) (msgs : List (Value × List UInt8))
    (fed : List UInt8) (out : List Value)
    (r : UnpackReturn × Option Unpacked × World) : Prop where
  code : r.1
    = if Arrived msgs fed out.length then .success else .continue
  delivering : Delivering env msgs fed
    (out ++ (r.2.1.map (Unpacked.read r.2.2.heap)).toList) r.2.2

/-- Nothing is delivered where bytes are missing. -/
theorem next_out {finalizer zoneNew : Bool} {k : Nat}
    (hs : Safe w out s) (hu : s.mpac = some u)
    (hd : Delivering env msgs fed out s)
    (harrived : ¬ Arrived msgs fed out.length)
    (hout : (msgpackUnpackerExecute env (s.destroyResult k).heap u).1
      = .out) :
    NextIs env msgs fed out (s.next env finalizer zoneNew k u) := by
  obtain ⟨base, hf⟩ := hd.feeding u hu
  have hs₁ := hs.destroyResult k
  have hfits := hs₁.fits u hu
  have hf₁ : Feeding env fed _ base (s.destroyResult k).heap u :=
    hf.same_data fun b => dataOf_destroy _ b
  have hnext : s.next env finalizer zoneNew k u
      = (.continue, none, (s.destroyResult k).withUnpacker
        ((s.destroyResult k).heap,
          (msgpackUnpackerExecute env (s.destroyResult k).heap u).2)) := by
    unfold World.next msgpackUnpackerNext
    dsimp only
    rw [show msgpackUnpackedDestroy (s.zoneAt k) s.heap
      = (s.destroyResult k).heap from rfl, hout]
    simp [World.withUnpacker, World.destroyResult]
  rw [hnext]
  refine ⟨(if_neg harrived).symm, ?_⟩
  rw [Option.map_none, Option.toList_none, List.append_nil]
  refine ⟨hd.values, ?_⟩
  rintro u' ⟨⟩
  exact ⟨base, hf₁.execute_out hfits hout⟩

/-- What `msgpack_unpacker_release_zone` leaves alone. -/
theorem releaseZone_same (finalizer zoneNew : Bool) (h : Heap)
    (u : Unpacker) :
    (∀ b, dataOf (msgpackUnpackerReleaseZone finalizer zoneNew h u).2.1 b
        = dataOf h b)
      ∧ (msgpackUnpackerReleaseZone finalizer zoneNew h u).2.2.buffer
        = u.buffer
      ∧ (msgpackUnpackerReleaseZone finalizer zoneNew h u).2.2.off
        = u.off := by
  have hflush : (∀ b, dataOf (msgpackUnpackerFlushZone finalizer h u).2.1 b
        = dataOf h b)
      ∧ (msgpackUnpackerFlushZone finalizer h u).2.2.buffer = u.buffer
      ∧ (msgpackUnpackerFlushZone finalizer h u).2.2.off = u.off := by
    unfold msgpackUnpackerFlushZone
    split
    · split
      · exact ⟨fun _ => dataOf_incr, rfl, rfl⟩
      · exact ⟨fun _ => rfl, rfl, rfl⟩
    · exact ⟨fun _ => rfl, rfl, rfl⟩
  unfold msgpackUnpackerReleaseZone
  dsimp only
  split
  · exact hflush
  · split
    · exact hflush
    · exact hflush

/-- The message that is there is delivered. -/
theorem next_finish {finalizer zoneNew : Bool} {k : Nat}
    (hgrants : env.Grants) (hmsgs : Deliverable env msgs)
    (hfed : fed <+: msgs.flatMap Prod.snd)
    (hs : Safe w out s) (hu : s.mpac = some u)
    (hd : Delivering env msgs fed out s)
    (harrived : Arrived msgs fed out.length) :
    NextIs env msgs fed out (s.next env finalizer zoneNew k u) := by
  obtain ⟨base, hf⟩ := hd.feeding u hu
  have hs₁ := hs.destroyResult k
  have hlt := harrived.1
  have hf₁ : Feeding env fed _ base (s.destroyResult k).heap u :=
    hf.same_data fun b => dataOf_destroy _ b
  obtain ⟨post, hpost⟩ := drop_of_arrived hfed hlt harrived
  obtain ⟨hwire, hdepth⟩ := hmsgs _ (List.getElem_mem hlt)
  obtain ⟨obj, hobj, hplaces, hpos⟩ :=
    hf₁.finish hgrants hwire hdepth hpost
  obtain ⟨hfits, hkept⟩ := execute_fits env (hs₁.fits u hu)
  have hoffGe := hfits.offGe
  unfold World.next msgpackUnpackerNext
  dsimp only
  rw [show msgpackUnpackedDestroy (s.zoneAt k) s.heap
    = (s.destroyResult k).heap from rfl]
  have hbuffer : (msgpackUnpackerExecute env
      (s.destroyResult k).heap u).2.buffer = u.buffer := rfl
  generalize msgpackUnpackerExecute env (s.destroyResult k).heap u = e
    at hobj hpos hkept hoffGe hbuffer ⊢
  obtain ⟨r, u₁⟩ := e
  obtain rfl : r = .finish obj := hobj
  have hsame := releaseZone_same finalizer zoneNew
    (s.destroyResult k).heap u₁
  dsimp only at hbuffer hpos hoffGe ⊢
  generalize msgpackUnpackerReleaseZone finalizer zoneNew
    (s.destroyResult k).heap u₁ = q at hsame ⊢
  obtain ⟨z, h₂, u₂⟩ := q
  obtain ⟨hdata, hbuffer₂, hoff₂⟩ := hsame
  dsimp only at hdata hbuffer₂ hoff₂ ⊢
  have hothers : ∀ b, dataOf h₂ b <+: fed.drop (base b) := fun b => by
    rw [hdata]
    exact hf₁.others b
  -- what is read through the references is the value that was encoded
  have hread : obj.mapBody (readRef h₂) = msgs[out.length].1 := by
    refine read_places u₁.keeps ?_ hplaces
      (sized_wires hwire _ (List.mem_singleton_self _)) hothers
    exact (hkept obj rfl).mono fun o ho => ho.mono fun b hb =>
      ⟨hb, by rw [hdata]⟩
  -- so the messages delivered are one more of those sent
  have hvalues : out ++ [msgs[out.length].1] <+: msgs.map Prod.fst := by
    obtain ⟨more, hmore⟩ := hd.values
    have hout : out = (msgs.map Prod.fst).take out.length := by
      rw [← hmore, List.take_left]
    have hnext : (msgs.map Prod.fst).take (out.length + 1)
        = out ++ [msgs[out.length].1] := by
      rw [List.take_succ_eq_append_getElem
        (by rw [List.length_map]; exact hlt), ← hout, List.getElem_map]
    rw [← hnext]
    exact List.take_prefix _ _
  refine ⟨(if_pos harrived).symm, ?_, ?_⟩
  · show out ++ [obj.mapBody (readRef h₂)] <+: _
    rw [hread]
    exact hvalues
  · rintro u' ⟨⟩
    refine ⟨base, ?_⟩
    show Feeding env fed ((msgs.take (out ++ [_]).length).flatMap
      Prod.snd).length base h₂ (msgpackUnpackerReset u₂)
    rw [List.length_append, List.length_singleton]
    refine hf₁.opened (hbuffer₂.trans hbuffer) hdata rfl rfl ?_ ?_
      harrived.2
    · show counterSize ≤ u₂.off
      rw [hoff₂]
      exact hoffGe
    · show u₂.off + base u.buffer = _
      rw [hoff₂, hpos, flatMap_take_succ hlt, List.length_append]
      omega

/-- `msgpack_unpacker_next`. -/
theorem next_delivers (finalizer zoneNew : Bool) (k : Nat)
    (hgrants : env.Grants) (hmsgs : Deliverable env msgs)
    (hfed : fed <+: msgs.flatMap Prod.snd)
    (hs : Safe w out s) (hu : s.mpac = some u)
    (hd : Delivering env msgs fed out s) :
    NextIs env msgs fed out (s.next env finalizer zoneNew k u) := by
  by_cases harrived : Arrived msgs fed out.length
  · exact next_finish hgrants hmsgs hfed hs hu hd harrived
  · refine next_out hs hu hd harrived ?_
    obtain ⟨base, hf⟩ := hd.feeding u hu
    have hf₁ : Feeding env fed _ base (s.destroyResult k).heap u :=
      hf.same_data fun b => dataOf_destroy _ b
    refine hf₁.out fun allocs => ?_
    by_cases hlt : out.length < msgs.length
    · obtain ⟨hwire, hdepth⟩ := hmsgs _ (List.getElem_mem hlt)
      obtain ⟨missing, hbytes, hmissing⟩ :=
        drop_of_not_arrived hfed hlt hf.startLe harrived
      exact opening_incomplete hgrants hwire hdepth hf.startLe hbytes
        hmissing
    · -- All the messages have been delivered.
      have hnil : fed.drop ((msgs.take out.length).flatMap
          Prod.snd).length = [] := by
        rw [List.take_of_length_le (Nat.not_lt.1 hlt)]
        exact List.drop_eq_nil_of_le hfed.length_le
      rw [hnil]
      exact opening_nil _

/-- Nothing was fed and nothing delivered yet. -/
theorem init_delivering :
    Delivering env msgs [] [] (.init size) := by
  refine ⟨List.nil_prefix, ?_⟩
  rintro u ⟨⟩
  refine ⟨fun _ => 0, rfl, Nat.zero_le _, fun b => ?_, Nat.le_refl _, 0,
    fun more => rfl⟩
  have hdata : dataOf (World.init size).heap b = [] := by
    refine (dataOf_append (h := []) (c := b)
      ⟨1, if size < counterSize then counterSize else size, []⟩).trans ?_
    split
    · rfl
    · rfl
  rw [hdata]
  exact List.nil_prefix

/-- What holds in every run in which the bytes of messages are fed. -/
theorem run_delivering (hw : 0 < w) (hsize : size < 2 ^ (w - 1))
    (hcounter : counterSize < 2 ^ (w - 1)) (hgrants : env.Grants)
    (hmsgs : Deliverable env msgs) (h : Run w env size fed out s)
    (hfed : fed <+: msgs.flatMap Prod.snd) :
    Delivering env msgs fed out s := by
  induction h with
  | init => exact init_delivering
  | reserve malloc finalizer n hrun hu hmalloc hn ih =>
      have hs := run_safe hw hsize hcounter hrun
      refine ⟨(ih hfed).values, ?_⟩
      rintro u' ⟨⟩
      obtain ⟨base, hf⟩ := (ih hfed).feeding _ hu
      exact reserve_feeding hw hmalloc hn finalizer (hs.holds_le hu)
        (hs.fits _ hu) hf
  | feed bytes hrun hu hfree ih =>
      have hs := run_safe hw hsize hcounter hrun
      have hd := ih ((List.prefix_append _ _).trans hfed)
      refine ⟨hd.values, ?_⟩
      rintro u' ⟨⟩
      obtain ⟨base, hf⟩ := hd.feeding _ hu
      exact ⟨base, hf.feed (hs.fits _ hu) (buffer_lt (hs.holds_le hu))⟩
  | next finalizer zoneNew k hrun hu ih =>
      have hs := run_safe hw hsize hcounter hrun
      exact (next_delivers finalizer zoneNew k hgrants hmsgs hfed hs hu
        (ih hfed)).delivering
  | destroyResult k hrun ih =>
      refine ⟨(ih hfed).values, fun u hu => ?_⟩
      obtain ⟨base, hf⟩ := (ih hfed).feeding u hu
      exact ⟨base, hf.same_data fun b => dataOf_destroy _ b⟩
  | destroyUnpacker hrun hu ih => exact ⟨(ih hfed).values, nofun⟩

/-- Of messages that are fed, in whatever pieces and with whatever is done
about room and about messages that were delivered before, the first ones
have been delivered, and the next one is delivered if and only if all of its
bytes are there. The memory for the objects themselves is granted
(`Env.Grants`): a failed allocation in a zone is a parse error. -/
theorem run_delivers (hw : 0 < w) (hsize : size < 2 ^ (w - 1))
    (hcounter : counterSize < 2 ^ (w - 1)) (hgrants : env.Grants)
    (hmsgs : Deliverable env msgs) (h : Run w env size fed out s)
    (hfed : fed <+: msgs.flatMap Prod.snd) :
    out <+: msgs.map Prod.fst
      ∧ ∀ u, s.mpac = some u → ∀ finalizer zoneNew k,
        (s.next env finalizer zoneNew k u).1
          = if Arrived msgs fed out.length then .success else .continue := by
  have hd := run_delivering hw hsize hcounter hgrants hmsgs h hfed
  refine ⟨hd.values, fun u hu finalizer zoneNew k => ?_⟩
  exact (next_delivers finalizer zoneNew k hgrants hmsgs hfed
    (run_safe hw hsize hcounter h) hu hd).code

/-- Half of the second message has been fed. -/
theorem run_delivers_half :
    ∃ s u, Run 64 (refEnv fun _ => 0) 8 [0xc0, 0xa1] [.nil] s
      ∧ s.mpac = some u
      ∧ (s.next (refEnv fun _ => 0) true true 0 u).1 = .continue := by
  have h : Run 64 (refEnv fun _ => 0) 8 [0xc0, 0xa1] [.nil] _ :=
    .next true true 0 (.feed [0xc0, 0xa1] .init rfl (by decide)) rfl
  refine ⟨_, _, h, rfl, ?_⟩
  have hmsgs : Deliverable (refEnv fun _ => 0)
      [(.nil, [0xc0]), (.str [0x61], [0xa1, 0x61])] := by
    refine List.forall_mem_cons.2 ⟨⟨.one .nil, by decide⟩, ?_⟩
    refine List.forall_mem_singleton.2 ⟨.one ?_, by decide⟩
    exact @Scalar.str _ true [0xa1] [0x61] (@Head.fix _ _ _ 1 (by decide))
  exact ((run_delivers (by decide) (by decide) (by decide) (fun _ _ => rfl)
    hmsgs h (by decide)).2 _ rfl true true 0).trans (if_neg (by decide))

end Runs

end ProjectsLibs.Msgpack
