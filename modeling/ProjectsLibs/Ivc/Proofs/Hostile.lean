/-
An endpoint is safe whatever its peer writes to the headers
(`hostile_peer`).

A check that passes has seen a number of frames between 1 and `nframes`,
or room for one, so there are frames at all, and the positions only move
then. They are compared with nothing in shared memory. That the reader
cannot go on for ever is the one statement that looks at the counters:
with a peer that leaves them alone each read uses up a frame.

# How a program against a peer is followed

A call is a program over memory in which the peer has a turn before each
access (Lib/Shared). Its rules are of the form: if this is known of the
memory before, then that of the result and of the memory behind. What is
known is the content of the cells that the peer leaves alone, which is
none for the safety statement and the two counters for the count of
reads. The calls are put together from these rules without a case split
over what the peer does.

Positions are in range by an invariant over the calls. An address is
computed with a product of 32 bits and added to a base of 64 bits; that
the product does not wrap is what `check_ivc_params` has tested.
-/
import ProjectsLibs.Ivc.Hostile
import ProjectsLibs.Ivc.Proofs.Direction

namespace ProjectsLibs.Ivc

open Lib

variable {A : UInt64 → Prop} {f : UInt64 → UInt32} {ivc : TegraIvc}

-- =============================================================== checks

/-- A number of frames between 1 and `nframes` was seen, with the
counters that are known. -/
def Unread (A : UInt64 → Prop) (f : UInt64 → UInt32) (ivc : TegraIvc)
    (ch : UInt64) : Prop :=
  ∃ w r, (A (wCountAddr ch) → w = f (wCountAddr ch))
    ∧ (A (rCountAddr ch) → r = f (rCountAddr ch))
    ∧ w - r ≤ ivc.nframes ∧ w ≠ r

/-- If a number of frames was seen, there are frames at all: with none of
them the counters would have had to agree. -/
theorem Unread.pos {ch : UInt64} (h : Unread A f ivc ch) :
    0 < ivc.nframes.toNat := by
  obtain ⟨w, r, -, -, hle, hne⟩ := h
  rw [UInt32.le_iff_toNat_le] at hle
  apply Nat.pos_of_ne_zero
  intro hzero
  rw [hzero, Nat.le_zero] at hle
  have hsub : w - r = 0 := UInt32.toNat_inj.1 hle
  exact hne (by grind)

/-- The test loads two counters, and the peer may have its turn between the
loads; what is known of either is known behind the test too. -/
theorem channelEmpty_ensures (ivc : TegraIvc) (ch : UInt64) :
    Ensures (Knows A f) (channelEmpty ivc ch) fun b w =>
      (b = false → Unread A f ivc ch) ∧ Knows A f w := by
  refine (ensures_load _).bind fun w => .assume fun hw => ?_
  refine (ensures_load _).bind fun r => .assume fun hr => ?_
  refine .pure fun _ hk => ⟨?_, hk⟩
  intro hb
  unfold tegraIvcChannelEmpty snapshot at hb
  split at hb
  · cases hb
  · rename_i hle
    exact ⟨w, r, hw, hr, UInt32.not_lt.1 hle, by simpa using hb⟩

/-- If the test sees room, then there are frames. -/
theorem channelFull_ensures (ivc : TegraIvc) (ch : UInt64) :
    Ensures (Knows A f) (channelFull ivc ch) fun b w =>
      (b = false → 0 < ivc.nframes.toNat) ∧ Knows A f w := by
  refine (ensures_load _).bind fun w => .assume fun _ => ?_
  refine (ensures_load _).bind fun r => .assume fun _ => ?_
  refine .pure fun _ hk => ⟨?_, hk⟩
  intro hb
  unfold tegraIvcChannelFull at hb
  rw [decide_eq_false_iff_not, UInt32.not_le, UInt32.lt_iff_toNat_lt] at hb
  exact Nat.lt_of_le_of_lt (Nat.zero_le _) hb

/-- The count of available frames is only reported, so nothing is said of
its value. -/
theorem availCount_ensures (ch : UInt64) :
    Ensures (Knows A f) (channelAvailCount ch) fun _ w => Knows A f w := by
  refine (ensures_load _).bind fun _ => .assume fun _ => ?_
  refine (ensures_load _).bind fun _ => .assume fun _ => ?_
  exact .pure fun _ hk => hk

/-- A check that passes has seen that there is something to do. -/
theorem check_ensures {p : Prop} {nothing : Access Bool}
    (h : Ensures (Knows A f) nothing fun b w =>
      (b = false → p) ∧ Knows A f w) :
    Ensures (Knows A f) (check ivc nothing) fun r w =>
      (r = .ok () → p) ∧ Knows A f w := by
  refine (ensures_load _).bind fun state => .assume fun _ => ?_
  refine .ite (fun _ => .pure fun _ hk => ⟨nofun, hk⟩) fun _ => ?_
  refine h.bind fun b => .assume fun hb => ?_
  refine .ite (fun hfalse => .pure fun _ hk => ⟨fun _ => hb hfalse, hk⟩)
    fun _ => ?_
  refine h.bind fun b => .assume fun hb => .pure fun _ hk => ⟨?_, hk⟩
  intro hr
  cases b with
  | false => exact hb rfl
  | true => cases hr

-- ============================================================ positions

/-- The positions are those of frames, or 0 if there are none. -/
def TegraIvc.InRange (ivc : TegraIvc) : Prop :=
  ivc.rPos.toNat < max ivc.nframes.toNat 1
    ∧ ivc.wPos.toNat < max ivc.nframes.toNat 1

/-- A position that moves stays below the number of frames. -/
theorem nextPos_lt {nframes pos : UInt32} (hnf : 0 < nframes.toNat)
    (hpos : pos.toNat < max nframes.toNat 1) :
    (nextPos nframes pos).toNat < max nframes.toNat 1 := by
  have hlt : pos.toNat < nframes.toNat := by omega
  rw [nextPos_toNat hnf (Nat.mod_eq_of_lt hlt).symm]
  have hmod := Nat.mod_lt (pos.toNat + 1) hnf
  omega

/-- What is never touched. -/
structure SameParams (ivc ivc' : TegraIvc) : Prop where
  rxBase : ivc'.rxBase = ivc.rxBase
  txBase : ivc'.txBase = ivc.txBase
  nframes : ivc'.nframes = ivc.nframes
  frameSize : ivc'.frameSize = ivc.frameSize

/-- A reply to a call that is safe, and what is left of the endpoint. -/
structure Safe (ivc : TegraIvc) (c : ApiCall) (r : Reply × TegraIvc) :
    Prop where
  params : SameParams ivc r.2
  inRange : r.2.InRange
  noFrame : r.1 ≠ .noFrame
  frame : ∀ addr, r.1 = .frame addr → ∃ base pos,
    ((c = .readGetNextFrame ∧ base = ivc.rxBase ∧ pos = ivc.rPos)
      ∨ (c = .writeGetNextFrame ∧ base = ivc.txBase ∧ pos = ivc.wPos))
    ∧ pos.toNat < ivc.nframes.toNat
    ∧ tegraIvcFrameAddr ivc base pos = some addr

/-- A reply without a frame. -/
theorem Safe.plain {c : ApiCall} {ivc' : TegraIvc} {r : Reply}
    (hp : SameParams ivc ivc') (hr : ivc'.InRange)
    (h : (∃ e, r = .failed e) ∨ ∃ b, r = .done b) :
    Safe ivc c (r, ivc') := by
  refine ⟨hp, hr, ?_, ?_⟩
  · rcases h with ⟨e, rfl⟩ | ⟨b, rfl⟩
    · nofun
    · nofun
  · intro addr haddr
    rcases h with ⟨e, rfl⟩ | ⟨b, rfl⟩
    · cases haddr
    · cases haddr

theorem SameParams.refl (ivc : TegraIvc) : SameParams ivc ivc :=
  ⟨rfl, rfl, rfl, rfl⟩

/-- A position in range is that of a frame, if there are any. -/
theorem frameAddr_some {base : UInt64} {pos : UInt32}
    (hnf : 0 < ivc.nframes.toNat)
    (hpos : pos.toNat < max ivc.nframes.toNat 1) :
    pos.toNat < ivc.nframes.toNat ∧ tegraIvcFrameAddr ivc base pos
      = some (base + 128 + (ivc.frameSize * pos).toUInt64) := by
  have hlt : pos.toNat < ivc.nframes.toNat := by omega
  refine ⟨hlt, ?_⟩
  unfold tegraIvcFrameAddr
  rw [if_neg]
  rw [UInt32.not_le, UInt32.lt_iff_toNat_lt]
  exact hlt

-- ================================================================ calls

/-- The frame that is handed out is chosen by the position alone, which the
peer cannot write to. -/
theorem readGetNextFrame_ensures (hr : ivc.InRange) :
    Ensures (Knows A f) (readGetNextFrame ivc) fun r w =>
      Safe ivc .readGetNextFrame r ∧ Knows A f w := by
  refine (check_ensures (channelEmpty_ensures ivc ivc.rxBase)).bind
    fun res => .assume fun hok => ?_
  cases res with
  | error e =>
      exact .pure fun _ hk =>
        ⟨.plain (.refl ivc) hr (.inl ⟨e, rfl⟩), hk⟩
  | ok u =>
      refine .pure fun _ hk => ⟨?_, hk⟩
      obtain ⟨hlt, haddr⟩ : _ ∧ tegraIvcFrameAddr ivc ivc.rxBase ivc.rPos
          = _ := frameAddr_some (hok rfl).pos hr.1
      unfold frameReply
      rw [haddr]
      refine ⟨.refl ivc, hr, nofun, ?_⟩
      intro addr heq
      cases heq
      exact ⟨_, _, .inl ⟨rfl, rfl, rfl⟩, hlt, haddr⟩

theorem writeGetNextFrame_ensures (hr : ivc.InRange) :
    Ensures (Knows A f) (writeGetNextFrame ivc) fun r w =>
      Safe ivc .writeGetNextFrame r ∧ Knows A f w := by
  refine (check_ensures (channelFull_ensures ivc ivc.txBase)).bind
    fun res => .assume fun hok => ?_
  cases res with
  | error e =>
      exact .pure fun _ hk =>
        ⟨.plain (.refl ivc) hr (.inl ⟨e, rfl⟩), hk⟩
  | ok u =>
      refine .pure fun _ hk => ⟨?_, hk⟩
      obtain ⟨hlt, haddr⟩ : _ ∧ tegraIvcFrameAddr ivc ivc.txBase ivc.wPos
          = _ := frameAddr_some (hok rfl) hr.2
      unfold frameReply
      rw [haddr]
      refine ⟨.refl ivc, hr, nofun, ?_⟩
      intro addr heq
      cases heq
      exact ⟨_, _, .inr ⟨rfl, rfl, rfl⟩, hlt, haddr⟩

/-- What is stored is one more than what was loaded, and the position moves
by one. -/
theorem advanceRx_ensures (ivc : TegraIvc) :
    Ensures (Knows A f) (advanceRx ivc) fun ivc' w =>
      ivc' = { ivc with rPos := nextPos ivc.nframes ivc.rPos } ∧
        ∃ v, (A (rCountAddr ivc.rxBase) →
            v = f (rCountAddr ivc.rxBase) + 1)
          ∧ Knows A (Function.update f (rCountAddr ivc.rxBase) v) w := by
  refine (ensures_load _).bind fun r => .assume fun hr => ?_
  refine (ensures_store _ _).bind fun _ => .pure fun _ hk => ?_
  exact ⟨rfl, r + 1, fun hA => by rw [hr hA], hk⟩

theorem advanceTx_ensures (ivc : TegraIvc) :
    Ensures (Knows A f) (advanceTx ivc) fun ivc' w =>
      ivc' = { ivc with wPos := nextPos ivc.nframes ivc.wPos } ∧
        ∃ v, Knows A (Function.update f (wCountAddr ivc.txBase) v) w := by
  refine (ensures_load _).bind fun _ => .assume fun _ => ?_
  refine (ensures_store _ _).bind fun _ => .pure fun _ hk => ?_
  exact ⟨rfl, _, hk⟩

/-- A read fails and changes nothing, or it has seen frames and counts
one more. -/
theorem readAdvance_ensures (hr : ivc.InRange) :
    Ensures (Knows A f) (readAdvance ivc) fun r w =>
      Safe ivc .readAdvance r ∧
        ((∃ e, r.1 = .failed e ∧ Knows A f w) ∨
          ∃ b v, r.1 = .done b ∧ Unread A f ivc ivc.rxBase
            ∧ (A (rCountAddr ivc.rxBase) →
              v = f (rCountAddr ivc.rxBase) + 1)
            ∧ Knows A (Function.update f (rCountAddr ivc.rxBase) v) w) := by
  refine (check_ensures (channelEmpty_ensures ivc ivc.rxBase)).bind
    fun res => .assume fun hok => ?_
  cases res with
  | error e =>
      exact .pure fun _ hk =>
        ⟨.plain (.refl ivc) hr (.inl ⟨e, rfl⟩), .inl ⟨e, rfl, hk⟩⟩
  | ok u =>
      have hunread := hok rfl
      have hnext := nextPos_lt hunread.pos hr.1
      refine (advanceRx_ensures ivc).bind fun ivc' => .assume ?_
      rintro rfl
      refine .exists_pre fun v => .assume fun hv => ?_
      refine (availCount_ensures _).bind fun n => .pure fun _ hk => ?_
      exact ⟨.plain ⟨rfl, rfl, rfl, rfl⟩ ⟨hnext, hr.2⟩
          (.inr ⟨_, rfl⟩),
        .inr ⟨_, v, rfl, hunread, hv, hk⟩⟩

/-- A write stores to the own counter only. -/
theorem writeAdvance_ensures (hr : ivc.InRange) :
    Ensures (Knows A f) (writeAdvance ivc) fun r w =>
      Safe ivc .writeAdvance r ∧
        (¬A (wCountAddr ivc.txBase) → Knows A f w) := by
  refine (check_ensures (channelFull_ensures ivc ivc.txBase)).bind
    fun res => .assume fun hok => ?_
  cases res with
  | error e =>
      exact .pure fun _ hk =>
        ⟨.plain (.refl ivc) hr (.inl ⟨e, rfl⟩), fun _ => hk⟩
  | ok u =>
      have hnext := nextPos_lt (hok rfl) hr.2
      refine (advanceTx_ensures ivc).bind fun ivc' => .assume ?_
      rintro rfl
      refine .exists_pre fun v => ?_
      refine (availCount_ensures _).bind fun n => .pure fun _ hk => ?_
      exact ⟨.plain ⟨rfl, rfl, rfl, rfl⟩ ⟨hr.1, hnext⟩
          (.inr ⟨_, rfl⟩),
        fun hA => hk.of_update hA⟩

/-- A reset stores to the own state only. -/
theorem channelReset_ensures (hr : ivc.InRange) :
    Ensures (Knows A f) (channelReset ivc) fun r w =>
      Safe ivc .channelReset r ∧
        (¬A (stateAddr ivc.txBase) → Knows A f w) := by
  refine (ensures_store _ _).bind fun _ => .pure fun _ hk => ?_
  exact ⟨.plain (.refl ivc) hr (.inr ⟨_, rfl⟩), fun hA =>
    hk.of_update hA⟩

/-- A reset puts both positions to 0, which is in range even where there
are no frames. -/
theorem clearAndMove_ensures (ivc : TegraIvc) (state : UInt32) :
    Ensures (fun _ => True) (clearAndMove ivc state) fun ivc' _ =>
      ivc' = { ivc with wPos := 0, rPos := 0 } :=
  fun _ _ => rfl

/-- The positions are cleared or left alone. -/
theorem react_ensures (hr : ivc.InRange) (peerState : UInt32) :
    Ensures (fun _ => True) (react ivc peerState) fun r _ =>
      SameParams ivc r.2 ∧ r.2.InRange := by
  have hcleared : SameParams ivc { ivc with wPos := 0, rPos := 0 }
      ∧ TegraIvc.InRange { ivc with wPos := 0, rPos := 0 } := by
    refine ⟨⟨rfl, rfl, rfl, rfl⟩, ?_, ?_⟩
    · show 0 < max ivc.nframes.toNat 1
      omega
    · show 0 < max ivc.nframes.toNat 1
      omega
  have hclear : ∀ state, Ensures (fun _ => True)
      (clearAndMove ivc state >>= fun ivc' => pure (true, ivc'))
      fun r _ => SameParams ivc r.2 ∧ r.2.InRange := by
    intro state
    refine (clearAndMove_ensures ivc state).bind fun ivc' => ?_
    exact .pure fun _ heq => heq ▸ hcleared
  have hany : ∀ i, Ensures (fun _ => True) (load i : Access UInt32)
      fun _ _ => True := fun _ _ _ => trivial
  refine .ite (fun _ => hclear _) fun _ => ?_
  refine (hany _).bind fun own => .ite (fun _ => hclear _) fun _ => ?_
  refine (hany _).bind fun own => .ite (fun _ => ?_) fun _ => ?_
  · exact fun _ _ => ⟨.refl ivc, hr⟩
  · exact .pure fun _ _ => ⟨.refl ivc, hr⟩

/-- Whatever state words a peer writes, the positions stay where they are
or are reset. -/
theorem channelNotified_ensures (hr : ivc.InRange) :
    Ensures (fun _ => True) (channelNotified ivc) fun r _ =>
      Safe ivc .channelNotified r := by
  have hany : ∀ i, Ensures (fun _ => True) (load i : Access UInt32)
      fun _ _ => True := fun _ _ _ => trivial
  refine (hany _).bind fun peerState => ?_
  refine (react_ensures hr peerState).bind fun r => ?_
  intro w h
  refine .plain h.1 h.2 ?_
  split
  · exact .inl ⟨_, rfl⟩
  · exact .inr ⟨_, rfl⟩

/-- Every call is safe, whatever the peer does. -/
theorem perform_safe (hr : ivc.InRange) (c : ApiCall)
    (w : World UInt64 UInt32) : Safe ivc c (c.perform ivc w).1 := by
  have hk : Knows (fun _ => False) w.mem w :=
    ⟨fun _ _ _ h => h.elim, fun _ h => h.elim⟩
  cases c with
  | readGetNextFrame => exact (readGetNextFrame_ensures hr w hk).1
  | readAdvance => exact (readAdvance_ensures hr w hk).1
  | writeGetNextFrame => exact (writeGetNextFrame_ensures hr w hk).1
  | writeAdvance => exact (writeAdvance_ensures hr w hk).1
  | channelNotified => exact channelNotified_ensures hr w trivial
  | channelReset => exact (channelReset_ensures hr w hk).1

-- ============================================================ addresses

/-- The offset of a frame and its size stay inside the frames. -/
theorem offset_le {frameSize nframes pos : UInt32}
    (hpos : pos.toNat < nframes.toNat) :
    frameSize.toNat * pos.toNat + frameSize.toNat
      ≤ nframes.toNat * frameSize.toNat := by
  rw [← Nat.mul_succ, Nat.mul_comm nframes.toNat]
  exact Nat.mul_le_mul_left _ hpos

/-- The 32-bit product does not wrap. -/
theorem offset_toNat {frameSize nframes pos : UInt32}
    (hfits : nframes.toNat * frameSize.toNat < 2 ^ 32)
    (hpos : pos.toNat < nframes.toNat) :
    (frameSize * pos).toNat = frameSize.toNat * pos.toNat := by
  have hle : frameSize.toNat * pos.toNat + frameSize.toNat
      ≤ nframes.toNat * frameSize.toNat := offset_le hpos
  rw [UInt32.toNat_mul]
  generalize frameSize.toNat * pos.toNat = x at hle ⊢
  omega

/-- A frame lies in its channel. The end of the address space is no
address, so frames of no size may not be there. -/
theorem frameAddr_inside {base addr : UInt64} {pos : UInt32}
    (hfits : ivc.nframes.toNat * ivc.frameSize.toNat < 2 ^ 32)
    (hbase : base.toNat + 128 + ivc.nframes.toNat * ivc.frameSize.toNat
      ≤ 2 ^ 64)
    (hend : ivc.frameSize ≠ 0 ∨ base.toNat + 128 < 2 ^ 64)
    (hpos : pos.toNat < ivc.nframes.toNat)
    (h : tegraIvcFrameAddr ivc base pos = some addr) :
    base.toNat + 128 ≤ addr.toNat
      ∧ addr.toNat + ivc.frameSize.toNat
        ≤ base.toNat + 128
          + ivc.nframes.toNat * ivc.frameSize.toNat := by
  have hle : ivc.frameSize.toNat * pos.toNat + ivc.frameSize.toNat
      ≤ ivc.nframes.toNat * ivc.frameSize.toNat := offset_le hpos
  have hroom : base.toNat + 128 + ivc.frameSize.toNat * pos.toNat
      < 2 ^ 64 := by
    rcases hend with hne | hlt
    · have hpositive : 0 < ivc.frameSize.toNat :=
        Nat.pos_of_ne_zero fun hz => hne (UInt32.toNat_inj.1 hz)
      omega
    · by_cases hz : ivc.frameSize.toNat = 0
      · rw [hz, Nat.zero_mul]
        exact hlt
      · omega
  have haddr : addr.toNat
      = base.toNat + 128 + ivc.frameSize.toNat * pos.toNat := by
    unfold tegraIvcFrameAddr at h
    split at h
    · cases h
    · cases h
      rw [UInt64.toNat_add, UInt64.toNat_add, UInt32.toNat_toUInt64,
        offset_toNat hfits hpos]
      generalize ivc.frameSize.toNat * pos.toNat = x at hroom ⊢
      show ((base.toNat + 128) % 2 ^ 64 + x) % 2 ^ 64 = _
      omega
  rw [haddr]
  exact ⟨Nat.le_add_right _ _, by omega⟩

-- ================================================================ reads

/-- The counters of the receive channel. -/
def rxCounters (rxBase : UInt64) (i : UInt64) : Prop :=
  i = wCountAddr rxBase ∨ i = rCountAddr rxBase

/-- What is left for the reader. -/
def budget (nframes avail : UInt32) : Nat :=
  if avail ≤ nframes then avail.toNat else 0

/-- No more reads are granted than there are frames, whatever the
difference of the counters is. -/
theorem budget_le (nframes avail : UInt32) :
    budget nframes avail ≤ nframes.toNat := by
  unfold budget
  split
  · rename_i hle
    exact UInt32.le_iff_toNat_le.1 hle
  · exact Nat.zero_le _

/-- Each read uses up one frame. -/
theorem budget_step {nframes w r : UInt32} (hle : w - r ≤ nframes)
    (hne : w ≠ r) :
    budget nframes (w - (r + 1)) + 1 = budget nframes (w - r) := by
  have hpred : w - (r + 1) = w - r - 1 := by grind
  have hsub : w - r ≠ 0 := by grind
  have hpos : 1 ≤ (w - r).toNat :=
    Nat.one_le_iff_ne_zero.2 fun hz => hsub (UInt32.toNat_inj.1 hz)
  have hone : (1 : UInt32) ≤ w - r := UInt32.le_iff_toNat_le.2 hpos
  have hval : (w - r - 1).toNat = (w - r).toNat - 1 :=
    UInt32.toNat_sub_of_le _ _ hone
  have hle' : w - r - 1 ≤ nframes := by
    rw [UInt32.le_iff_toNat_le] at hle ⊢
    omega
  unfold budget
  rw [hpred, if_pos hle', if_pos hle, hval]
  omega

/-- The state word of a channel is no counter of another, for channels
that are aligned. -/
theorem stateAddr_ne {rx tx : UInt64} (hrx : rx &&& 63 = 0)
    (htx : tx &&& 63 = 0) : ¬rxCounters rx (stateAddr tx) := by
  have hmod : ∀ b : UInt64, b &&& 63 = 0 → b.toNat % 64 = 0 := by
    intro b hb
    have hval : (b &&& 63).toNat = 0 := by
      rw [hb]
      rfl
    rw [UInt64.toNat_and] at hval
    have hmask : (63 : UInt64).toNat = 2 ^ 6 - 1 := rfl
    rw [hmask, Nat.and_two_pow_sub_one_eq_mod] at hval
    exact hval
  have h₁ := hmod rx hrx
  have h₂ := hmod tx htx
  unfold rxCounters stateAddr wCountAddr rCountAddr
  have hfour : (tx + 4).toNat % 64 = 4 := by
    rw [UInt64.toNat_add]
    show (tx.toNat + 4) % 2 ^ 64 % 64 = 4
    omega
  rintro (heq | heq)
  · rw [heq] at hfour
    omega
  · rw [heq, UInt64.toNat_add] at hfour
    have h64 : (64 : UInt64).toNat = 64 := rfl
    rw [h64] at hfour
    omega

/-- The counters of a channel are 64 bytes apart, so storing one leaves the
other alone even where the header wraps around. -/
theorem wCountAddr_ne (ch : UInt64) : wCountAddr ch ≠ rCountAddr ch := by
  unfold wCountAddr rCountAddr
  intro heq
  have hzero : (64 : UInt64) = 0 := by grind
  exact absurd hzero (by decide)

/-- The memory after a call. -/
def Exposed.after (s : Exposed) (e : Event) : UInt64 → UInt32 :=
  (e.1.perform s.ivc ⟨s.mem, e.2, 0⟩).2.mem

/-- The endpoint after a call. -/
def Exposed.ivcAfter (s : Exposed) (e : Event) : TegraIvc :=
  (e.1.perform s.ivc ⟨s.mem, e.2, 0⟩).1.2

theorem exposedStep_some {s s' : Exposed} {e : Event}
    (h : exposedStep s e = some s') :
    s'.ivc = s.ivcAfter e ∧ s'.mem = s.after e
      ∧ s'.reads = if s.advances e then s.reads + 1 else s.reads := by
  unfold exposedStep at h
  rw [Option.some.injEq] at h
  rw [← h]
  exact ⟨rfl, rfl, rfl⟩

/-- A call advances the reader by a frame that is there, or it leaves the
counters of the receive channel alone. -/
def Counts (s : Exposed) (e : Event) (w r : UInt32) : Prop :=
  s.after e (wCountAddr s.ivc.rxBase) = w
    ∧ ((s.advances e = false ∧ s.after e (rCountAddr s.ivc.rxBase) = r)
      ∨ (s.advances e = true ∧ w - r ≤ s.ivc.nframes ∧ w ≠ r
        ∧ s.after e (rCountAddr s.ivc.rxBase) = r + 1))

/-- A call that is no read and keeps the counters. -/
theorem Counts.kept {s : Exposed} {e : Event} (hc : e.1 ≠ .readAdvance)
    (h : Knows (rxCounters s.ivc.rxBase) s.mem
      (e.1.perform s.ivc ⟨s.mem, e.2, 0⟩).2) :
    Counts s e (s.mem (wCountAddr s.ivc.rxBase))
      (s.mem (rCountAddr s.ivc.rxBase)) := by
  refine ⟨h.mem _ (.inl rfl), .inl ⟨?_, h.mem _ (.inr rfl)⟩⟩
  unfold Exposed.advances
  rw [decide_eq_false hc, Bool.false_and]

/-- Between two reads the number of frames that are left to read does not
grow: with the peer quiet, only the reader's own count changes, and each
read uses up a frame. -/
theorem perform_counts {s : Exposed} {e : Event} (hr : s.ivc.InRange)
    (hrx : s.ivc.rxBase &&& 63 = 0) (htx : s.ivc.txBase &&& 63 = 0)
    (hbetween : BetweenReads s.ivc.rxBase s.ivc.txBase e.1)
    (hquiet : LeavesCounters s.ivc.rxBase e.2) :
    Counts s e (s.mem (wCountAddr s.ivc.rxBase))
      (s.mem (rCountAddr s.ivc.rxBase)) := by
  obtain ⟨c, peer⟩ := e
  have hk : Knows (rxCounters s.ivc.rxBase) s.mem ⟨s.mem, peer, 0⟩ :=
    ⟨hquiet, fun _ _ => rfl⟩
  cases c with
  | readGetNextFrame =>
      exact .kept nofun (readGetNextFrame_ensures hr _ hk).2
  | writeGetNextFrame =>
      exact .kept nofun (writeGetNextFrame_ensures hr _ hk).2
  | writeAdvance =>
      refine .kept nofun ((writeAdvance_ensures hr _ hk).2 ?_)
      rintro (heq | heq)
      · exact (hbetween.2 rfl).1 heq
      · exact (hbetween.2 rfl).2 heq
  | channelReset =>
      exact .kept nofun
        ((channelReset_ensures hr _ hk).2 (stateAddr_ne hrx htx))
  | channelNotified => exact absurd rfl hbetween.1
  | readAdvance =>
      obtain ⟨-,
          ⟨err, hfailed, hk'⟩ | ⟨b, v, hdone, hunread, hv, hk'⟩⟩ :=
        readAdvance_ensures hr _ hk
      · refine ⟨hk'.mem _ (.inl rfl), .inl ⟨?_, hk'.mem _ (.inr rfl)⟩⟩
        have hreply : s.reply (.readAdvance, peer) = .failed err := hfailed
        unfold Exposed.advances
        rw [hreply]
        rfl
      · obtain ⟨w, r, hw, hr', hle, hne⟩ := hunread
        rw [hw (.inl rfl), hr' (.inr rfl)] at hle hne
        refine ⟨?_, .inr ⟨?_, hle, hne, ?_⟩⟩
        · have hmem := hk'.mem _ (.inl rfl)
          rw [Function.update_of_ne (wCountAddr_ne _)] at hmem
          exact hmem
        · have hreply : s.reply (.readAdvance, peer) = .done b := hdone
          unfold Exposed.advances
          rw [hreply]
          rfl
        · have hmem := hk'.mem _ (.inr rfl)
          rw [Function.update_self, hv (.inr rfl)] at hmem
          exact hmem

-- ================================================================= runs

/-- What `tegra_ivc_init` has checked and no call changes. -/
structure Accepted (rxBase txBase : UInt64) (nframes frameSize : UInt32)
    (ivc : TegraIvc) : Prop where
  rx_eq : ivc.rxBase = rxBase
  tx_eq : ivc.txBase = txBase
  nframes_eq : ivc.nframes = nframes
  size_eq : ivc.frameSize = frameSize
  fits : nframes.toNat * frameSize.toNat < 2 ^ 32
  rx_aligned : rxBase &&& 63 = 0
  tx_aligned : txBase &&& 63 = 0
  inRange : ivc.InRange

/-- What the check of the parameters gives: the frames do not overflow 32
bits, and both headers are aligned. -/
theorem checkIvcParams_true {rxBase txBase : UInt64}
    {nframes frameSize : UInt32}
    (h : checkIvcParams rxBase txBase nframes frameSize = true) :
    nframes.toNat * frameSize.toNat < 2 ^ 32 ∧ rxBase &&& 63 = 0
      ∧ txBase &&& 63 = 0 := by
  unfold checkIvcParams at h
  split at h
  · cases h
  · rename_i hfits
    split at h
    · cases h
    · rename_i halign
      rw [not_or, not_not, not_not] at halign
      refine ⟨?_, halign⟩
      have hn := nframes.toNat_lt
      have hf := frameSize.toNat_lt
      have hprod : nframes.toNat * frameSize.toNat < 2 ^ 64 := by
        have hlt := Nat.mul_lt_mul'' hn hf
        exact Nat.lt_of_lt_of_eq hlt (by decide)
      rw [UInt64.not_le, UInt64.lt_iff_toNat_lt, UInt64.toNat_mul,
        UInt32.toNat_toUInt64, UInt32.toNat_toUInt64,
        Nat.mod_eq_of_lt hprod] at hfits
      exact hfits

/-- An endpoint that `tegra_ivc_init` has made is accepted. -/
theorem accepted_init {rxBase txBase : UInt64} {nframes frameSize : UInt32}
    {ivc : TegraIvc}
    (h : tegraIvcInit rxBase txBase nframes frameSize = .ok ivc) :
    Accepted rxBase txBase nframes frameSize ivc := by
  unfold tegraIvcInit at h
  split at h
  · rename_i hcheck
    obtain ⟨hfits, hrx, htx⟩ := checkIvcParams_true hcheck
    cases h
    refine ⟨rfl, rfl, rfl, rfl, hfits, hrx, htx, ?_, ?_⟩
    · show 0 < max nframes.toNat 1
      omega
    · show 0 < max nframes.toNat 1
      omega
  · cases h

/-- It stays accepted, since a call changes no more of it than the
positions, and keeps these in range. -/
theorem exposedStep_accepted {rxBase txBase : UInt64}
    {nframes frameSize : UInt32} {s s' : Exposed} {e : Event}
    (h : Accepted rxBase txBase nframes frameSize s.ivc)
    (hst : exposedStep s e = some s') :
    Accepted rxBase txBase nframes frameSize s'.ivc := by
  have hsafe := perform_safe h.inRange e.1 ⟨s.mem, e.2, 0⟩
  have hp : SameParams s.ivc (s.ivcAfter e) := hsafe.params
  rw [(exposedStep_some hst).1]
  exact ⟨hp.rxBase.trans h.rx_eq, hp.txBase.trans h.tx_eq,
    hp.nframes.trans h.nframes_eq, hp.frameSize.trans h.size_eq, h.fits,
    h.rx_aligned, h.tx_aligned, hsafe.inRange⟩

/-- What the reader has read and what is left for it. -/
def Exposed.total (s : Exposed) : Nat :=
  s.reads + budget s.ivc.nframes (s.mem (wCountAddr s.ivc.rxBase)
    - s.mem (rCountAddr s.ivc.rxBase))

/-- Reads made and reads granted add up to the same number all the time. -/
theorem exposedStep_total {rxBase txBase : UInt64}
    {nframes frameSize : UInt32} {s s' : Exposed} {e : Event}
    (h : Accepted rxBase txBase nframes frameSize s.ivc)
    (hbetween : BetweenReads rxBase txBase e.1)
    (hquiet : LeavesCounters rxBase e.2)
    (hst : exposedStep s e = some s') : s'.total = s.total := by
  have hp : SameParams s.ivc (s.ivcAfter e) :=
    (perform_safe h.inRange e.1 ⟨s.mem, e.2, 0⟩).params
  have hrx := h.rx_aligned
  have htx := h.tx_aligned
  rw [← h.rx_eq] at hquiet hrx
  rw [← h.tx_eq] at htx
  rw [← h.rx_eq, ← h.tx_eq] at hbetween
  obtain ⟨hw, hr⟩ := perform_counts h.inRange hrx htx hbetween hquiet
  obtain ⟨hivc, hmem, hreads⟩ := exposedStep_some hst
  unfold Exposed.total
  rw [hivc, hmem, hreads, hp.rxBase, hp.nframes, hw]
  rcases hr with ⟨hadv, hr⟩ | ⟨hadv, hle, hne, hr⟩
  · rw [hadv, hr]
    rfl
  · rw [hadv, hr, if_pos rfl, ← budget_step hle hne]
    omega

/-- Over several calls. -/
theorem run_total {rxBase txBase : UInt64} {nframes frameSize : UInt32}
    {s s' : Exposed} {events : List Event}
    (h : Accepted rxBase txBase nframes frameSize s.ivc)
    (hbetween : ∀ e ∈ events, BetweenReads rxBase txBase e.1
      ∧ LeavesCounters rxBase e.2)
    (hrun : run exposedStep s events = some s') : s'.total = s.total := by
  induction events generalizing s with
  | nil =>
      simp only [run, Option.some.injEq] at hrun
      rw [hrun]
  | cons e events ih =>
      have he := hbetween e (List.mem_cons_self ..)
      obtain ⟨s₁, hst⟩ : ∃ s₁, exposedStep s e = some s₁ :=
        ⟨_, rfl⟩
      simp only [run, hst] at hrun
      rw [ih (exposedStep_accepted h hst)
        (fun e he => hbetween e (List.mem_cons_of_mem _ he)) hrun]
      exact exposedStep_total h he.1 he.2 hst

/-- An endpoint is safe whatever its peer writes to the headers: its
positions stay in range, the check for non-existent frames never fires,
every frame it hands out is in its channel, and with a peer that leaves
the counters of the receive channel alone it reads at most `nframes`
frames. -/
theorem hostile_peer {rxBase txBase : UInt64} {nframes frameSize : UInt32}
    {ivc : TegraIvc} {s : Exposed}
    (hinit : tegraIvcInit rxBase txBase nframes frameSize = .ok ivc)
    (hrx : rxBase.toNat + 128 + nframes.toNat * frameSize.toNat ≤ 2 ^ 64)
    (htx : txBase.toNat + 128 + nframes.toNat * frameSize.toNat ≤ 2 ^ 64)
    (hs : Reachable (fun s => s.ivc = ivc) exposedStep anyStep s) :
    s.ivc.rPos.toNat < max nframes.toNat 1
    ∧ s.ivc.wPos.toNat < max nframes.toNat 1
    ∧ (∀ e, s.reply e ≠ .noFrame)
    ∧ (∀ e addr, s.reply e = .frame addr → ∃ base pos,
      ((e.1 = .readGetNextFrame ∧ base = rxBase ∧ pos = s.ivc.rPos)
        ∨ (e.1 = .writeGetNextFrame ∧ base = txBase ∧ pos = s.ivc.wPos))
      ∧ (frameSize * pos).toNat = frameSize.toNat * pos.toNat
      ∧ (frameSize ≠ 0 ∨ base.toNat + 128 < 2 ^ 64 →
        base.toNat + 128 ≤ addr.toNat
        ∧ addr.toNat + frameSize.toNat
          ≤ base.toNat + 128 + nframes.toNat * frameSize.toNat))
    ∧ ∀ events s', (∀ e ∈ events, BetweenReads rxBase txBase e.1
        ∧ LeavesCounters rxBase e.2) →
      run exposedStep s events = some s' →
      s'.reads ≤ s.reads + nframes.toNat := by
  have h : Accepted rxBase txBase nframes frameSize s.ivc := by
    refine Reachable.invariant
      (I := fun s => Accepted rxBase txBase nframes frameSize s.ivc)
      ?_ ?_ hs
    · intro s heq
      rw [heq]
      exact accepted_init hinit
    · intro s e s' h _ hst
      exact exposedStep_accepted h hst
  have hrange := h.inRange
  unfold TegraIvc.InRange at hrange
  rw [h.nframes_eq] at hrange
  refine ⟨hrange.1, hrange.2, ?_, ?_, ?_⟩
  · intro e
    exact (perform_safe h.inRange e.1 ⟨s.mem, e.2, 0⟩).noFrame
  · intro e addr haddr
    -- the address is computed from a position in range, not from shared
    -- memory
    obtain ⟨base, pos, hwhich, hpos, hsome⟩ :=
      (perform_safe h.inRange e.1 ⟨s.mem, e.2, 0⟩).frame addr haddr
    rw [h.rx_eq, h.tx_eq] at hwhich
    refine ⟨base, pos, hwhich, ?_, ?_⟩
    · rw [h.nframes_eq] at hpos
      exact offset_toNat h.fits hpos
    · intro hend
      have hbase : base.toNat + 128 + nframes.toNat * frameSize.toNat
          ≤ 2 ^ 64 := by
        rcases hwhich with ⟨-, rfl, -⟩ | ⟨-, rfl, -⟩
        · exact hrx
        · exact htx
      have hfits := h.fits
      rw [← h.nframes_eq, ← h.size_eq] at hbase hfits ⊢
      rw [← h.size_eq] at hend
      exact frameAddr_inside hfits hbase hend hpos hsome
  · intro events s' hbetween hrun
    have htotal := run_total h hbetween hrun
    have hle := budget_le s.ivc.nframes (s.mem (wCountAddr s.ivc.rxBase)
      - s.mem (rCountAddr s.ivc.rxBase))
    rw [h.nframes_eq] at hle
    unfold Exposed.total at htotal
    rw [h.nframes_eq] at htotal
    omega

-- ========================================================== whole calls

/-- A state word. -/
def stateOf (word : UInt32) : IvcState :=
  if word = ivcStateEstablished then .established
  else if word = ivcStateSync then .sync
  else if word = ivcStateAck then .ack
  else .other

/-- The channel that a header in memory is. -/
def channelAt (mem : UInt64 → UInt32) (ch : UInt64) : Channel Unit where
  wCount := mem (wCountAddr ch)
  state := stateOf (mem (stateAddr ch))
  rCount := mem (rCountAddr ch)
  frames := fun _ => ()

/-- A peer that does nothing. -/
def idlePeer : Interference := fun _ m => m

/-- The state word for an established session is 0. -/
theorem stateOf_established (word : UInt32) :
    stateOf word = .established ↔ word = ivcStateEstablished := by
  unfold stateOf
  split
  · rename_i h
    exact ⟨fun _ => h, fun _ => rfl⟩
  · rename_i h
    refine ⟨?_, fun heq => absurd heq h⟩
    split
    · nofun
    · split
      · nofun
      · nofun

/-- With such a peer a check is that of the whole call: the second look
sees what the first saw. -/
theorem check_idle (ivc : TegraIvc) {nothing : Access Bool} {b : Bool}
    {mem : UInt64 → UInt32} (h : ∀ t, ∃ t', nothing ⟨mem, idlePeer, t⟩
      = (b, ⟨mem, idlePeer, t'⟩)) (t : Nat) :
    ∃ t', check ivc nothing ⟨mem, idlePeer, t⟩
      = (if stateOf (mem (stateAddr ivc.txBase)) ≠ .established then
          .error .econnreset
        else if b then .error .enomem else .ok (),
        ⟨mem, idlePeer, t'⟩) := by
  have hst := stateOf_established (mem (stateAddr ivc.txBase))
  have hload : load (stateAddr ivc.txBase) ⟨mem, idlePeer, t⟩
      = (mem (stateAddr ivc.txBase), ⟨mem, idlePeer, t + 1⟩) := rfl
  unfold check
  rw [Shared.bind_apply, hload]
  by_cases he : mem (stateAddr ivc.txBase) = ivcStateEstablished
  · rw [if_neg (not_not.2 he), if_neg (not_not.2 (hst.2 he))]
    obtain ⟨t₁, h₁⟩ := h (t + 1)
    obtain ⟨t₂, h₂⟩ := h t₁
    rw [Shared.bind_apply, h₁]
    cases b with
    | false => exact ⟨t₁, rfl⟩
    | true =>
        refine ⟨t₂, ?_⟩
        rw [if_neg (fun h => Bool.noConfusion h), Shared.bind_apply, h₂]
        rfl
  · rw [if_pos he, if_pos (fun h => he (hst.1 h))]
    exact ⟨t + 1, rfl⟩

/-- The result of a call that returns a new endpoint, as a reply. -/
def replyOf (ivc : TegraIvc) :
    Except Errno (TegraIvc × Channel Unit × Bool) → Reply × TegraIvc
  | .error e => (.failed e, ivc)
  | .ok (ivc', _, b) => (.done b, ivc')

/-- `tegra_ivc_read_advance` with such a peer is the whole call. -/
theorem readAdvance_idle (ivc : TegraIvc) (mem : UInt64 → UInt32) :
    (readAdvance ivc ⟨mem, idlePeer, 0⟩).1
      = replyOf ivc (tegraIvcReadAdvance ivc (channelAt mem ivc.txBase)
          (channelAt mem ivc.rxBase)) := by
  obtain ⟨t, hcheck⟩ := check_idle ivc
    (b := tegraIvcChannelEmpty ivc (channelAt mem ivc.rxBase))
    (fun t => ⟨t + 2, rfl⟩ : ∀ t, ∃ t', channelEmpty ivc ivc.rxBase
      ⟨mem, idlePeer, t⟩ = (_, ⟨mem, idlePeer, t'⟩)) 0
  have hcall : tegraIvcCheckRead ivc (channelAt mem ivc.txBase)
      (channelAt mem ivc.rxBase)
      = if stateOf (mem (stateAddr ivc.txBase)) ≠ .established then
          .error .econnreset
        else if tegraIvcChannelEmpty ivc (channelAt mem ivc.rxBase) then
          .error .enomem
        else .ok () := by
    unfold tegraIvcCheckRead
    cases tegraIvcChannelEmpty ivc (channelAt mem ivc.rxBase) with
    | false => rfl
    | true => rfl
  rw [← hcall] at hcheck
  have hself := wCountAddr_ne ivc.rxBase
  unfold readAdvance tegraIvcReadAdvance
  rw [Shared.bind_apply]
  unfold checkRead
  rw [hcheck]
  cases tegraIvcCheckRead ivc (channelAt mem ivc.txBase)
      (channelAt mem ivc.rxBase) with
  | error e => rfl
  | ok u =>
      have hn : (channelAvailCount ivc.rxBase ⟨Function.update mem
          (rCountAddr ivc.rxBase) (mem (rCountAddr ivc.rxBase) + 1),
          idlePeer, t + 1⟩).1
          = mem (wCountAddr ivc.rxBase)
            - (mem (rCountAddr ivc.rxBase) + 1) := by
        show Function.update mem _ _ (wCountAddr ivc.rxBase)
          - Function.update mem _ _ (rCountAddr ivc.rxBase) = _
        rw [Function.update_of_ne hself, Function.update_self]
      show (Reply.done ((channelAvailCount ivc.rxBase ⟨Function.update mem
          (rCountAddr ivc.rxBase) (mem (rCountAddr ivc.rxBase) + 1),
          idlePeer, t + 1⟩).1 == ivc.nframes - 1), _) = _
      rw [hn]
      rfl

/-- Likewise for `tegra_ivc_write_advance`. -/
theorem writeAdvance_idle (ivc : TegraIvc) (mem : UInt64 → UInt32) :
    (writeAdvance ivc ⟨mem, idlePeer, 0⟩).1
      = replyOf ivc
          (tegraIvcWriteAdvance ivc (channelAt mem ivc.txBase)) := by
  obtain ⟨t, hcheck⟩ := check_idle ivc
    (b := tegraIvcChannelFull ivc (channelAt mem ivc.txBase))
    (fun t => ⟨t + 2, rfl⟩ : ∀ t, ∃ t', channelFull ivc ivc.txBase
      ⟨mem, idlePeer, t⟩ = (_, ⟨mem, idlePeer, t'⟩)) 0
  have hcall : tegraIvcCheckWrite ivc (channelAt mem ivc.txBase)
      = if stateOf (mem (stateAddr ivc.txBase)) ≠ .established then
          .error .econnreset
        else if tegraIvcChannelFull ivc (channelAt mem ivc.txBase) then
          .error .enomem
        else .ok () := by
    unfold tegraIvcCheckWrite
    cases tegraIvcChannelFull ivc (channelAt mem ivc.txBase) with
    | false => rfl
    | true => rfl
  rw [← hcall] at hcheck
  have hself := (wCountAddr_ne ivc.txBase).symm
  unfold writeAdvance tegraIvcWriteAdvance
  rw [Shared.bind_apply]
  unfold checkWrite
  rw [hcheck]
  cases tegraIvcCheckWrite ivc (channelAt mem ivc.txBase) with
  | error e => rfl
  | ok u =>
      have hn : (channelAvailCount ivc.txBase ⟨Function.update mem
          (wCountAddr ivc.txBase) (mem (wCountAddr ivc.txBase) + 1),
          idlePeer, t + 1⟩).1
          = mem (wCountAddr ivc.txBase) + 1
            - mem (rCountAddr ivc.txBase) := by
        show Function.update mem _ _ (wCountAddr ivc.txBase)
          - Function.update mem _ _ (rCountAddr ivc.txBase) = _
        rw [Function.update_of_ne hself, Function.update_self]
      show (Reply.done ((channelAvailCount ivc.txBase ⟨Function.update mem
          (wCountAddr ivc.txBase) (mem (wCountAddr ivc.txBase) + 1),
          idlePeer, t + 1⟩).1 == 1), _) = _
      rw [hn]
      rfl

-- ============================================================== samples

/-- One frame in the receive channel at `rxBase`. -/
def oneFrame (ivc : TegraIvc) : Exposed where
  ivc := ivc
  mem := fun i => if i = ivc.rxBase then 1 else 0
  reads := 0

/-- A channel with two frames of 64 bytes. -/
def twoFrames : TegraIvc where
  rxBase := 0x1000
  txBase := 0x2000
  rPos := 0
  wPos := 0
  nframes := 2
  frameSize := 64

/-- A peer that overwrites both counters of the receive channel before
each load, the write count with another number each time. -/
def storm : Interference := fun t m i =>
  if i = wCountAddr 0x1000 then 7 + UInt32.ofNat t
  else if i = rCountAddr 0x1000 then 6
  else m i

/-- The peer overwrites the counters inside a read, and again inside the
call that asks for the next frame: what the endpoint gets is the second
frame of the channel, and two further reads that the peer leaves alone
make three at most. -/
theorem hostile_peer_sample :
    tegraIvcInit 0x1000 0x2000 2 64 = .ok twoFrames
      ∧ ∃ s, exposedStep (oneFrame twoFrames) (.readAdvance, storm) = some s
      ∧ s.mem (wCountAddr 0x1000) = 12 ∧ s.mem (rCountAddr 0x1000) = 6
      ∧ s.reply (.readGetNextFrame, storm) = .frame 0x10c0
      ∧ s.reply (.readGetNextFrame, storm) ≠ .noFrame
      ∧ (0x1000 + 128 ≤ (0x10c0 : UInt64).toNat
        ∧ (0x10c0 : UInt64).toNat + 64 ≤ 0x1000 + 128 + 2 * 64)
      ∧ ∃ s', run exposedStep s
          [(.readAdvance, idlePeer), (.readAdvance, idlePeer)] = some s'
        ∧ s'.reads ≤ 3 := by
  have hinit : tegraIvcInit 0x1000 0x2000 2 64 = .ok twoFrames := rfl
  have hs := Reachable.step (.readAdvance, storm)
    (.init rfl : Reachable (fun s => s.ivc = twoFrames) exposedStep anyStep
      (oneFrame twoFrames)) trivial rfl
  obtain ⟨-, -, hno, hframe, hreads⟩ :=
    hostile_peer hinit (by decide) (by decide) hs
  have hreply := hframe (.readGetNextFrame, storm) 0x10c0
    (by decide +kernel)
  refine ⟨hinit, _, rfl, by decide +kernel, by decide +kernel,
    by decide +kernel, hno _, ?_, _, rfl, ?_⟩
  · obtain ⟨base, pos, hwhich, -, hin⟩ := hreply
    rcases hwhich with ⟨-, rfl, -⟩ | ⟨hc, -⟩
    · exact hin (.inl (by decide))
    · cases hc
  · refine hreads [(.readAdvance, idlePeer), (.readAdvance, idlePeer)] _
      ?_ rfl
    intro e he
    have he : e = (.readAdvance, idlePeer) := by simpa using he
    subst he
    exact ⟨⟨nofun, nofun⟩, fun _ _ _ _ => rfl⟩

/-- A channel whose header is at the end of the address space, with one
frame of no size. -/
def lastHeader : TegraIvc where
  rxBase := 0xffffffffffffff80
  txBase := 0x1000
  rPos := 0
  wPos := 0
  nframes := 1
  frameSize := 0

/-- It is accepted, and the address of its frame is 0. -/
theorem frame_past_end :
    tegraIvcInit 0xffffffffffffff80 0x1000 1 0 = .ok lastHeader
      ∧ (0xffffffffffffff80 : UInt64).toNat + 128 + 1 * 0 ≤ 2 ^ 64
      ∧ (0x1000 : UInt64).toNat + 128 + 1 * 0 ≤ 2 ^ 64
      ∧ (oneFrame lastHeader).reply (.readGetNextFrame, idlePeer)
        = .frame 0
      ∧ ¬(0xffffffffffffff80 : UInt64).toNat + 128
        ≤ (0 : UInt64).toNat := by
  refine ⟨?_, ?_, ?_, ?_, ?_⟩
  · rfl
  · decide
  · decide
  · decide +kernel
  · decide

end ProjectsLibs.Ivc
