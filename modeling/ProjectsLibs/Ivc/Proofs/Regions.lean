/-
Which parameters `tegra_ivc_init` accepts that it should not: the check
for an overlap leaves the headers out, and the sums that it makes may
wrap (`params_apart_iff`). The test is first written with natural numbers
(`overlapTest_iff`, `checkIvcParams_iff`), where the mistakes are visible,
and then compared with what the two channels occupy.

# How the two sides meet

Both the condition and the statement are symmetric in the two channels,
so everything is shown for bases in their order and then used with either
as the lower one. Two intervals of the same length are disjoint exactly
if one ends before the other begins, and with bases in their order it can
only be the lower one that does. What a channel occupies is an interval
of natural numbers; the addresses that are stored to are words, and that
they lie in the interval is a matter of not wrapping, which the end in
the address space gives.

The test of the code makes a sum of words. Where it does not wrap it says
that the frames, without the header, end before the other base; where it
wraps it says nothing. The three ways to slip are read off from there.
-/
import ProjectsLibs.Ivc.Regions
import ProjectsLibs.Ivc.Proofs.Hostile

namespace ProjectsLibs.Ivc

variable {ivc : TegraIvc} {base other : UInt64}

/-- What is stored to through a channel belongs to it. -/
theorem StoresTo.occupies {a : UInt64} (h : StoresTo ivc base a)
    (hfits : ivc.nframes.toNat * ivc.frameSize.toNat < 2 ^ 32)
    (hends : base.toNat + channelSize ivc.nframes ivc.frameSize ≤ 2 ^ 64) :
    Occupies ivc base a.toNat := by
  unfold Occupies channelSize channelHeaderSize at *
  cases h with
  | @header w k hw hk =>
      have hadd : ∀ n : UInt64, n.toNat ≤ 64 →
          (base + n + UInt64.ofNat k).toNat
            = base.toNat + n.toNat + k := by
        intro n hn
        rw [UInt64.toNat_add, UInt64.toNat_add, UInt64.toNat_ofNat']
        omega
      rcases hw with hw | hw | hw
      · have hzero := hadd 0 (by decide)
        rw [UInt64.add_zero] at hzero
        rw [hw, wCountAddr, hzero]
        simp only [UInt64.toNat_zero]
        omega
      · rw [hw, stateAddr, hadd 4 (by decide)]
        show _ ≤ base.toNat + 4 + k ∧ base.toNat + 4 + k < _
        omega
      · rw [hw, rCountAddr, hadd 64 (by decide)]
        show _ ≤ base.toNat + 64 + k ∧ base.toNat + 64 + k < _
        omega
  | @frame frame addr k haddr hk =>
      have hframe : frame.toNat < ivc.nframes.toNat := by
        unfold tegraIvcFrameAddr at haddr
        split at haddr
        · cases haddr
        · next hlt =>
            rw [UInt32.le_iff_toNat_le] at hlt
            omega
      have hsize : ivc.frameSize ≠ 0 := by
        rintro hz
        rw [hz] at hk
        cases hk
      obtain ⟨hlow, hhigh⟩ := frameAddr_inside hfits (by omega)
        (.inl hsize) hframe haddr
      have hadd : (addr + UInt64.ofNat k).toNat = addr.toNat + k := by
        rw [UInt64.toNat_add, UInt64.toNat_ofNat']
        omega
      rw [hadd]
      omega

/-- Stores stay in their channel, so they spare one that is disjoint. -/
theorem spares_of_disjoint
    (hfits : ivc.nframes.toNat * ivc.frameSize.toNat < 2 ^ 32)
    (hends : base.toNat + channelSize ivc.nframes ivc.frameSize ≤ 2 ^ 64)
    (hdisj : ∀ a, Occupies ivc base a → ¬Occupies ivc other a) :
    Spares ivc base other := by
  intro mem a v hstore i hi
  apply Function.update_of_ne
  rintro rfl
  exact hdisj _ (hstore.occupies hfits hends) hi

/-- Two channels of the same size have no byte in common exactly if one
ends before the other. -/
theorem disjoint_iff :
    (∀ a, Occupies ivc base a → ¬Occupies ivc other a)
      ↔ base.toNat + channelSize ivc.nframes ivc.frameSize ≤ other.toNat
        ∨ other.toNat + channelSize ivc.nframes ivc.frameSize
          ≤ base.toNat := by
  unfold Occupies channelSize channelHeaderSize
  constructor
  · intro hdisj
    by_contra hnot
    have hcommon := hdisj (max base.toNat other.toNat)
    omega
  · intro h a ha hb
    omega

/-- The regions are apart if neither goes beyond the end of the address
space and no address is in both. -/
theorem Apart.of_ends
    (hfits : ivc.nframes.toNat * ivc.frameSize.toNat < 2 ^ 32)
    (hrx : ivc.rxBase.toNat + channelSize ivc.nframes ivc.frameSize
      ≤ 2 ^ 64)
    (htx : ivc.txBase.toNat + channelSize ivc.nframes ivc.frameSize
      ≤ 2 ^ 64)
    (hdisj : ∀ a, Occupies ivc ivc.rxBase a →
      ¬Occupies ivc ivc.txBase a) : Apart ivc where
  rx_ends := hrx
  tx_ends := htx
  disjoint := hdisj
  rx_stores := spares_of_disjoint hfits hrx hdisj
  tx_stores := spares_of_disjoint hfits htx fun a ha hb => hdisj a hb ha

/-- Channels whose bases are in this order are apart exactly if the second
begins behind the first and ends in the address space. -/
theorem apart_iff_ordered (ivc : TegraIvc) {low high : UInt64}
    (hfits : ivc.nframes.toNat * ivc.frameSize.toNat < 2 ^ 32)
    (hbases : ivc.rxBase = low ∧ ivc.txBase = high
      ∨ ivc.rxBase = high ∧ ivc.txBase = low)
    (hle : low.toNat ≤ high.toNat) :
    Apart ivc ↔ low.toNat + channelSize ivc.nframes ivc.frameSize
        ≤ high.toNat
      ∧ high.toNat + channelSize ivc.nframes ivc.frameSize ≤ 2 ^ 64 := by
  have hpos : 0 < channelSize ivc.nframes ivc.frameSize :=
    Nat.lt_of_lt_of_le (by decide) (Nat.le_add_right channelHeaderSize _)
  have hnat : ivc.rxBase.toNat = low.toNat ∧ ivc.txBase.toNat = high.toNat
      ∨ ivc.rxBase.toNat = high.toNat ∧ ivc.txBase.toNat = low.toNat := by
    rcases hbases with ⟨hr, ht⟩ | ⟨hr, ht⟩
    · exact .inl ⟨congrArg _ hr, congrArg _ ht⟩
    · exact .inr ⟨congrArg _ hr, congrArg _ ht⟩
  constructor
  · intro h
    have hdisj := disjoint_iff.1 h.disjoint
    have hrx := h.rx_ends
    have htx := h.tx_ends
    omega
  · rintro ⟨hbehind, hends⟩
    refine Apart.of_ends hfits ?_ ?_ (disjoint_iff.2 ?_)
    · omega
    · omega
    · omega

/-- The overlap test on bases in their order: it passes if the frames of
the first end before the second, and also if the sum wraps. -/
theorem overlapTest_iff {low high : UInt64} {nframes frameSize : UInt32}
    (hfits : nframes.toNat * frameSize.toNat < 2 ^ 32)
    (hle : low.toNat ≤ high.toNat) :
    low + (frameSize * nframes).toUInt64 ≤ high
      ↔ low.toNat + nframes.toNat * frameSize.toNat ≤ high.toNat
        ∨ 2 ^ 64 ≤ low.toNat + nframes.toNat * frameSize.toNat := by
  have hprod : (frameSize * nframes).toNat
      = nframes.toNat * frameSize.toNat := by
    rw [UInt32.toNat_mul, Nat.mul_comm, Nat.mod_eq_of_lt hfits]
  have hlow := low.toNat_lt
  have hhigh := high.toNat_lt
  rw [UInt64.le_iff_toNat_le, UInt64.toNat_add, UInt32.toNat_toUInt64,
    hprod]
  omega

/-- What `check_ivc_params` accepts. -/
theorem checkIvcParams_iff (rxBase txBase : UInt64)
    (nframes frameSize : UInt32) :
    checkIvcParams rxBase txBase nframes frameSize = true
      ↔ Shaped rxBase txBase nframes frameSize
        ∧ if rxBase < txBase
          then rxBase + (frameSize * nframes).toUInt64 ≤ txBase
          else txBase + (frameSize * nframes).toUInt64 ≤ rxBase := by
  constructor
  · intro h
    obtain ⟨hfits, hrx, htx⟩ := checkIvcParams_true h
    unfold checkIvcParams at h
    split at h
    · cases h
    split at h
    · cases h
    split at h
    · cases h
    · rename_i hframe
      refine ⟨⟨hfits, hrx, htx, not_not.1 hframe⟩, ?_⟩
      split
      · next hlt =>
          rw [if_pos hlt] at h
          exact of_decide_eq_true h
      · next hle =>
          rw [if_neg hle] at h
          exact of_decide_eq_true h
  · rintro ⟨hshape, htest⟩
    have hprod : nframes.toNat * frameSize.toNat < 2 ^ 64 :=
      Nat.lt_trans hshape.frames (by decide)
    have hfits : ¬0x100000000 ≤ nframes.toUInt64 * frameSize.toUInt64 := by
      rw [UInt64.not_le, UInt64.lt_iff_toNat_lt, UInt64.toNat_mul,
        UInt32.toNat_toUInt64, UInt32.toNat_toUInt64,
        Nat.mod_eq_of_lt hprod]
      exact hshape.frames
    unfold checkIvcParams
    rw [if_neg hfits,
      if_neg (not_or.2 ⟨not_not.2 hshape.rx, not_not.2 hshape.tx⟩),
      if_neg (not_not.2 hshape.frame)]
    split
    · next hlt =>
        rw [if_pos hlt] at htest
        exact decide_eq_true htest
    · next hle =>
        rw [if_neg hle] at htest
        exact decide_eq_true htest

/-- Accepted parameters, on bases in their order: the channels are apart
unless the overlap test slipped. -/
theorem apart_iff_noSlip (ivc : TegraIvc) {low high : UInt64}
    (hfits : ivc.nframes.toNat * ivc.frameSize.toNat < 2 ^ 32)
    (hbases : ivc.rxBase = low ∧ ivc.txBase = high
      ∨ ivc.rxBase = high ∧ ivc.txBase = low)
    (hle : low.toNat ≤ high.toNat)
    (htest : low + (ivc.frameSize * ivc.nframes).toUInt64 ≤ high) :
    Apart ivc ↔ ¬Slips low high ivc.nframes ivc.frameSize := by
  rw [apart_iff_ordered ivc hfits hbases hle]
  have htest := (overlapTest_iff hfits hle).1 htest
  unfold Slips channelSize channelHeaderSize
  dsimp only
  omega

/-- `tegra_ivc_init` accepts only channels that are apart exactly if the
parameters do not pass the tests for the sizes, or are not among those
that the overlap test lets through by mistake. -/
theorem params_apart_iff (rxBase txBase : UInt64)
    (nframes frameSize : UInt32) :
    (∀ ivc, tegraIvcInit rxBase txBase nframes frameSize = .ok ivc →
        Apart ivc)
      ↔ ¬(Shaped rxBase txBase nframes frameSize
          ∧ if rxBase < txBase then Slips rxBase txBase nframes frameSize
            else Slips txBase rxBase nframes frameSize) := by
  have hchecked := checkIvcParams_iff rxBase txBase nframes frameSize
  unfold tegraIvcInit
  split
  · next hcheck =>
      obtain ⟨hshape, htest⟩ := hchecked.1 hcheck
      have happly : (∀ ivc, Except.ok (ε := Errno)
          (⟨rxBase, txBase, 0, 0, nframes, frameSize⟩ : TegraIvc)
            = .ok ivc →
            Apart ivc)
              ↔ Apart ⟨rxBase, txBase, 0, 0, nframes, frameSize⟩ :=
        ⟨fun h => h _ rfl, fun h ivc hivc => by cases hivc; exact h⟩
      rw [happly, and_iff_right hshape]
      split
      · next hlt =>
          rw [if_pos hlt] at htest
          exact apart_iff_noSlip ⟨rxBase, txBase, 0, 0, nframes, frameSize⟩
            hshape.frames (.inl ⟨rfl, rfl⟩)
            (Nat.le_of_lt (UInt64.lt_iff_toNat_lt.1 hlt)) htest
      · next hge =>
          rw [if_neg hge] at htest
          exact apart_iff_noSlip ⟨rxBase, txBase, 0, 0, nframes, frameSize⟩
            hshape.frames (.inr ⟨rfl, rfl⟩)
            (UInt64.le_iff_toNat_le.1 (UInt64.not_lt.1 hge)) htest
  · next hcheck =>
      -- what is rejected does not slip: a sum that wraps would pass
      refine iff_of_true (fun ivc hivc => by cases hivc) ?_
      rintro ⟨hshape, hslips⟩
      refine hcheck (hchecked.2 ⟨hshape, ?_⟩)
      split
      · next hlt =>
          rw [if_pos hlt] at hslips
          refine (overlapTest_iff hshape.frames
            (Nat.le_of_lt (UInt64.lt_iff_toNat_lt.1 hlt))).2 ?_
          rcases hslips with ⟨h, -⟩ | ⟨h, -⟩ | h
          · exact .inl h
          · exact .inl h
          · exact .inr h
      · next hge =>
          rw [if_neg hge] at hslips
          refine (overlapTest_iff hshape.frames
            (UInt64.le_iff_toNat_le.1 (UInt64.not_lt.1 hge))).2 ?_
          rcases hslips with ⟨h, -⟩ | ⟨h, -⟩ | h
          · exact .inl h
          · exact .inl h
          · exact .inr h

/-- Two channels with one frame of 64 bytes each are accepted 64 bytes
apart: the read count of the first is the write count of the second. -/
theorem headers_overlap :
    tegraIvcInit 0x1000 0x1040 1 64
        = .ok ⟨0x1000, 0x1040, 0, 0, 1, 64⟩
      ∧ rCountAddr 0x1000 = wCountAddr 0x1040
      ∧ ¬Apart ⟨0x1000, 0x1040, 0, 0, 1, 64⟩ := by
  refine ⟨by decide, by decide, fun h => ?_⟩
  refine h.disjoint 0x1040 ?_ ?_
  · unfold Occupies channelSize channelHeaderSize
    decide
  · unfold Occupies channelSize channelHeaderSize
    decide

end ProjectsLibs.Ivc
