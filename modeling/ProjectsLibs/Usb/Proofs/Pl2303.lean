/-
The two encoders of a line coding agree on the rates that the PL2303
driver encodes right, and on no others (`encodersAgree_iff`).

The driver writes the lowest byte of the rate where the highest belongs,
and in the place of the lowest it writes the highest without moving it
down, which leaves nothing of it (`payload_eq`).

# The comparison

Both payloads are seven bytes, and four of them are functions of the
rate. The payload is first computed for any setting, as the bytes of the
rate in the places where the driver puts them; then each of the
properties is compared with the condition by itself. The lowest byte of
the rate appears where the highest is expected and the place of the
lowest is empty, so the bytes agree exactly if both of these bytes are
zero, and this is what makes the decoded rate right, too. Settings with
rates that fit are told apart since the line coding tells them apart.
-/
import ProjectsLibs.Usb.Pl2303
import ProjectsLibs.Usb.Proofs.CdcMgmt

namespace ProjectsLibs.Usb

open Lib

variable {dma : Nat → UInt8} {r : Accepted} {settings : Set Accepted}

-- =========================================================== the payload

/-- Byte `k` of the rate. -/
def rateByte (r : Accepted) (k : Nat) : UInt8 :=
  UInt8.ofNat (r.setting.bps.toNat / 256 ^ k)

/-- The parity of an accepted setting is always written. -/
theorem pl2303Parity_acm (r : Accepted) (before : UInt8) :
    pl2303Parity r.setting.parity before = r.setting.parity.acm := by
  cases hparity : r.setting.parity with
  | none => rfl
  | odd => rfl
  | even => rfl
  | other => exact absurd hparity r.accepted

/-- A byte moved down and cut off. -/
theorem toUInt8_shift (x n : UInt32) {k : Nat} (hk : k < 4)
    (hn : n.toNat = 8 * k) :
    ((x >>> n) &&& 0xff).toUInt8 = UInt8.ofNat (x.toNat / 256 ^ k) := by
  apply UInt8.toNat.inj
  have hmask : ((x >>> n) &&& 0xff).toNat = (x >>> n).toNat % 256 := by
    rw [UInt32.toNat_and]
    exact Nat.and_two_pow_sub_one_eq_mod (x >>> n).toNat 8
  have hshift : (x >>> n).toNat = x.toNat / 256 ^ k := by
    rw [UInt32.toNat_shiftRight, hn, Nat.mod_eq_of_lt (by omega),
      Nat.shiftRight_eq_div_pow, Nat.pow_mul]
  rw [UInt32.toNat_toUInt8, hmask, hshift]
  exact Nat.mod_mod _ 256

/-- The highest byte, not moved down. -/
theorem toUInt8_high (x : UInt32) : (x &&& 0xff000000).toUInt8 = 0 := by
  rw [UInt32.toUInt8_and]
  exact UInt8.and_zero

/-- The request carries the seven bytes of the buffer. -/
theorem payload_buf (dma : Nat → UInt8) (r : Accepted) :
    payload dma r = [pl2303Buf dma r.setting 0, pl2303Buf dma r.setting 1,
      pl2303Buf dma r.setting 2, pl2303Buf dma r.setting 3,
      pl2303Buf dma r.setting 4, pl2303Buf dma r.setting 5,
      pl2303Buf dma r.setting 6] := rfl

/-- The payload of an accepted setting. -/
theorem payload_eq (dma : Nat → UInt8) (r : Accepted) :
    payload dma r = [0, rateByte r 1, rateByte r 2, rateByte r 0,
      r.setting.stop, r.setting.parity.acm, r.setting.charSize] := by
  have h₀ : pl2303Buf dma r.setting 0 = 0 := toUInt8_high r.setting.bps
  have h₁ : pl2303Buf dma r.setting 1 = rateByte r 1 :=
    toUInt8_shift r.setting.bps 8 (show 1 < 4 by decide) rfl
  have h₂ : pl2303Buf dma r.setting 2 = rateByte r 2 :=
    toUInt8_shift r.setting.bps 16 (show 2 < 4 by decide) rfl
  have h₃ : pl2303Buf dma r.setting 3 = rateByte r 0 := by
    have h := toUInt8_shift r.setting.bps 0 (show 0 < 4 by decide) rfl
    rw [UInt32.shiftRight_zero] at h
    exact h
  have h₅ : pl2303Buf dma r.setting 5 = r.setting.parity.acm :=
    pl2303Parity_acm r (dma 5)
  rw [payload_buf, h₀, h₁, h₂, h₃, h₅]
  rfl

/-- The line coding in memory. -/
theorem coding_bytes (r : Accepted) :
    r.setting.coding.bytes = [rateByte r 0, rateByte r 1, rateByte r 2,
      rateByte r 3, r.setting.stop, r.setting.parity.acm,
      r.setting.charSize] := by
  simp [LineSetting.coding, AcmLineCoding.bytes, leBytes, rateByte,
    Nat.div_div_eq_div_mul]

/-- What the payload is decoded to. -/
theorem decoded_rate (r : Accepted) :
    (AcmLineCoding.ofBytes (payload dma r)).dwDTERate.toNat
      = 256 * (rateByte r 1).toNat + 256 ^ 2 * (rateByte r 2).toNat
        + 256 ^ 3 * (rateByte r 0).toNat := by
  have h₀ := (rateByte r 0).toNat_lt
  have h₁ := (rateByte r 1).toNat_lt
  have h₂ := (rateByte r 2).toNat_lt
  rw [payload_eq]
  simp only [AcmLineCoding.ofBytes, List.take, leValue]
  rw [UInt32.toNat_ofNat', Nat.mod_eq_of_lt]
  · simp only [UInt8.toNat_zero]
    omega
  · simp only [UInt8.toNat_zero]
    omega

-- ========================================================= the condition

/-- The byte in place `k` of the rate, least significant first. -/
theorem toNat_rateByte (r : Accepted) (k : Nat) :
    (rateByte r k).toNat = r.setting.bps.toNat / 256 ^ k % 256 := rfl

/-- A rate fits if its highest and lowest bytes are zero. -/
theorem rateFits_iff (r : Accepted) :
    RateFits r ↔ rateByte r 0 = 0 ∧ rateByte r 3 = 0 := by
  have hlt : r.setting.bps.toNat < 2 ^ 32 := r.setting.bps.toNat_lt
  rw [← UInt8.toNat_inj, ← UInt8.toNat_inj, toNat_rateByte, toNat_rateByte,
    RateFits]
  simp only [UInt8.toNat_zero]
  omega

/-- The payload of one setting is its line coding if the rate fits. -/
theorem payload_eq_bytes_iff (dma : Nat → UInt8) (r : Accepted) :
    payload dma r = r.setting.coding.bytes ↔ RateFits r := by
  rw [payload_eq, coding_bytes, rateFits_iff]
  simp only [List.cons.injEq, and_true, true_and]
  constructor
  · intro ⟨hlow, hhigh⟩
    exact ⟨hlow.symm, hhigh.symm.trans hlow.symm⟩
  · intro ⟨hlow, hhigh⟩
    exact ⟨hlow.symm, hlow.trans hhigh.symm⟩

/-- And it is decoded to the rate that was requested only then. -/
theorem decoded_rate_iff (dma : Nat → UInt8) (r : Accepted) :
    (AcmLineCoding.ofBytes (payload dma r)).dwDTERate = r.setting.bps
      ↔ RateFits r := by
  have hlt : r.setting.bps.toNat < 2 ^ 32 := r.setting.bps.toNat_lt
  rw [← UInt32.toNat_inj, decoded_rate, toNat_rateByte, toNat_rateByte,
    toNat_rateByte, RateFits]
  omega

/-- The accepted parities are told apart. -/
theorem SerialParity.acm_inj {p q : SerialParity} (hp : p ≠ .other)
    (hq : q ≠ .other) (h : p.acm = q.acm) : p = q := by
  cases p <;> cases q <;> simp_all [acm]

/-- The line coding in memory tells settings apart. -/
theorem coding_bytes_inj {r r' : Accepted}
    (h : r.setting.coding.bytes = r'.setting.coding.bytes) : r = r' := by
  have hcoding : r.setting.coding = r'.setting.coding := by
    rw [← AcmLineCoding.ofBytes_bytes r.setting.coding, h,
      AcmLineCoding.ofBytes_bytes]
  obtain ⟨⟨bps, charSize, parity, stop⟩, hacc⟩ := r
  obtain ⟨⟨bps', charSize', parity', stop'⟩, hacc'⟩ := r'
  simp only [LineSetting.coding, AcmLineCoding.mk.injEq] at hcoding
  obtain ⟨rfl, rfl, hparity, rfl⟩ := hcoding
  have hsame : parity = parity' := SerialParity.acm_inj hacc hacc' hparity
  subst hsame
  rfl

/-- The encoders agree on a set of settings, so that each gives its rate
back and no two are mistaken for each other, exactly if all rates of the
set fit. -/
theorem encodersAgree_iff (dma : Nat → UInt8) (settings : Set Accepted) :
    EncodersAgree dma settings ↔ ∀ r ∈ settings, RateFits r := by
  constructor
  · intro h r hr
    exact (payload_eq_bytes_iff dma r).1 (h.bytes r hr)
  · intro hfits
    have hbytes : ∀ r ∈ settings, payload dma r = r.setting.coding.bytes :=
      fun r hr => (payload_eq_bytes_iff dma r).2 (hfits r hr)
    refine ⟨hbytes, ?_, ?_⟩
    · intro r hr
      exact (decoded_rate_iff dma r).2 (hfits r hr)
    · intro r hr r' hr' heq
      rw [hbytes r hr, hbytes r' hr'] at heq
      exact coding_bytes_inj heq

/-- At 9600 baud, 8N1, the payload is not the line coding. -/
theorem encodersAgree_9600 :
    ¬EncodersAgree (fun _ => 0)
      {⟨⟨9600, 8, .none, 0⟩, by decide⟩} := by
  intro h
  have hpayload := h.bytes _ rfl
  exact absurd hpayload (by decide)

end ProjectsLibs.Usb
