/-
The capacity of a card is decoded from the response of the controller as
the register has it (`card_capacity`).

`slice_bits` reads any field of at most 32 bits (`sliceBits_testBit`), and
the shift of the response puts every bit of the register from the eighth on
in its place. Each product is then bounded by the widths of its fields.

# How a field is found

A field is followed bit by bit. `slice_bits` looks at the words in which
the field begins and ends; if they are two, the upper part is moved to
the top of the lower, and the mask cuts off what is above the field. With
the index of a bit given, the shifts are additions of indices, and the
two cases are closed by arithmetic. Equality of numbers comes from there.

The capacity then needs bounds only: each field is below a power of two
by its width, and the product of the bounds is within the type that the
code computes in. That the types are wide enough is part of what is
shown, for every content of the register.
-/
import Mathlib.Tactic.Linarith
import Mathlib.Tactic.Positivity
import ProjectsLibs.Sdhc.Csd

namespace ProjectsLibs.Sdhc

open Lib

variable {val response : Nat → UInt32} {reg : BitVec 128}

-- ================================================================ shifts

theorem shl_one {n : Nat} (hn : n < 32) : shl 1 n = some (mask n) := by
  have hfits : (1 : UInt32).toNat * 2 ^ n < 2 ^ 32 := by
    show 1 * 2 ^ n < 2 ^ 32
    rw [Nat.one_mul]
    exact Nat.pow_lt_pow_right (by decide) hn
  unfold shl
  rw [if_pos ⟨hn, hfits⟩]
  rfl

/-- One less than a power of two masks the bits below it. -/
theorem mask_sub_one {n : Nat} (hn : n < 32) : mask n - 1 = low n := by
  have hpos : 1 ≤ 2 ^ n := Nat.one_le_two_pow
  have hlt : 2 ^ n < 2 ^ 32 := Nat.pow_lt_pow_right (by decide) hn
  have hle : (1 : UInt32) ≤ mask n := by
    rw [UInt32.le_iff_toNat_le, toNat_mask hn]
    exact hpos
  apply UInt32.toNat.inj
  rw [UInt32.toNat_sub_of_le _ _ hle, toNat_mask hn]
  show 2 ^ n - 1 = (2 ^ n - 1) % 2 ^ 32
  exact (Nat.mod_eq_of_lt (by omega)).symm

/-- The bottom of a word moved to the top. -/
theorem shl_low (v : UInt32) {n k : Nat} (hk : k < 32) (hfit : k + n ≤ 32) :
    shl (v &&& low n) k = some ((v &&& low n) <<< UInt32.ofNat k) := by
  have hsmall : (v &&& low n).toNat < 2 ^ n := by
    apply toNat_lt_of_testBit
    intro b hb
    rw [testBit_and, testBit_low (by omega),
      decide_eq_false (Nat.not_lt.2 hb), Bool.and_false]
  have hfits : (v &&& low n).toNat * 2 ^ k < 2 ^ 32 :=
    calc (v &&& low n).toNat * 2 ^ k
        < 2 ^ n * 2 ^ k := Nat.mul_lt_mul_of_pos_right hsmall (by positivity)
      _ = 2 ^ (n + k) := (Nat.pow_add ..).symm
      _ ≤ 2 ^ 32 := Nat.pow_le_pow_right (by decide) (by omega)
  unfold shl
  rw [if_pos ⟨hk, hfits⟩]

-- ============================================================ slice_bits

/-- `slice_bits` reads a field of at most 32 bits, inside of the four
words, with every shift in range. -/
theorem sliceBits_testBit (val : Nat → UInt32) {start size : Nat}
    (hpos : 0 < size) (hle : size ≤ 32) (hin : start + size ≤ 128) :
    ∃ r, sliceBits val start size = some r
      ∧ ∀ b < 32, testBit r b
        = (decide (b < size) && bitAt val (start + b)) := by
  obtain ⟨i, lo, hstart, hlo⟩ : ∃ i lo, start = 32 * i + lo ∧ lo < 32 :=
    ⟨start / 32, start % 32, by omega, by omega⟩
  have hidx : start / 32 = i := by omega
  have hmod : start % 32 = lo := by omega
  have hword : word val i = some (val i) := if_pos (by omega)
  have hguard : (guard (size ≤ 32) : Option Unit) = some () := if_pos hle
  have hshr : ∀ w, shr w lo = some (w >>> UInt32.ofNat lo) :=
    fun w => if_pos hlo
  simp only [sliceBits, hguard, hidx, hmod, hword, Option.bind_eq_bind,
    Option.bind_some]
  subst hstart
  rcases Nat.lt_trichotomy (lo + size) 32 with hlt | heq | hgt
  · -- inside of the word
    have hhi : (32 * i + lo + size) % 32 = lo + size := by omega
    rw [hhi, if_neg (by omega), if_neg (by omega), if_pos (by omega),
      shl_one hlt, Option.bind_some, mask_sub_one hlt, hshr]
    exact ⟨_, rfl, fun b _ => testBit_within val hpos (by omega)⟩
  · -- up to the end of the word
    have hhi : (32 * i + lo + size) % 32 = 0 := by omega
    have hfield : ∀ b < 32, testBit (val i >>> UInt32.ofNat lo) b
        = (decide (b < size) && bitAt val (32 * i + lo + b)) := by
      intro b _
      rw [testBit_shiftRight _ hlo]
      by_cases hb : b < size
      · rw [decide_eq_true hb, Bool.true_and]
        exact (bitAt_eq val (by omega) (by omega)).symm
      · rw [decide_eq_false hb, Bool.false_and]
        exact testBit_of_le _ (by omega)
    rw [hhi]
    by_cases hzero : lo = 0
    · rw [if_pos ⟨rfl, hzero⟩]
      refine ⟨_, rfl, ?_⟩
      intro b hb
      rw [← hfield b hb, testBit_shiftRight _ hlo, hzero, Nat.zero_add]
    · rw [if_neg (by omega), if_pos ⟨rfl, hzero⟩, hshr]
      exact ⟨_, rfl, hfield⟩
  · -- into the next word
    have hnext : word val (i + 1) = some (val (i + 1)) := if_pos (by omega)
    have hhi : (32 * i + lo + size) % 32 = lo + size - 32 := by omega
    rw [hhi, if_neg (by omega), if_neg (by omega), if_neg (by omega), hnext,
      Option.bind_some, shl_one (by omega), Option.bind_some, hshr,
      Option.bind_some, mask_sub_one (by omega), shl_low _ (by omega)
        (by omega), Option.bind_some]
    exact ⟨_, rfl, fun b hb =>
      testBit_across val (by omega) hlo (by omega) hle hb⟩

/-- A field of a 128-bit value: what `slice_bits` returns is the value
moved down and cut off. -/
theorem sliceBits_value (val : Nat → UInt32) {start size : Nat}
    (hpos : 1 ≤ size) (hle : size ≤ 32) (hin : start + size ≤ 128) :
    ∃ r, sliceBits val start size = some r
      ∧ r.toNat = (wordsValue val 4 / 2 ^ start) % 2 ^ size := by
  obtain ⟨r, hr, hbits⟩ := sliceBits_testBit val hpos hle hin
  refine ⟨r, hr, ?_⟩
  have hsmall : (wordsValue val 4 / 2 ^ start) % 2 ^ size < 2 ^ 32 :=
    Nat.lt_of_lt_of_le (Nat.mod_lt _ (Nat.two_pow_pos size))
      (Nat.pow_le_pow_right (by decide) hle)
  apply toNat_eq_of_testBit hsmall
  intro b hb
  rw [hbits b hb, Nat.testBit_mod_two_pow, Nat.testBit_div_two_pow,
    testBit_wordsValue]
  by_cases hfield : b < size
  · have hword : b + start < 32 * 4 := by omega
    rw [decide_eq_true hfield, decide_eq_true hword, Nat.add_comm start b]
    simp
  · rw [decide_eq_false hfield, Bool.false_and, Bool.false_and]

/-- A field of 32 bits over the boundary of two words: the serial number of
a card. -/
theorem sliceBits_value_serial :
    ∃ r, sliceBits (fun i => if i = 0 then 0xab000000 else 0x00cdef01) 24 32
        = some r
      ∧ r.toNat
        = (wordsValue (fun i => if i = 0 then 0xab000000 else 0x00cdef01) 4
            / 2 ^ 24) % 2 ^ 32 :=
  sliceBits_value _ (by decide) (by decide) (by decide)

-- ========================================================== the register

/-- A word as the shift of the response leaves it. -/
theorem bitAt_shiftResponse (hdel : Delivers reg response) {b : Nat}
    (hlow : 8 ≤ b) (hb : b < 128) :
    bitAt (shiftResponse response) b = reg.getLsbD b := by
  have hsrc : bitAt response (b - 8) = reg.getLsbD b := by
    rw [hdel (b - 8) (by omega), Nat.sub_add_cancel hlow]
  rw [← hsrc]
  have hshl : ∀ i, 8 ≤ b % 32 →
      testBit (response i <<< (8 : UInt32)) (b % 32)
        = testBit (response i) (b % 32 - 8) := by
    intro i hge
    rw [show (8 : UInt32) = UInt32.ofNat 8 from rfl,
      testBit_shiftLeft _ (by decide) (Nat.mod_lt _ (by decide)),
      decide_eq_true hge, Bool.true_and]
  by_cases hge : 8 ≤ b % 32
  · rw [bitAt_eq response (i := b / 32) (k := b % 32 - 8) (by omega)
      (by omega)]
    show testBit (shiftResponse response (b / 32)) (b % 32) = _
    cases hi : b / 32 with
    | zero => exact hshl 0 hge
    | succ i =>
        show testBit (response (i + 1) <<< (8 : UInt32)
          ||| response i >>> UInt32.ofNat 24) (b % 32) = _
        rw [testBit_or, hshl _ hge, testBit_shiftRight _ (by decide),
          testBit_of_le (response i) (show 32 ≤ 24 + b % 32 by omega),
          Bool.or_false]
  · -- carried over from the word before
    obtain ⟨i, hi⟩ : ∃ i, b / 32 = i + 1 := ⟨b / 32 - 1, by omega⟩
    rw [bitAt_eq response (i := i) (k := 24 + b % 32) (by omega)
      (by omega)]
    show testBit (shiftResponse response (b / 32)) (b % 32) = _
    rw [hi]
    show testBit (response (i + 1) <<< UInt32.ofNat 8
      ||| response i >>> UInt32.ofNat 24) (b % 32) = _
    rw [testBit_or, testBit_shiftLeft _ (by decide) (by omega),
      decide_eq_false hge, Bool.false_and, Bool.false_or,
      testBit_shiftRight _ (by decide)]

/-- A field of `size` bits is below `2 ^ size`. -/
theorem field_lt (reg : BitVec 128) (start size : Nat) :
    field reg start size < 2 ^ size := (reg.extractLsb' start size).isLt

/-- A field above the checksum is decoded as the register has it. -/
theorem sliceBits_field (card : CardRegs) (hdel : Delivers reg response)
    (start size : Nat) (hlow : 8 ≤ start) (hpos : 0 < size)
    (hle : size ≤ 32) (hin : start + size ≤ 128) :
    ∃ r, sliceBits (registerCsd card response).rawCsd start size = some r
      ∧ r.toNat = field reg start size := by
  obtain ⟨r, hr, hbits⟩ := sliceBits_testBit
    (registerCsd card response).rawCsd hpos hle hin
  refine ⟨r, hr, ?_⟩
  apply toNat_eq_of_testBit
  · exact Nat.lt_of_lt_of_le (field_lt reg start size)
      (Nat.pow_le_pow_right (by decide) hle)
  · intro b hb
    have hfield : (field reg start size).testBit b
        = (decide (b < size) && reg.getLsbD (start + b)) := by
      unfold field
      rw [BitVec.testBit_toNat, BitVec.getLsbD_extractLsb']
    rw [hbits b hb, hfield]
    by_cases hbs : b < size
    · have hbit := bitAt_shiftResponse hdel (b := start + b) (by omega)
        (by omega)
      rw [← hbit]
      rfl
    · rw [decide_eq_false hbs, Bool.false_and, Bool.false_and]

-- ============================================================== capacity

/-- A value that is neither negative nor beyond 63 bits is not lost in a
signed 64-bit integer. -/
theorem longLong_ok {x : Int} (h0 : 0 ≤ x) (h : x < 2 ^ 63) :
    longLong x = some x := if_pos ⟨by omega, h⟩

/-- A byte keeps a small field. -/
theorem toNat_toUInt8 {r : UInt32} {n : Nat} (h : r.toNat = n)
    (hn : n < 256) : r.toUInt8.toNat = n := by
  rw [UInt32.toNat_toUInt8, h]
  exact Nat.mod_eq_of_lt hn

/-- The product for cards of version 1. -/
theorem capacity_v1 {c m l : Nat} (hc : c < 2 ^ 12) (hm : m < 2 ^ 3)
    (hl : l < 2 ^ 4) :
    (do
      let blocks ← longLong ((c : Int) + 1)
      let mult ← shl 1 (m + 2)
      let units ← longLong (blocks * mult.toNat)
      let len ← shl 1 l
      longLong (units * len.toNat))
      = some (((c : Int) + 1) * 2 ^ (m + 2) * 2 ^ l) := by
  have hmlt : m + 2 < 32 := by omega
  have hllt : l < 32 := by omega
  have hmpow : (2 : Int) ^ (m + 2) ≤ 2 ^ 9 :=
    pow_le_pow_right₀ (by decide) (by omega)
  have hlpow : (2 : Int) ^ l ≤ 2 ^ 15 :=
    pow_le_pow_right₀ (by decide) (by omega)
  have hmpos : (0 : Int) ≤ 2 ^ (m + 2) := by positivity
  have hlpos : (0 : Int) ≤ 2 ^ l := by positivity
  have hcle : (c : Int) + 1 ≤ 2 ^ 12 := by omega
  -- the largest fields give 2 to the power of 36, far below what overflows
  have hunits : ((c : Int) + 1) * 2 ^ (m + 2) ≤ 2 ^ 12 * 2 ^ 9 :=
    mul_le_mul hcle hmpow hmpos (by decide)
  have hbytes : ((c : Int) + 1) * 2 ^ (m + 2) * 2 ^ l
      ≤ 2 ^ 12 * 2 ^ 9 * 2 ^ 15 :=
    mul_le_mul hunits hlpow hlpos (by decide)
  have hmask : ((mask (m + 2)).toNat : Int) = 2 ^ (m + 2) := by
    rw [toNat_mask hmlt]
    push_cast
    rfl
  have hmaskl : ((mask l).toNat : Int) = 2 ^ l := by
    rw [toNat_mask hllt]
    push_cast
    rfl
  -- no step of the computation overflows, so each returns its value
  simp only [Option.bind_eq_bind]
  rw [longLong_ok (by omega) (by omega), Option.bind_some, shl_one hmlt,
    Option.bind_some, hmask,
    longLong_ok (by positivity) (Int.lt_of_le_of_lt hunits (by decide)),
    Option.bind_some, shl_one hllt, Option.bind_some, hmaskl,
    longLong_ok (by positivity) (Int.lt_of_le_of_lt hbytes (by decide))]

/-- The product for the later cards. -/
theorem capacity_v2 {c : Nat} (hc : c < 2 ^ 22) :
    (do
      let blocks ← longLong ((c : Int) + 1)
      let sectors ← longLong (blocks * 512)
      longLong (sectors * 1024))
      = some (((c : Int) + 1) * (512 * 1024)) := by
  have hcle : (c : Int) + 1 ≤ 2 ^ 22 := by omega
  simp only [Option.bind_eq_bind]
  rw [longLong_ok (by omega) (by omega), Option.bind_some,
    longLong_ok (by omega) (by omega), Option.bind_some,
    longLong_ok (by omega) (by omega), Int.mul_assoc]

/-- What is decoded is what the register says. -/
structure Decodes (reg : BitVec 128) (csd : Csd) : Prop where
  version : csd.structure'.toNat = field reg 126 2
  readBlLen : csd.readBlLen.toNat = field reg 80 4
  v1 : csd.structure' = 0 → csd.cSize.toNat = field reg 62 12
    ∧ csd.cSizeMult.toNat = field reg 47 3
  v2 : csd.structure' = 1 → csd.cSize.toNat = field reg 48 22

/-- The fields that `mmc_decode_csd` takes from the response words are the
fields of the register, for both structures of it; any other structure is
refused. -/
theorem decode_csd (card : CardRegs) (hdel : Delivers reg response) :
    ∃ r, mmcDecodeCsd (registerCsd card response) = some r
      ∧ (r = none → field reg 126 2 ≠ 0 ∧ field reg 126 2 ≠ 1)
      ∧ ∀ csd, r = some csd → Decodes reg csd
        ∧ (csd.structure' = 0 ∨ csd.structure' = 1) := by
  have hslice := sliceBits_field card hdel
  obtain ⟨s, hs, hsv⟩ := hslice 126 2 (by decide) (by decide) (by decide)
    (by decide)
  obtain ⟨c₁, hc₁, hcv₁⟩ := hslice 62 12 (by decide) (by decide)
    (by decide) (by decide)
  obtain ⟨c₂, hc₂, hcv₂⟩ := hslice 48 22 (by decide) (by decide)
    (by decide) (by decide)
  obtain ⟨m, hm, hmv⟩ := hslice 47 3 (by decide) (by decide) (by decide)
    (by decide)
  obtain ⟨l, hl, hlv⟩ := hslice 80 4 (by decide) (by decide) (by decide)
    (by decide)
  obtain ⟨t, ht, -⟩ := hslice 96 8 (by decide) (by decide) (by decide)
    (by decide)
  -- the fields are stored in 8 bits, which holds each of them
  have hsn : s.toUInt8.toNat = field reg 126 2 :=
    toNat_toUInt8 hsv (Nat.lt_trans (field_lt reg 126 2) (by decide))
  have hmn : m.toUInt8.toNat = field reg 47 3 :=
    toNat_toUInt8 hmv (Nat.lt_trans (field_lt reg 47 3) (by decide))
  have hln : l.toUInt8.toNat = field reg 80 4 :=
    toNat_toUInt8 hlv (Nat.lt_trans (field_lt reg 80 4) (by decide))
  unfold mmcDecodeCsd
  simp only [hs, Option.bind_eq_bind, Option.bind_some]
  by_cases h0 : s.toUInt8 = 0
  · rw [if_pos h0]
    simp only [hc₁, hm, hl, ht, Option.bind_some, Option.pure_def]
    refine ⟨_, rfl, (fun h => nomatch h), ?_⟩
    rintro csd ⟨⟩
    refine ⟨⟨hsn, hln, fun _ => ⟨hcv₁, hmn⟩, ?_⟩, Or.inl h0⟩
    intro h1
    rw [h0] at h1
    cases h1
  · rw [if_neg h0]
    by_cases h1 : s.toUInt8 = 1
    · rw [if_pos h1]
      simp only [hc₂, hl, ht, Option.bind_some, Option.pure_def]
      refine ⟨_, rfl, (fun h => nomatch h), ?_⟩
      rintro csd ⟨⟩
      exact ⟨⟨hsn, hln, fun h => absurd h h0, fun _ => hcv₂⟩,
        Or.inr h1⟩
    · rw [if_neg h1, ← hsn]
      refine ⟨none, rfl, fun _ => ⟨?_, ?_⟩, (fun csd h => nomatch h)⟩
      · exact fun h => h0 (UInt8.toNat.inj h)
      · exact fun h => h1 (UInt8.toNat.inj h)

/-- The capacity of a card is what its register says, whatever the
register is, and nothing overflows on the way. -/
theorem card_capacity (card : CardRegs) (hdel : Delivers reg response) :
    mmcCardCapacity (registerCsd card response) = some (capacity reg) := by
  obtain ⟨r, hr, hother, hsome⟩ := decode_csd card hdel
  unfold mmcCardCapacity capacity
  rw [hr]
  cases r with
  | none =>
      obtain ⟨h0, h1⟩ := hother rfl
      rw [if_neg h0, if_neg h1]
      rfl
  | some csd =>
      obtain ⟨hD, hversion⟩ := hsome csd rfl
      rcases hversion with h0 | h1
      · obtain ⟨hsize, hmult⟩ := hD.v1 h0
        have hfield : field reg 126 2 = 0 := by
          rw [← hD.version, h0]
          rfl
        rw [if_pos hfield]
        simp only [Option.bind_eq_bind, Option.bind_some]
        rw [if_pos h0, hsize, hmult, hD.readBlLen]
        exact capacity_v1 (field_lt ..) (field_lt ..) (field_lt ..)
      · have hfield : field reg 126 2 = 1 := by
          rw [← hD.version, h1]
          rfl
        have h0 : csd.structure' ≠ 0 := by
          rw [h1]
          decide
        rw [if_neg (by omega), if_pos hfield]
        simp only [Option.bind_eq_bind, Option.bind_some]
        rw [if_neg h0, if_pos h1, hD.v2 h1]
        exact capacity_v2 (field_lt ..)

/-- A response whose low 120 bits are a register's. -/
def responseOf (reg : BitVec 128) : Nat → UInt32 := fun i =>
  UInt32.ofNat ((reg.toNat >>> 8) >>> (32 * i))

/-- A card of 2 GiB of version 1. -/
theorem card_capacity_sample :
    mmcCardCapacity (registerCsd ⟨fun _ => 0, fun _ => 0⟩
        (responseOf 0x002600325f5a83aeffffffcf92800000#128))
      = some (capacity 0x002600325f5a83aeffffffcf92800000#128) :=
  card_capacity _ (by
    unfold Delivers
    decide +kernel)

end ProjectsLibs.Sdhc
