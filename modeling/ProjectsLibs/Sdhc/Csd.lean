/-
libsdhcdrivers: the card specific data of a card, from the response of
the controller to the capacity in bytes (mmc.c).

A computation is `none` where C leaves it undefined (a shift by the width
or more, a product outside of its type, an index past the array) and also
where a shift to the left would lose bits.

# Bit fields

The register has 128 bits, and the controller delivers them without the
checksum, eight places too low. The driver shifts the response up by 8
over the boundaries of its words, and then cuts fields out of it, which
may lie in two words. Both are modelled with the shifts that the code
makes, each with its own test that it is defined. The specification knows
one number of 128 bits and takes fields of it with a quotient and a
remainder, and the capacity is a product of fields, as the register
format of the standard has it for either version of the structure.
-/
import ProjectsLibs.Lib.Words

namespace ProjectsLibs.Sdhc

open Lib

-- ============================================================ arithmetic

/-- `val[i]` of an array of four words. -/
def word (val : Nat → UInt32) (i : Nat) : Option UInt32 :=
  if i < 4 then some (val i) else none

/-- `x << n`, if no bit is lost. -/
def shl (x : UInt32) (n : Nat) : Option UInt32 :=
  if n < 32 ∧ x.toNat * 2 ^ n < 2 ^ 32 then some (x <<< UInt32.ofNat n)
  else none

/-- `x >> n`. -/
def shr (x : UInt32) (n : Nat) : Option UInt32 :=
  if n < 32 then some (x >>> UInt32.ofNat n) else none

/-- A value of type `long long`. -/
def longLong (x : Int) : Option Int :=
  if -2 ^ 63 ≤ x ∧ x < 2 ^ 63 then some x else none

-- ============================================================ slice_bits

/-- `slice_bits`. -/
def sliceBits (val : Nat → UInt32) (start size : Nat) : Option UInt32 := do
  guard (size ≤ 32)
  let idx := start / 32
  let lo := start % 32
  let hi := (start + size) % 32
  if hi = 0 ∧ lo = 0 then word val idx
  else if hi = 0 ∧ lo ≠ 0 then
    let w ← word val idx
    shr w lo
  else if hi > lo then
    let w ← word val idx
    let bit ← shl 1 hi
    shr (w &&& (bit - 1)) lo
  else
    let w ← word val idx
    let v ← word val (idx + 1)
    let bit ← shl 1 hi
    let ret ← shr w lo
    let top ← shl (v &&& (bit - 1)) (32 - lo)
    return ret ||| top

-- =============================================================== the card

/-- `struct csd`. -/
structure Csd where
  structure' : UInt8
  tranSpeed : UInt8
  readBlLen : UInt8
  cSize : UInt32
  cSizeMult : UInt8

/-- The registers of `struct mmc_card` that are read from the card. -/
structure CardRegs where
  rawCid : Nat → UInt32
  rawCsd : Nat → UInt32

/-- The response to the left by 8. -/
def shiftResponse (response : Nat → UInt32) : Nat → UInt32
  | 0 => response 0 <<< (8 : UInt32)
  | i + 1 => (response (i + 1) <<< (8 : UInt32))
      ||| (response i >>> (24 : UInt32))

/-- `mmc_card_registry`, with the response to `MMC_SEND_CSD`. -/
def registerCsd (card : CardRegs) (response : Nat → UInt32) : CardRegs :=
  { card with rawCsd := shiftResponse response }

/-- `mmc_decode_csd`; the inner `none` is the result -1. -/
def mmcDecodeCsd (card : CardRegs) : Option (Option Csd) := do
  let csdBits := sliceBits card.rawCsd
  let structure' := (← csdBits 126 2).toUInt8
  if structure' = 0 then
    let cSize ← csdBits 62 12
    let cSizeMult ← csdBits 47 3
    let readBlLen ← csdBits 80 4
    let tranSpeed ← csdBits 96 8
    return some ⟨structure', tranSpeed.toUInt8, readBlLen.toUInt8, cSize,
      cSizeMult.toUInt8⟩
  else if structure' = 1 then
    let cSize ← csdBits 48 22
    let readBlLen ← csdBits 80 4
    let tranSpeed ← csdBits 96 8
    return some ⟨structure', tranSpeed.toUInt8, readBlLen.toUInt8, cSize, 0⟩
  else return none

/-- `mmc_card_capacity`. -/
def mmcCardCapacity (card : CardRegs) : Option Int := do
  match ← mmcDecodeCsd card with
  | none => return -1
  | some csd =>
      let cSize : Int := csd.cSize.toNat
      if csd.structure' = 0 then
        let blocks ← longLong (cSize + 1)
        let mult ← shl 1 (csd.cSizeMult.toNat + 2)
        let units ← longLong (blocks * mult.toNat)
        let len ← shl 1 csd.readBlLen.toNat
        longLong (units * len.toNat)
      else if csd.structure' = 1 then
        let blocks ← longLong (cSize + 1)
        let sectors ← longLong (blocks * 512)
        longLong (sectors * 1024)
      else return -1

-- ==================================================== the specification

/-- The controller delivers bits 127..8 of a register in the 120 low bits
of the response. -/
def Delivers (reg : BitVec 128) (response : Nat → UInt32) : Prop :=
  ∀ b < 120, bitAt response b = reg.getLsbD (b + 8)

/-- A field of the register. -/
def field (reg : BitVec 128) (start size : Nat) : Nat :=
  (reg.extractLsb' start size).toNat

/-- What the register says of the capacity in bytes. -/
def capacity (reg : BitVec 128) : Int :=
  if field reg 126 2 = 0 then
    (field reg 62 12 + 1) * 2 ^ (field reg 47 3 + 2) * 2 ^ field reg 80 4
  else if field reg 126 2 = 1 then (field reg 48 22 + 1) * (512 * 1024)
  else -1

end ProjectsLibs.Sdhc
