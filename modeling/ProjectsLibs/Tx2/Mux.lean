/-
libplatsupportports: the pin multiplexer of the TX2 (mux.c). To enable a
feature the control register of each of its pins is written twice: first
with a value that only turns the tristate on, then with the value that its
descriptor asks for.

The registers are a map from their offsets. An offset is kept in an
`int16_t` and taken out as a `uint16_t`, with the same bits.

# Where a result is missing

The value for a pin is put together from the flags of its descriptor
(`requiredVal`), and flags that contradict each other are refused. The
refusal comes in the middle of the loop over the pins, when those in front
have been written. The test for the feature lets one number through that
is no feature, and the table is then read behind its end: this is a fault
here (`MuxFault`) and counts as a failure of the call.

`EnableRight` and `RefusalRight` are what a call has to do when it accepts
a feature and when it refuses it. The conditions for both are stated on
the descriptors and on the registers before the call. They hold for any
pin maps, of which the table of the source is one (`tx2Pinmaps`).
-/
import Mathlib.Algebra.Ring.Int.Defs
import ProjectsLibs.Lib.Fields
import ProjectsLibs.Tx2.Gpio

namespace ProjectsLibs.Tx2

open Lib

-- ========================================================== descriptors

def muxRegSchmtShift : Nat := 12
def muxRegEnableShift : Nat := 6
def muxRegOpenDrainShift : Nat := 5
def muxRegTristateShift : Nat := 4
def muxRegPupdShift : Nat := 2
def muxRegPupdMask : UInt32 := 0x3
def muxRegSfioSelectShift : Nat := 0
def muxRegSfioSelectMask : UInt32 := 0x3

def muxRegPupdPulldown : UInt32 := 1
def muxRegPupdPullup : UInt32 := 2
def muxRegTristateTristate : UInt32 := 1

def pIn : UInt32 := mask 0
def pPushpull : UInt32 := mask 6
def pBoth : UInt32 := pIn ||| pPushpull
def pOpenDrain : UInt32 := mask 2
def pTristate : UInt32 := mask 3
def pPullup : UInt32 := mask 4
def pPulldown : UInt32 := mask 5
def pSchmt : UInt32 := mask 6

/-- `struct tx2_mux_pin_desc`. -/
structure PinDesc where
  flags : UInt32
  gpioPin : Int
  muxRegOffset : UInt16
  muxSfioValue : UInt8
  deriving DecidableEq, Repr

/-- `desc->flags & flag`. -/
def PinDesc.has (desc : PinDesc) (flag : UInt32) : Bool :=
  desc.flags &&& flag ≠ 0

/-- `PINMAP_NULLDESC`. -/
def nullDesc : PinDesc := ⟨0, -1, 0xffff, 0xf⟩

/-- The pins of a list: those in front of the first `gpio_pin` of -1. -/
def listed (pins : List PinDesc) : List PinDesc :=
  pins.takeWhile fun desc => desc.gpioPin ≠ -1

/-- `tx2_mux_feature_pinmap_t`, with pins that have different registers. -/
structure Pinmap where
  pins : List PinDesc
  length_eq : pins.length = 8
  distinct : ((listed pins).map PinDesc.muxRegOffset).Nodup

/-- `NMUX_FEATURES`, and the features that are GPIO pins. -/
def nmuxFeatures : Nat := 20
def muxFeatureGpioPj0 : Int := 13
def muxFeatureGpioPj6 : Int := 19

/-- The pin maps of all features, `pinmaps`. -/
abbrev Pinmaps := Fin nmuxFeatures → Pinmap

/-- `enum mux_gpio_dir`. -/
inductive MuxGpioDir
  | gpioIn
  | gpioOut
  | notAGpio
  deriving DecidableEq, Repr

-- ============================================================= the driver

abbrev MuxBlock := UInt16 → UInt32

/-- `requiredval` of `tx2_mux_set_pin_params`; none is `-EINVAL`. -/
def requiredVal (desc : PinDesc) (dir : MuxGpioDir) : Option UInt32 := do
  -- the mask is also what the value is moved by
  let required :=
    (desc.muxSfioValue.toUInt32 &&& muxRegSfioSelectMask)
      <<< muxRegSfioSelectMask
  let required := if desc.has pIn then required ||| mask muxRegEnableShift
    else required
  let required := if desc.has pSchmt then required ||| mask muxRegSchmtShift
    else required
  let required ←
    if desc.has pPushpull then
      if desc.has pOpenDrain then none
      else if desc.has pTristate then none
      else if desc.has pPullup ∨ desc.has pPulldown then none
      else some (required &&& ~~~mask muxRegTristateShift)
    else some required
  let required ←
    if desc.has pTristate then
      if desc.has pOpenDrain then none
      else if desc.has pPushpull then none
      else if desc.has pPullup ∨ desc.has pPulldown then none
      else some (required
        ||| muxRegTristateTristate <<< UInt32.ofNat muxRegTristateShift)
    else some required
  let required ←
    if desc.has pPullup ∨ desc.has pPulldown then
      if desc.has pPullup ∧ desc.has pPulldown then none
      else if desc.has pOpenDrain then none
      else if desc.has pTristate then none
      else
        let required := required
          &&& ~~~(muxRegPupdMask <<< UInt32.ofNat muxRegPupdShift)
        let pull := if desc.has pPullup then muxRegPupdPullup
          else muxRegPupdPulldown
        some (required ||| pull <<< UInt32.ofNat muxRegPupdShift)
    else some required
  let required ←
    if desc.has pOpenDrain then
      if desc.has pPushpull then none
      else if desc.has pTristate then none
      else if desc.has pPullup ∨ desc.has pPulldown then none
      else some (required ||| mask muxRegOpenDrainShift)
    else some required
  return if dir = .notAGpio then required ||| mask muxRegSfioSelectShift
    else required

/-- `tx2_mux_set_pin_params`. -/
def tx2MuxSetPinParams (regs : MuxBlock) (desc : PinDesc)
    (dir : MuxGpioDir) : Int × MuxBlock :=
  let regval := regs desc.muxRegOffset
  let regs := Function.update regs desc.muxRegOffset
    (mask muxRegTristateShift)
  match requiredVal desc dir with
  | none => (-einval, regs)
  | some required =>
      if regval = required then (0, regs)
      else (0, Function.update regs desc.muxRegOffset required)

/-- The loop of `tx2_mux_feature_enable`. -/
def setPins (dir : MuxGpioDir) (regs : MuxBlock) :
    List PinDesc → Int × MuxBlock
  | [] => (0, regs)
  | desc :: rest =>
      if desc.gpioPin = -1 then (0, regs)
      else
        let (error, regs) := tx2MuxSetPinParams regs desc dir
        if error ≠ 0 then (error, regs) else setPins dir regs rest

/-- `is_valid_feature`. -/
def isValidFeature (feature : Int) : Bool :=
  decide (0 ≤ feature ∧ feature ≤ nmuxFeatures)

/-- What ends a call without a result: a pin map is read behind the end of
`pinmaps`. What is found there, and written to, C does not define. -/
inductive MuxFault
  | pastTable
  deriving DecidableEq, Repr

/-- `tx2_mux_feature_enable`. The test of `is_valid_feature` lets the
number of features itself pass, for which there is no pin map. -/
def tx2MuxFeatureEnable (pinmaps : Pinmaps) (regs : MuxBlock)
    (feature : Int) (dir : MuxGpioDir) :
    Except MuxFault (Int × MuxBlock) :=
  if ¬isValidFeature feature then .ok (-einval, regs)
  else if dir ≠ .notAGpio
      ∧ ¬(muxFeatureGpioPj0 ≤ feature
        ∧ feature ≤ muxFeatureGpioPj6) then
    .ok (-einval, regs)
  else if h : feature.toNat < nmuxFeatures then
    .ok (setPins dir regs (pinmaps ⟨feature.toNat, h⟩).pins)
  else .error .pastTable

-- ==================================================== the specification

/-- The register of a pin encodes its descriptor. -/
structure Encodes (desc : PinDesc) (w : UInt32) : Prop where
  sfio : take 2 0 w = desc.muxSfioValue.toUInt32 &&& muxRegSfioSelectMask
  pull : take 2 2 w = if desc.has pPullup then muxRegPupdPullup
    else if desc.has pPulldown then muxRegPupdPulldown else 0
  tristate : testBit w 4 = desc.has pTristate
  openDrain : testBit w 5 = desc.has pOpenDrain
  enable : testBit w 6 = desc.has pIn

/-- The pins of a feature. -/
def pinsOf (pinmaps : Pinmaps) (feature : Int) : List PinDesc :=
  if h : feature.toNat < nmuxFeatures then
    listed (pinmaps ⟨feature.toNat, h⟩).pins
  else []

/-- The call ends with a result, and if the feature is enabled, the
registers of its pins encode them, all others are as before, and to enable
it again changes nothing. -/
def EnableRight (pinmaps : Pinmaps) (regs : MuxBlock) (feature : Int)
    (dir : MuxGpioDir) : Prop :=
  ∃ error regs', tx2MuxFeatureEnable pinmaps regs feature dir
      = .ok (error, regs') ∧ (error = 0 →
    (∀ desc ∈ pinsOf pinmaps feature,
      Encodes desc (regs' desc.muxRegOffset))
    ∧ (∀ off, off ∉ (pinsOf pinmaps feature).map PinDesc.muxRegOffset →
        regs' off = regs off)
    ∧ tx2MuxFeatureEnable pinmaps regs' feature dir = .ok (0, regs'))

/-- The call ends with a result, and if the feature is refused, no register
changes. -/
def RefusalRight (pinmaps : Pinmaps) (regs : MuxBlock) (feature : Int)
    (dir : MuxGpioDir) : Prop :=
  ∃ error regs', tx2MuxFeatureEnable pinmaps regs feature dir
      = .ok (error, regs') ∧ (error ≠ 0 → regs' = regs)

-- ======================================================== the conditions

/-- Flags that are refused: two drivers of the output at once. -/
def Conflicts (desc : PinDesc) : Prop :=
  (desc.has pPushpull ∧ (desc.has pOpenDrain ∨ desc.has pTristate
      ∨ desc.has pPullup ∨ desc.has pPulldown))
    ∨ (desc.has pTristate ∧ (desc.has pOpenDrain ∨ desc.has pPullup
      ∨ desc.has pPulldown))
    ∨ (desc.has pOpenDrain ∧ (desc.has pPullup ∨ desc.has pPulldown))
    ∨ (desc.has pPullup ∧ desc.has pPulldown)

instance (desc : PinDesc) : Decidable (Conflicts desc) :=
  inferInstanceAs (Decidable (_ ∨ _ ∨ _ ∨ _))

/-- The feature does not exist, or is not one that can be a GPIO. -/
def RefusedFirst (feature : Int) (dir : MuxGpioDir) : Prop :=
  ¬(0 ≤ feature ∧ feature ≤ nmuxFeatures)
    ∨ (dir ≠ .notAGpio
      ∧ ¬(muxFeatureGpioPj0 ≤ feature ∧ feature ≤ muxFeatureGpioPj6))

/-- The value for a pin has the tristate bit and no other: of the flags at
most that of the tristate counts, and what the value of the function select
is moved to has that bit at most. -/
def TristateAlone (desc : PinDesc) (dir : MuxGpioDir) : Prop :=
  dir ≠ .notAGpio ∧ ¬desc.has pIn ∧ ¬desc.has pPushpull
    ∧ ¬desc.has pOpenDrain ∧ ¬desc.has pPullup ∧ ¬desc.has pPulldown
    ∧ testBit desc.muxSfioValue.toUInt32 0 = false
    ∧ (desc.has pTristate ∨ testBit desc.muxSfioValue.toUInt32 1 = true)

instance (desc : PinDesc) (dir : MuxGpioDir) :
    Decidable (TristateAlone desc dir) :=
  inferInstanceAs (Decidable (_ ∧ _))

/-- The pin is a GPIO that is to be tristate and nothing else. -/
def OnlyTristate (desc : PinDesc) (dir : MuxGpioDir) : Prop :=
  TristateAlone desc dir ∧ desc.has pTristate
    ∧ testBit desc.muxSfioValue.toUInt32 1 = false

/-- The first pin that is refused, and the pins in front of it, are
tristate already, and for those in front of it this is also the value. -/
def TristateBefore (regs : MuxBlock) (dir : MuxGpioDir)
    (pins : List PinDesc) : Prop :=
  ∀ front desc back, pins = front ++ desc :: back → Conflicts desc →
    (∀ d ∈ front, ¬Conflicts d) →
    regs desc.muxRegOffset = mask muxRegTristateShift
      ∧ ∀ d ∈ front, TristateAlone d dir
        ∧ regs d.muxRegOffset = mask muxRegTristateShift

-- ============================================================= the table

/-- `pinmaps`, the pins of each feature. -/
def tx2Pins : List (List PinDesc) :=
  -- MUX_FEATURE_UARTA, UARTB and UARTD
  [[⟨pPushpull, 144, 0x5018, 0⟩,
      ⟨pIn ||| pPullup ||| pTristate, 145, 0x5010, 0⟩],
    [⟨pPushpull, 152, 0xd020, 0⟩,
      ⟨pIn ||| pPullup ||| pTristate, 153, 0xd028, 0⟩,
      ⟨pPushpull, 154, 0xd030, 0⟩,
      ⟨pIn ||| pPullup ||| pTristate, 155, 0xd038, 0⟩],
    [⟨pPushpull, 8, 0x4038, 0⟩,
      ⟨pIn ||| pPullup ||| pTristate, 9, 0x4030, 0⟩,
      ⟨pPushpull, 10, 0x4028, 0⟩,
      ⟨pIn ||| pPullup ||| pTristate, 11, 0x4020, 0⟩],
    -- MUX_FEATURE_SPI1, SPI3 and SPI4
    [⟨pPushpull, 56, 0xd018, 2⟩,
      ⟨pIn ||| pPulldown ||| pTristate, 57, 0xd010, 2⟩,
      ⟨pPushpull, 58, 0xd008, 2⟩, ⟨pPullup, 59, 0xd000, 2⟩],
    [⟨pBoth, 156, 0xd048, 1⟩, ⟨pBoth, 157, 0xd040, 1⟩,
      ⟨pBoth, 158, 0xd050, 1⟩, ⟨pBoth, 159, 0xd058, 1⟩],
    [⟨pPushpull, 107, 0x0038, 1⟩,
      ⟨pIn ||| pPulldown ||| pTristate, 108, 0x0040, 1⟩,
      ⟨pPushpull, 109, 0x0048, 1⟩, ⟨pPullup, 110, 0x0050, 1⟩],
    -- MUX_FEATURE_I2C1, I2C3, I2C7 and I2C9
    [⟨pIn ||| pOpenDrain, 21, 0x4060, 0⟩,
      ⟨pIn ||| pOpenDrain, 22, 0x4068, 0⟩],
    [⟨pIn, 114, 0x0018, 0⟩, ⟨pIn, 115, 0x0010, 0⟩],
    [⟨pIn, 88, 0xd0b0, 0⟩, ⟨pIn, 89, 0xd0b8, 0⟩],
    [⟨pIn, 90, 0xd0c8, 0⟩, ⟨pIn, 91, 0xd0c0, 0⟩],
    -- MUX_FEATURE_EQOS_RX, EQOS_TX and EQOS_MDIO
    [⟨pIn ||| pTristate, 43, 0x905c, 0⟩,
      ⟨pIn ||| pTristate, 38, 0x9040, 0⟩,
      ⟨pIn ||| pTristate, 39, 0x9030, 0⟩,
      ⟨pIn ||| pTristate, 40, 0x9028, 0⟩,
      ⟨pIn ||| pTristate, 41, 0x9020, 0⟩,
      ⟨pIn ||| pTristate, 42, 0x906c, 0⟩],
    [⟨pPushpull, 32, 0x9054, 0⟩, ⟨pPushpull, 33, 0x9018, 0⟩,
      ⟨pPushpull, 34, 0x9010, 0⟩, ⟨pPushpull, 35, 0x9008, 0⟩,
      ⟨pPushpull, 36, 0x9000, 0⟩, ⟨pPushpull, 37, 0x9064, 0⟩],
    [⟨pIn ||| pPullup, 44, 0x9038, 0⟩, ⟨pPushpull, 45, 0x9048, 0⟩],
    -- MUX_FEATURE_GPIO_PJ0 to GPIO_PJ6
    [⟨pBoth, 72, 0x1040, 0⟩], [⟨pBoth, 73, 0x1038, 0⟩],
    [⟨pBoth, 74, 0x1030, 0⟩], [⟨pBoth, 75, 0x1028, 0⟩],
    [⟨pBoth, 76, 0x1020, 0⟩], [⟨pBoth, 77, 0x1018, 0⟩],
    [⟨pBoth, 78, 0x1010, 0⟩]]

/-- Pins with the null descriptors behind them. -/
def padded (pins : List PinDesc) : List PinDesc :=
  pins ++ List.replicate (8 - pins.length) nullDesc

/-- Every entry of the table is a pin map. -/
theorem tx2Pins_ok (f : Fin nmuxFeatures) :
    (padded (tx2Pins.getD f [])).length = 8
      ∧ ((listed (padded (tx2Pins.getD f []))).map
          PinDesc.muxRegOffset).Nodup := by
  revert f
  decide

/-- `pinmaps`. -/
def tx2Pinmaps : Pinmaps := fun f =>
  ⟨padded (tx2Pins.getD f []), (tx2Pins_ok f).1, (tx2Pins_ok f).2⟩

end ProjectsLibs.Tx2
