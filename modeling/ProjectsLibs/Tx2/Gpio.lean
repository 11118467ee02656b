/-
libplatsupportports: the GPIO driver of the TX2 (gpio.c). A pin is set up
for input, output or an interrupt, and its output level is set, by
reading, changing and writing back registers.

The registers are a map from their offsets in the block. What the values
of `enum gpio_level` are is said by platsupport; of them the driver uses
that of `GPIO_LEVEL_HIGH`, which is a parameter here.

# Code and specification

The first half has the functions of the driver. Each takes the block of
registers and gives back the block, with an error where the code returns
one. A pin number is an `int` of the caller, and `tx2_gpio_init` and
`tx2_gpio_set_level` refuse one that is no pin before any access.

The second half says what the calls are for, by bits. A direction asks for
some bits of the configuration to be set or cleared (`GpioDir.config`), a
level for one bit of the output. `Configures` says of any such list that
the registers have these bits, that their other bits are as before, and so
are all other registers.
-/
import Mathlib.Algebra.Ring.Int.Defs
import Mathlib.Algebra.Ring.Nat
import Mathlib.Logic.Function.Basic
import ProjectsLibs.Lib.Updates

namespace ProjectsLibs.Tx2

open Lib

-- ================================================================= pins

/-- `struct tx2_gpio_port`. -/
structure GpioPort where
  addrOffset : Nat
  start : Nat
  last : Nat
  deriving DecidableEq, Repr

/-- `tx2_ports`, from `GPIO_PORT_A` to `GPIO_PORT_CC`. -/
def tx2Ports : List GpioPort :=
  [⟨0x2000, 0, 6⟩, ⟨0x3000, 8, 14⟩, ⟨0x3200, 16, 22⟩,
    ⟨0x3400, 24, 29⟩, ⟨0x2200, 32, 39⟩, ⟨0x2400, 40, 45⟩,
    ⟨0x4200, 48, 53⟩, ⟨0x1000, 56, 62⟩, ⟨0x800, 64, 71⟩,
    ⟨0x5000, 72, 79⟩, ⟨0x5200, 80, 80⟩, ⟨0x1200, 88, 95⟩,
    ⟨0x5600, 96, 101⟩, ⟨0x0, 104, 110⟩, ⟨0x200, 112, 115⟩,
    ⟨0x4000, 120, 126⟩, ⟨0x400, 128, 133⟩, ⟨0xa00, 136, 141⟩,
    ⟨0x600, 144, 147⟩, ⟨0x1400, 152, 159⟩, ⟨0x1600, 160, 166⟩,
    ⟨0x2600, 168, 169⟩, ⟨0x5400, 176, 179⟩]

/-- `MAX_GPIO_ID`. -/
def maxGpioId : Int := 179

/-- `tx2_pin_to_port`, as an index of `tx2_ports`. -/
def tx2PinToPort (id : Int) : Nat := (id / 8).toNat

/-- `tx2_valid_pin`. -/
def tx2ValidPin (id : Int) : Bool :=
  if id < 0 ∨ id > maxGpioId then false
  else
    match tx2Ports[tx2PinToPort id]? with
    | none => false
    | some port => decide (port.start ≤ id ∧ id ≤ port.last)

-- ============================================================ registers

/-- `enum gpio_reg_offset`. -/
inductive GpioReg
  | enableConfig
  | input
  | outputControl
  | outputValue
  | interruptClear
  | interruptStatus
  deriving DecidableEq, Repr

def GpioReg.offset : GpioReg → Nat
  | .enableConfig => 0x0
  | .input => 0x8
  | .outputControl => 0xc
  | .outputValue => 0x10
  | .interruptClear => 0x14
  | .interruptStatus => 0x100

/-- `TX2_GPIO_PIN_STRIDE`. -/
def gpioPinStride : Nat := 0x20

/-- `tx2_gpio_get_register`, as an offset in the block. -/
def tx2GpioGetRegister (reg : GpioReg) (pin : Int) : Option Nat :=
  (tx2Ports[tx2PinToPort pin]?).map fun port =>
    (port.addrOffset + reg.offset + (pin - port.start) * gpioPinStride).toNat

abbrev GpioBlock := Nat → UInt32

/-- The bits of `GPIO_ENABLE_CONFIG`. -/
def configEnable : UInt32 := mask 0
def configOut : UInt32 := mask 1
def configTypeLevel : UInt32 := mask 2
def configTypeSingleEdge : UInt32 := mask 3
def configTypeDoubleEdge : UInt32 := mask 2 ||| mask 3
def configLevelHigh : UInt32 := mask 4
def configTriggerMask : UInt32 := mask 2 ||| mask 3 ||| mask 4
def configInterruptEnable : UInt32 := mask 6

/-- `TX2_GPIO_OUTPUT_CONTROL_FLOATED`. -/
def outputControlFloated : UInt32 := mask 0

/-- `TX2_GPIO_OUTPUT_VALUE_HIGH`. -/
def outputValueHigh : UInt32 := mask 0

def einval : Int := 22

-- ============================================================= the calls

/-- `enum gpio_dir`. -/
inductive GpioDir
  | input
  | outDefaultLow
  | outDefaultHigh
  | irqLow
  | irqHigh
  | irqFall
  | irqRise
  | irqEdge
  deriving DecidableEq, Repr

/-- `tx2_gpio_set_direction`. -/
def tx2GpioSetDirection (regs : GpioBlock) (gpio : Int) (dir : GpioDir) :
    Option (Int × GpioBlock) := do
  let configReg ← tx2GpioGetRegister .enableConfig gpio
  let outputControlReg ← tx2GpioGetRegister .outputControl gpio
  let configVal := regs configReg
  let outputControlVal := regs outputControlReg
  if dir = .outDefaultHigh ∨ dir = .outDefaultLow then
    let configVal := configVal ||| configOut
    let outputControlVal := outputControlVal &&& ~~~outputControlFloated
    let regs := Function.update regs configReg configVal
    let regs := Function.update regs outputControlReg outputControlVal
    return (0, regs)
  else
    -- the case of `GPIO_DIR_IN` has no break
    return (-einval, regs)

/-- The switch of `tx2_gpio_set_interrupt_type`. -/
def interruptType (dir : GpioDir) : Option UInt32 :=
  match dir with
  | .irqRise => some (configLevelHigh ||| configTypeSingleEdge)
  | .irqFall => some (0 ||| configTypeSingleEdge)
  | .irqEdge => some configTypeDoubleEdge
  -- falls through to the next case, which assigns again
  | .irqHigh => some configTypeLevel
  | .irqLow => some configTypeLevel
  | _ => none

/-- `tx2_gpio_set_interrupt_type`. -/
def tx2GpioSetInterruptType (regs : GpioBlock) (gpio : Int) (dir : GpioDir) :
    Option (Int × GpioBlock) := do
  let reg ← tx2GpioGetRegister .enableConfig gpio
  let val := regs reg
  match interruptType dir with
  | none => return (-einval, regs)
  | some lvlType =>
      let val := val &&& ~~~configTriggerMask
      let val := val ||| lvlType
      return (0, Function.update regs reg val)

/-- `tx2_gpio_irq_enable_disable`. -/
def tx2GpioIrqEnableDisable (regs : GpioBlock) (gpio : Int) (enable : Bool) :
    Option (Int × GpioBlock) := do
  let reg ← tx2GpioGetRegister .enableConfig gpio
  let val := if enable then regs reg ||| configInterruptEnable
    else regs reg &&& ~~~configInterruptEnable
  return (0, Function.update regs reg val)

/-- `tx2_gpio_init`. -/
def tx2GpioInit (regs : GpioBlock) (id : Int) (dir : GpioDir) :
    Option (Int × GpioBlock) :=
  if ¬tx2ValidPin id then some (einval, regs)
  else do
    let reg ← tx2GpioGetRegister .enableConfig id
    let regs := Function.update regs reg (regs reg ||| configEnable)
    if dir = .input ∨ dir = .outDefaultHigh ∨ dir = .outDefaultLow then
      tx2GpioSetDirection regs id dir
    else
      let (error, regs) ← tx2GpioSetInterruptType regs id dir
      if error ≠ 0 then return (error, regs)
      else tx2GpioIrqEnableDisable regs id false

/-- `enum gpio_level`. -/
inductive GpioLevel
  | low
  | high
  deriving DecidableEq, Repr

/-- `tx2_gpio_set_level`, with the value `levelHigh` of `GPIO_LEVEL_HIGH`;
the level asked for is not looked at. -/
def tx2GpioSetLevel (levelHigh : Int) (regs : GpioBlock) (id : Int)
    (_level : GpioLevel) : Option (Int × GpioBlock) :=
  if ¬tx2ValidPin id then some (-einval, regs)
  else do
    let reg ← tx2GpioGetRegister .outputValue id
    let val := if levelHigh ≠ 0 then regs reg ||| outputValueHigh
      else regs reg &&& ~~~outputValueHigh
    return (0, Function.update regs reg val)

-- ==================================================== the specification

/-- A pin that `tx2_valid_pin` accepts. -/
structure Pin where
  id : Int
  valid : tx2ValidPin id = true
  deriving DecidableEq

/-- The offset of a register of a pin. -/
def Pin.reg (p : Pin) (reg : GpioReg) : Nat :=
  (tx2GpioGetRegister reg p.id).getD 0

/-- The bits of `GPIO_ENABLE_CONFIG` that a direction asks for: enabled,
output, type and level of the trigger, interrupt. -/
def GpioDir.config : GpioDir → List (Nat × Bool)
  | .input => [(0, true), (1, false)]
  | .outDefaultLow => [(0, true), (1, true)]
  | .outDefaultHigh => [(0, true), (1, true)]
  | .irqLow => [(0, true), (2, true), (3, false), (4, false), (6, false)]
  | .irqHigh => [(0, true), (2, true), (3, false), (4, true), (6, false)]
  | .irqFall => [(0, true), (2, false), (3, true), (4, false), (6, false)]
  | .irqRise => [(0, true), (2, false), (3, true), (4, true), (6, false)]
  | .irqEdge => [(0, true), (2, true), (3, true), (4, false), (6, false)]

/-- The bits of `GPIO_OUTPUT_CONTROL`: floated. -/
def GpioDir.outputControl : GpioDir → List (Nat × Bool)
  | .input => [(0, true)]
  | .outDefaultLow => [(0, false)]
  | .outDefaultHigh => [(0, false)]
  | _ => []

/-- The registers `written` of a pin are set in the bits listed, and
nothing else changes: no bit of another pin, and no other register. -/
structure Configures (p : Pin) (written : GpioReg → List (Nat × Bool))
    (old new : GpioBlock) : Prop where
  own : ∀ reg, Sets (written reg) (old (p.reg reg)) (new (p.reg reg))
  others : ∀ q, q ≠ p → ∀ reg, new (q.reg reg) = old (q.reg reg)
  rest : ∀ addr, (∀ reg, addr ≠ p.reg reg) → new addr = old addr

/-- What `tx2_gpio_init` is to write. -/
def initWrites (dir : GpioDir) : GpioReg → List (Nat × Bool)
  | .enableConfig => dir.config
  | .outputControl => dir.outputControl
  | _ => []

/-- `tx2_gpio_init` succeeds and does what was asked. -/
def InitRight (regs : GpioBlock) (p : Pin) (dir : GpioDir) : Prop :=
  ∃ regs', tx2GpioInit regs p.id dir = some (0, regs')
    ∧ Configures p (initWrites dir) regs regs'

/-- What `tx2_gpio_set_level` is to write. -/
def levelWrites (level : GpioLevel) : GpioReg → List (Nat × Bool)
  | .outputValue => [(0, decide (level = .high))]
  | _ => []

/-- `tx2_gpio_set_level` succeeds and does what was asked. -/
def SetLevelRight (levelHigh : Int) (regs : GpioBlock) (p : Pin)
    (level : GpioLevel) : Prop :=
  ∃ regs', tx2GpioSetLevel levelHigh regs p.id level = some (0, regs')
    ∧ Configures p (levelWrites level) regs regs'

end ProjectsLibs.Tx2
