/-
The GPIO driver of the TX2 does what is asked for outputs and for four of
the five interrupts, and sets the high level only (`gpio_right_iff`).

No register of a pin is a register of another pin (`Pin.reg_inj`): the
ports are at different multiples of 0x200, and a pin has 0x20 bytes in
each half of its port. Each write of the driver then is one change of one
register of the pin (`Configures.write`), and a call is its writes one
after the other.

# One pin and the others

The registers of a pin are at an address that is put together from its
port, the register and the number of the pin in the port. Different pins
have different addresses, because ports are at different bases and the
offsets stay within a port (`tx2Ports_nodup`, `offset_inj`). A call reads
and writes registers of its own pin, so the frame is a matter of
addresses, and what it leaves in a register is a list of bits that have
changed (`Sets` of Lib/Updates), put together write by write. This list
is compared with the bits that the request stands for; where they differ
the driver does something else, for the input and for the constant of a
level.
-/
import ProjectsLibs.Tx2.Gpio

namespace ProjectsLibs.Tx2

open Lib

variable {p q : Pin} {old mid new : GpioBlock}

-- ============================================================ registers

/-- The ports are aligned, in the pins and in the block. -/
theorem tx2Ports_aligned : ∀ i < 23, ∀ port ∈ tx2Ports[i]?,
    port.start = 8 * i ∧ port.last < 8 * i + 8
      ∧ port.addrOffset % 0x200 = 0 := by decide

/-- No two ports have the same registers. -/
theorem tx2Ports_nodup : (tx2Ports.map GpioPort.addrOffset).Nodup := by
  decide

/-- A pin by its port and its place there. -/
theorem Pin.place (p : Pin) : ∃ i k port, tx2PinToPort p.id = i
    ∧ tx2Ports[i]? = some port ∧ k < 8 ∧ p.id = ((8 * i + k : Nat) : Int)
    ∧ port.start = 8 * i ∧ port.addrOffset % 0x200 = 0 := by
  have hvalid := p.valid
  unfold tx2ValidPin at hvalid
  split at hvalid
  · cases hvalid
  · next hrange =>
    cases hport : tx2Ports[tx2PinToPort p.id]? with
    | none =>
        rw [hport] at hvalid
        cases hvalid
    | some port =>
        rw [hport] at hvalid
        have hid : (port.start : Int) ≤ p.id ∧ p.id ≤ port.last :=
          of_decide_eq_true hvalid
        have hlt : tx2PinToPort p.id < 23 :=
          (List.getElem?_eq_some_iff.1 hport).1
        obtain ⟨hstart, hlast, halign⟩ :=
          tx2Ports_aligned _ hlt port hport
        refine ⟨tx2PinToPort p.id, (p.id - port.start).toNat, port, rfl,
          hport, ?_, ?_, hstart, halign⟩
        · omega
        · omega

/-- Where a register of a pin is. -/
theorem Pin.register (p : Pin) (reg : GpioReg) : ∃ i k port,
    tx2Ports[i]? = some port ∧ k < 8 ∧ p.id = ((8 * i + k : Nat) : Int)
    ∧ port.addrOffset % 0x200 = 0
    ∧ tx2GpioGetRegister reg p.id
        = some (port.addrOffset + reg.offset + 0x20 * k) := by
  obtain ⟨i, k, port, hi, hport, hk, hid, hstart, halign⟩ := p.place
  refine ⟨i, k, port, hport, hk, hid, halign, ?_⟩
  rw [tx2GpioGetRegister, hi, hport, Option.map_some, hid, hstart]
  congr 1
  simp only [gpioPinStride]
  omega

/-- The address of a register of a pin. -/
theorem Pin.getRegister (p : Pin) (reg : GpioReg) :
    tx2GpioGetRegister reg p.id = some (p.reg reg) := by
  obtain ⟨i, k, port, -, -, -, -, heq⟩ := p.register reg
  rw [Pin.reg, heq]
  rfl

/-- A register is in the first 0x20 bytes of one half of a port. -/
theorem GpioReg.offset_split (r : GpioReg) :
    r.offset / 0x100 < 2 ∧ r.offset % 0x100 < 0x20 := by
  cases r <;> decide

/-- Different registers of a pin have different offsets. -/
theorem GpioReg.offset_inj {r s : GpioReg} (h : r.offset = s.offset) :
    r = s := by
  cases r <;> cases s <;> simp_all [offset]

/-- The registers of the pins are all at different offsets. -/
theorem Pin.reg_inj {r s : GpioReg} (h : p.reg r = q.reg s) :
    p = q ∧ r = s := by
  obtain ⟨i, k, port, hport, hk, hid, halign, heq⟩ := p.register r
  obtain ⟨j, l, port', hport', hl, hid', halign', heq'⟩ := q.register s
  rw [Pin.getRegister, Option.some.injEq] at heq heq'
  rw [heq, heq'] at h
  obtain ⟨hr, hr'⟩ := r.offset_split
  obtain ⟨hs, hs'⟩ := s.offset_split
  have hoffset : port.addrOffset = port'.addrOffset := by omega
  have hplace : k = l := by omega
  have hreg : r.offset = s.offset := by omega
  have hij : i = j := by
    have hget : (tx2Ports.map GpioPort.addrOffset)[i]?
        = (tx2Ports.map GpioPort.addrOffset)[j]? := by
      rw [List.getElem?_map, List.getElem?_map, hport, hport',
        Option.map_some, Option.map_some, hoffset]
    have hlt : i < (tx2Ports.map GpioPort.addrOffset).length := by
      rw [List.length_map]
      exact (List.getElem?_eq_some_iff.1 hport).1
    exact (List.getElem?_inj hlt tx2Ports_nodup).1 hget
  have hpins : p.id = q.id := by rw [hid, hid', hij, hplace]
  refine ⟨?_, GpioReg.offset_inj hreg⟩
  cases p
  cases q
  simp only at hpins
  subst hpins
  rfl

-- =============================================================== writes

/-- A write to one register. -/
def only (reg : GpioReg) (fields : List (Nat × Bool)) (r : GpioReg) :
    List (Nat × Bool) :=
  if r = reg then fields else []

namespace Configures

variable {written written' : GpioReg → List (Nat × Bool)}

/-- A changed register is written back. -/
theorem write {reg : GpioReg} {fields : List (Nat × Bool)} {w : UInt32}
    (h : Sets fields (old (p.reg reg)) w) :
    Configures p (only reg fields) old
      (Function.update old (p.reg reg) w) where
  own := by
    intro r
    by_cases hr : r = reg
    · rw [hr, only, if_pos rfl, Function.update_self]
      exact h
    · have hne : p.reg r ≠ p.reg reg := fun heq => hr (Pin.reg_inj heq).2
      rw [only, if_neg hr, Function.update_of_ne hne]
      exact Sets.refl _
  others := by
    intro q hq r
    exact Function.update_of_ne (fun heq => hq (Pin.reg_inj heq).1) _ _
  rest := by
    intro addr haddr
    exact Function.update_of_ne (haddr reg) _ _

/-- A bit of a register is set. -/
theorem setBit (p : Pin) (old : GpioBlock) (reg : GpioReg) {a : Nat}
    (ha : a < 32) :
    Configures p (only reg [(a, true)]) old
      (Function.update old (p.reg reg) (old (p.reg reg) ||| mask a)) :=
  write ((Sets.refl _).or_mask ha)

/-- A bit of a register is cleared. -/
theorem clearBit (p : Pin) (old : GpioBlock) (reg : GpioReg) {a : Nat}
    (ha : a < 32) :
    Configures p (only reg [(a, false)]) old
      (Function.update old (p.reg reg) (old (p.reg reg) &&& ~~~mask a)) :=
  write ((Sets.refl _).and_not_mask ha)

/-- One write after another. -/
theorem trans (h : Configures p written old mid)
    (h' : Configures p written' mid new) :
    Configures p (fun r => written' r ++ written r) old new where
  own := fun reg => (h.own reg).trans (h'.own reg)
  others := fun q hq reg => (h'.others q hq reg).trans (h.others q hq reg)
  rest := fun addr haddr => (h'.rest addr haddr).trans (h.rest addr haddr)

theorem congr (h : Configures p written old new)
    (hsame : ∀ reg, ∀ b < 32,
      (written' reg).lookup b = (written reg).lookup b) :
    Configures p written' old new where
  own := fun reg => (h.own reg).congr (hsame reg)
  others := h.others
  rest := h.rest

end Configures

-- ========================================================== the functions

/-- The bit that `tx2_gpio_init` sets first. -/
theorem enable_configures (regs : GpioBlock) (p : Pin) :
    Configures p (only .enableConfig [(0, true)]) regs
      (Function.update regs (p.reg .enableConfig)
        (regs (p.reg .enableConfig) ||| configEnable)) :=
  .setBit p regs .enableConfig (by decide)

/-- `tx2_gpio_set_direction` for an output. -/
theorem setDirection_out (regs : GpioBlock) (p : Pin) {dir : GpioDir}
    (hout : dir = .outDefaultHigh ∨ dir = .outDefaultLow) :
    ∃ regs', tx2GpioSetDirection regs p.id dir = some (0, regs')
      ∧ Configures p
        (fun r => only .outputControl [(0, false)] r
          ++ only .enableConfig [(1, true)] r) regs regs' := by
  have hapart : p.reg .outputControl ≠ p.reg .enableConfig := by
    intro heq
    cases (Pin.reg_inj heq).2
  have hconfig := Configures.setBit p regs .enableConfig
    (show 1 < 32 by decide)
  have hcontrol := Configures.clearBit p
    (Function.update regs (p.reg .enableConfig)
      (regs (p.reg .enableConfig) ||| mask 1)) .outputControl
    (show 0 < 32 by decide)
  rw [Function.update_of_ne hapart] at hcontrol
  refine ⟨_, ?_, hconfig.trans hcontrol⟩
  rw [tx2GpioSetDirection, p.getRegister, p.getRegister]
  exact if_pos hout

/-- For the input it fails, and writes nothing. -/
theorem setDirection_input (regs : GpioBlock) (p : Pin) :
    tx2GpioSetDirection regs p.id .input = some (-einval, regs) := by
  rw [tx2GpioSetDirection, p.getRegister, p.getRegister]
  rfl

/-- The trigger of a word: two bits for the type and one for the level. -/
def trigger (w : UInt32) : List (Nat × Bool) :=
  [(2, testBit w 2), (3, testBit w 3), (4, testBit w 4)]

/-- The bits of the trigger are cleared and those of a type are set. -/
theorem sets_trigger (w : UInt32) {lvlType : UInt32}
    (hin : ∀ b < 32, b < 2 ∨ 4 < b → testBit lvlType b = false) :
    Sets (trigger lvlType) w (w &&& ~~~configTriggerMask ||| lvlType) := by
  intro b hb
  have hmask : testBit configTriggerMask b = decide (2 ≤ b ∧ b ≤ 4) := by
    rw [configTriggerMask, testBit_or_mask _ (by decide),
      testBit_or_mask _ (by decide), testBit_mask (by decide),
      Bool.eq_iff_iff]
    simp only [Bool.or_eq_true, decide_eq_true_eq]
    omega
  rw [testBit_or, testBit_and_not _ _ hb, hmask]
  by_cases hrange : 2 ≤ b ∧ b ≤ 4
  · have hcases : b = 2 ∨ b = 3 ∨ b = 4 := by omega
    rcases hcases with h | h | h
    · simp [h, trigger]
    · simp [h, trigger, List.lookup_cons]
    · simp [h, trigger, List.lookup_cons]
  · have h₂ : (b == 2) = false := beq_eq_false_iff_ne.2 (by omega)
    have h₃ : (b == 3) = false := beq_eq_false_iff_ne.2 (by omega)
    have h₄ : (b == 4) = false := beq_eq_false_iff_ne.2 (by omega)
    rw [hin b hb (by omega)]
    simp [trigger, List.lookup_cons, h₂, h₃, h₄, hrange]

/-- The types of `tx2_gpio_set_interrupt_type` have bits of the trigger
only. -/
theorem interruptType_bits {dir : GpioDir} {lvlType : UInt32}
    (h : interruptType dir = some lvlType) :
    ∀ b < 32, b < 2 ∨ 4 < b → testBit lvlType b = false := by
  cases dir with
  | input => cases h
  | outDefaultLow => cases h
  | outDefaultHigh => cases h
  | irqLow => cases h; decide
  | irqHigh => cases h; decide
  | irqFall => cases h; decide
  | irqRise => cases h; decide
  | irqEdge => cases h; decide

/-- `tx2_gpio_set_interrupt_type` for an interrupt. -/
theorem setInterruptType_configures (regs : GpioBlock) (p : Pin)
    {dir : GpioDir} {lvlType : UInt32}
    (htype : interruptType dir = some lvlType) :
    ∃ regs', tx2GpioSetInterruptType regs p.id dir = some (0, regs')
      ∧ Configures p (only .enableConfig (trigger lvlType)) regs regs' := by
  refine ⟨_, ?_, .write (sets_trigger (regs (p.reg .enableConfig))
    (interruptType_bits htype))⟩
  rw [tx2GpioSetInterruptType, p.getRegister, Option.bind_eq_bind,
    Option.bind_some, htype]
  rfl

/-- The interrupt is disabled. -/
theorem irqDisable (regs : GpioBlock) (p : Pin) :
    ∃ regs', tx2GpioIrqEnableDisable regs p.id false = some (0, regs')
      ∧ Configures p (only .enableConfig [(6, false)]) regs regs' := by
  refine ⟨_, ?_, .clearBit p regs .enableConfig (show 6 < 32 by decide)⟩
  rw [tx2GpioIrqEnableDisable, p.getRegister]
  rfl

-- =============================================================== the pins

/-- What `tx2_gpio_init` writes for an output. -/
theorem init_out (regs : GpioBlock) (p : Pin) {dir : GpioDir}
    (hout : dir = .outDefaultHigh ∨ dir = .outDefaultLow) :
    InitRight regs p dir := by
  obtain ⟨regs', hset, hconf⟩ := setDirection_out
    (Function.update regs (p.reg .enableConfig)
      (regs (p.reg .enableConfig) ||| configEnable)) p hout
  refine ⟨regs', ?_, ((enable_configures regs p).trans hconf).congr ?_⟩
  · rw [tx2GpioInit, if_neg (by simp [p.valid]), p.getRegister,
      Option.bind_eq_bind, Option.bind_some, if_pos (Or.inr hout), hset]
  · rcases hout with h | h
    · subst h
      intro reg
      cases reg <;> decide
    · subst h
      intro reg
      cases reg <;> decide

/-- What it writes for an interrupt. -/
theorem init_irq (regs : GpioBlock) (p : Pin) {dir : GpioDir}
    {lvlType : UInt32} (htype : interruptType dir = some lvlType) :
    ∃ regs', tx2GpioInit regs p.id dir = some (0, regs')
      ∧ Configures p
        (only .enableConfig
          ((6, false) :: trigger lvlType ++ [(0, true)])) regs regs' := by
  have hirq : ¬(dir = .input ∨ dir = .outDefaultHigh
      ∨ dir = .outDefaultLow) := by
    rintro (h | h | h) <;> subst h <;> cases htype
  have henable := enable_configures regs p
  obtain ⟨regs₁, hset, hconf⟩ := setInterruptType_configures
    (Function.update regs (p.reg .enableConfig)
      (regs (p.reg .enableConfig) ||| configEnable)) p htype
  obtain ⟨regs', hdisable, hconf'⟩ := irqDisable regs₁ p
  refine ⟨regs', ?_, ((henable.trans hconf).trans hconf').congr ?_⟩
  · rw [tx2GpioInit, if_neg (by simp [p.valid]), p.getRegister,
      Option.bind_eq_bind, Option.bind_some, if_neg hirq, hset]
    exact hdisable
  · intro reg b _
    simp only [only]
    split
    · rfl
    · rfl

/-- `tx2_gpio_init` does what was asked but for the input and for the
interrupt on the high level. -/
theorem initRight_iff (regs : GpioBlock) (p : Pin) (dir : GpioDir) :
    InitRight regs p dir ↔ dir ≠ .input ∧ dir ≠ .irqHigh := by
  have hright : ∀ {lvlType}, interruptType dir = some lvlType →
      (∀ reg, ∀ b < 32, (initWrites dir reg).lookup b
        = (only .enableConfig ((6, false) :: trigger lvlType ++ [(0, true)])
            reg).lookup b) → InitRight regs p dir := by
    intro lvlType htype hsame
    obtain ⟨regs', hinit, hconf⟩ := init_irq regs p htype
    exact ⟨regs', hinit, hconf.congr hsame⟩
  cases dir with
  | input =>
      refine ⟨?_, fun h => absurd rfl h.1⟩
      intro ⟨regs', hinit, _⟩
      rw [tx2GpioInit, if_neg (by simp [p.valid]), p.getRegister,
        Option.bind_eq_bind, Option.bind_some, if_pos (Or.inl rfl),
        setDirection_input] at hinit
      simp [einval] at hinit
  | irqHigh =>
      refine ⟨?_, fun h => absurd rfl h.2⟩
      intro ⟨regs', hinit, hwant⟩
      obtain ⟨regs'', hinit', hgot⟩ := init_irq regs p
        (show interruptType .irqHigh = some configTypeLevel from rfl)
      rw [hinit', Option.some.injEq, Prod.mk.injEq] at hinit
      rw [hinit.2] at hgot
      have hhigh : testBit (regs' (p.reg .enableConfig)) 4 = true :=
        (hwant.own .enableConfig).bit (by decide) rfl
      have hlow : testBit (regs' (p.reg .enableConfig)) 4 = false :=
        (hgot.own .enableConfig).bit (by decide) (by decide)
      rw [hhigh] at hlow
      cases hlow
  | outDefaultLow => simp [init_out]
  | outDefaultHigh => simp [init_out]
  | irqLow =>
      refine iff_of_true (hright rfl ?_) (by simp)
      intro reg
      cases reg <;> decide
  | irqFall =>
      refine iff_of_true (hright rfl ?_) (by simp)
      intro reg
      cases reg <;> decide
  | irqRise =>
      refine iff_of_true (hright rfl ?_) (by simp)
      intro reg
      cases reg <;> decide
  | irqEdge =>
      refine iff_of_true (hright rfl ?_) (by simp)
      intro reg
      cases reg <;> decide

/-- `tx2_gpio_set_level` sets the level that the constant stands for. -/
theorem setLevelRight_iff (levelHigh : Int) (regs : GpioBlock) (p : Pin)
    (level : GpioLevel) :
    SetLevelRight levelHigh regs p level
      ↔ (level = .high ↔ levelHigh ≠ 0) := by
  have hset : ∃ regs',
      tx2GpioSetLevel levelHigh regs p.id level = some (0, regs')
      ∧ Configures p (only .outputValue [(0, decide (levelHigh ≠ 0))])
        regs regs' := by
    unfold tx2GpioSetLevel
    rw [if_neg (by simp [p.valid]), p.getRegister, Option.bind_eq_bind,
      Option.bind_some]
    by_cases hne : levelHigh ≠ 0
    · rw [if_pos hne, decide_eq_true hne]
      exact ⟨_, rfl, .setBit p regs .outputValue (by decide)⟩
    · rw [if_neg hne, decide_eq_false hne]
      exact ⟨_, rfl, .clearBit p regs .outputValue (by decide)⟩
  obtain ⟨regs', hrun, hconf⟩ := hset
  constructor
  · intro ⟨regs'', hrun', hwant⟩
    rw [hrun, Option.some.injEq, Prod.mk.injEq] at hrun'
    rw [← hrun'.2] at hwant
    have hwanted : testBit (regs' (p.reg .outputValue)) 0
        = decide (level = .high) := (hwant.own .outputValue).bit (by decide) rfl
    have hgot : testBit (regs' (p.reg .outputValue)) 0
        = decide (levelHigh ≠ 0) :=
      (hconf.own .outputValue).bit (by decide) rfl
    rw [hgot] at hwanted
    exact (decide_eq_decide.1 hwanted).symm
  · intro hiff
    refine ⟨regs', hrun, hconf.congr ?_⟩
    intro reg b _
    rw [← decide_eq_decide.2 hiff]
    cases reg <;> rfl

/-- The configuration of a pin does what was asked exactly for outputs and
the interrupts on edges and on the low level, and the level that is set is
the one asked for exactly if this is the one of the constant. -/
theorem gpio_right_iff (levelHigh : Int) (regs : GpioBlock) (p : Pin)
    (dir : GpioDir) (level : GpioLevel) :
    (InitRight regs p dir ↔ dir ≠ .input ∧ dir ≠ .irqHigh)
      ∧ (SetLevelRight levelHigh regs p level
        ↔ (level = .high ↔ levelHigh ≠ 0)) :=
  ⟨initRight_iff regs p dir, setLevelRight_iff levelHigh regs p level⟩

/-- Pin A0 is not made an input, and is not set low. -/
theorem gpio_right_fails :
    ¬(InitRight (fun _ => 0) ⟨0, by decide⟩ .input)
      ∧ ¬(SetLevelRight 1 (fun _ => 0) ⟨0, by decide⟩ .low) := by
  constructor
  · rw [initRight_iff]
    exact fun h => h.1 rfl
  · rw [setLevelRight_iff]
    decide

end ProjectsLibs.Tx2
