/-
The pin multiplexer of the TX2, and when it does what is asked.

The value for a pin is `assembled` unless its flags are refused
(`requiredVal_eq`). A pin that is not refused ends with this value, or, if
the register had it before, with the transient one: the early return comes
after the first write (`settled`). So a second call changes what the
first one left, unless the two values are the same (`enableRight_iff`), and
a refused pin and those in front of it are not put back
(`refusalRight_iff`).

# Bits and registers

The value of a register is a chain of read-modify-write operations on a
word, each under a condition on the flags. `testBit_assembled` is the
table of its bits; from there the questions are about single bits: which
flags leave only the tristate bit, and when the value with only that bit
encodes what was asked for.

A feature is a list of pins with registers of their own, so what one pin
does is not undone by another. The loop is followed by induction over the
listed pins, with the pin map read up to its end marker. An index past
the table of pin maps is read behind the array, and counts as a failure.
-/
import ProjectsLibs.Lib.Words
import ProjectsLibs.Tx2.Mux

namespace ProjectsLibs.Tx2

open Lib

variable {desc d : PinDesc} {dir : MuxGpioDir} {regs regs' : MuxBlock}
  {pins : List PinDesc} {pinmaps : Pinmaps} {feature : Int}

-- ============================================================= the value

/-- The value for a pin, without the checks of its flags. -/
def assembled (desc : PinDesc) (dir : MuxGpioDir) : UInt32 :=
  let v := (desc.muxSfioValue.toUInt32 &&& low 2) <<< UInt32.ofNat 3
  let v := if desc.has pIn then v ||| mask 6 else v
  let v := if desc.has pSchmt then v ||| mask 12 else v
  let v := if desc.has pPushpull then v &&& ~~~mask 4 else v
  let v := if desc.has pTristate then v ||| mask 4 else v
  let v := if desc.has pPullup ∨ desc.has pPulldown then
      (v &&& ~~~(mask 2 ||| mask 3))
        ||| (if desc.has pPullup then mask 3 else mask 2) else v
  let v := if desc.has pOpenDrain then v ||| mask 5 else v
  if dir = .notAGpio then v ||| mask 0 else v

/-- The checks of the flags come to one condition. -/
theorem requiredVal_eq (desc : PinDesc) (dir : MuxGpioDir) :
    requiredVal desc dir
      = if Conflicts desc then none else some (assembled desc dir) := by
  have hbase : ∀ x : UInt32,
      (x &&& muxRegSfioSelectMask) <<< muxRegSfioSelectMask
        = (x &&& low 2) <<< UInt32.ofNat 3 := fun _ => rfl
  have hschmt : desc.has pSchmt = desc.has pPushpull := rfl
  have htristate : muxRegTristateTristate <<< UInt32.ofNat 4 = mask 4 := rfl
  have hup : muxRegPupdPullup <<< UInt32.ofNat 2 = mask 3 := by decide
  have hdown : muxRegPupdPulldown <<< UInt32.ofNat 2 = mask 2 := by decide
  have hmask : muxRegPupdMask <<< UInt32.ofNat 2 = mask 2 ||| mask 3 := by
    decide
  have hpull : (if desc.has pPullup then muxRegPupdPullup
      else muxRegPupdPulldown) <<< UInt32.ofNat 2
      = if desc.has pPullup then mask 3 else mask 2 := by
    split
    · exact hup
    · exact hdown
  simp only [requiredVal, assembled, hbase, hschmt, muxRegEnableShift,
    muxRegSchmtShift, muxRegTristateShift, muxRegPupdShift,
    muxRegOpenDrainShift, muxRegSfioSelectShift, htristate, hmask, hpull]
  cases hpp : desc.has pPushpull <;> cases ht : desc.has pTristate <;>
    cases ho : desc.has pOpenDrain <;> cases hu : desc.has pPullup <;>
    cases hd : desc.has pPulldown <;>
    simp [Conflicts, hpp, ht, ho, hu, hd]

-- ================================================================ its bits

/-- A bit that is set under a condition. -/
theorem testBit_ite_or (c : Prop) [Decidable c] (w : UInt32) {a : Nat}
    (ha : a < 32) (b : Nat) :
    testBit (if c then w ||| mask a else w) b
      = (testBit w b || (decide c && decide (a = b))) := by
  by_cases hc : c
  · rw [if_pos hc, testBit_or_mask _ ha, decide_eq_true hc, Bool.true_and]
  · rw [if_neg hc, decide_eq_false hc, Bool.false_and, Bool.or_false]

/-- A bit that is cleared under a condition. -/
theorem testBit_ite_and_not (c : Prop) [Decidable c] (w : UInt32) {a b : Nat}
    (ha : a < 32) (hb : b < 32) :
    testBit (if c then w &&& ~~~mask a else w) b
      = (testBit w b && !(decide c && decide (a = b))) := by
  by_cases hc : c
  · rw [if_pos hc, testBit_and_not_mask _ ha hb, decide_eq_true hc,
      Bool.true_and, decide_not]
  · rw [if_neg hc, decide_eq_false hc, Bool.false_and, Bool.not_false,
      Bool.and_true]

/-- The two bits of the pull resistor. -/
theorem testBit_pull (up down : Bool) (w : UInt32) {b : Nat} (hb : b < 32) :
    testBit (if up ∨ down then (w &&& ~~~(mask 2 ||| mask 3))
        ||| (if up then mask 3 else mask 2) else w) b
      = if b = 2 ∧ (up || down) then !up
        else if b = 3 ∧ (up || down) then up
        else testBit w b := by
  have hclear : testBit (w &&& ~~~(mask 2 ||| mask 3)) b
      = (testBit w b && decide (b ≠ 2 ∧ b ≠ 3)) := by
    rw [testBit_and_not _ _ hb, testBit_or_mask _ (by decide),
      testBit_mask (by decide)]
    congr 1
    rw [Bool.eq_iff_iff]
    simp only [Bool.not_eq_true', Bool.or_eq_false_iff, decide_eq_false_iff_not,
      decide_eq_true_eq]
    omega
  cases up with
  | true =>
      rw [if_pos (Or.inl rfl), if_pos rfl, testBit_or_mask _ (by decide),
        hclear]
      by_cases h2 : b = 2
      · simp [h2]
      · by_cases h3 : b = 3
        · simp [h3]
        · simp [h2, h3, Ne.symm h3]
  | false =>
      cases down with
      | true =>
          rw [if_pos (Or.inr rfl), if_neg (by simp),
            testBit_or_mask _ (by decide), hclear]
          by_cases h2 : b = 2
          · simp [h2]
          · by_cases h3 : b = 3
            · simp [h3]
            · simp [h2, h3, Ne.symm h2]
      | false => simp

/-- Bit `b` of the value. -/
theorem testBit_assembled (desc : PinDesc) (dir : MuxGpioDir) {b : Nat}
    (hb : b < 32) :
    testBit (assembled desc dir) b =
      (if b = 0 then decide (dir = .notAGpio)
      else if b = 2 then !desc.has pPullup && desc.has pPulldown
      else if b = 3 then desc.has pPullup
        || (!desc.has pPulldown && testBit desc.muxSfioValue.toUInt32 0)
      else if b = 4 then desc.has pTristate
        || (!desc.has pPushpull && testBit desc.muxSfioValue.toUInt32 1)
      else if b = 5 then desc.has pOpenDrain
      else if b = 6 then desc.has pIn
      else if b = 12 then desc.has pPushpull
      else false) := by
  have hschmt : desc.has pSchmt = desc.has pPushpull := rfl
  have hlow : ∀ x : UInt32, testBit ((x &&& low 2) <<< UInt32.ofNat 3) b
      = (decide (3 ≤ b) && (testBit x (b - 3) && decide (b - 3 < 2))) := by
    intro x
    rw [testBit_shiftLeft _ (by decide) hb, testBit_and,
      testBit_low (by decide)]
  rw [assembled, testBit_ite_or _ _ (by decide),
    testBit_ite_or _ _ (by decide), testBit_pull _ _ _ hb,
    testBit_ite_or _ _ (by decide), testBit_ite_and_not _ _ (by decide) hb,
    testBit_ite_or _ _ (by decide), testBit_ite_or _ _ (by decide), hlow,
    hschmt]
  by_cases h0 : b = 0
  · simp [h0]
  by_cases h2 : b = 2
  · cases hu : desc.has pPullup <;> cases hd : desc.has pPulldown <;> simp [h2]
  by_cases h3 : b = 3
  · cases hu : desc.has pPullup <;> cases hd : desc.has pPulldown <;> simp [h3]
  by_cases h4 : b = 4
  · cases ht : desc.has pTristate <;> simp [h4, Bool.and_comm]
  by_cases h5 : b = 5
  · simp [h5]
  by_cases h6 : b = 6
  · simp [h6]
  by_cases h12 : b = 12
  · simp [h12]
  have hhigh : ¬b - 3 < 2 ∨ ¬3 ≤ b := by omega
  simp [h0, h2, h3, h4, h5, h6, h12, Ne.symm h0, Ne.symm h4, Ne.symm h5,
    Ne.symm h6, Ne.symm h12]
  omega
/-- The value is that of the first write for the pins that ask for no more
than the tristate. -/
theorem assembled_eq_tristate_iff (desc : PinDesc) (dir : MuxGpioDir) :
    assembled desc dir = mask 4 ↔ TristateAlone desc dir := by
  have hbit : ∀ {b}, b < 32 → assembled desc dir = mask 4 →
      testBit (assembled desc dir) b = decide (4 = b) := by
    intro b _ heq
    rw [heq, testBit_mask (by decide)]
  constructor
  · intro heq
    have h0 := hbit (show 0 < 32 by decide) heq
    have h2 := hbit (show 2 < 32 by decide) heq
    have h3 := hbit (show 3 < 32 by decide) heq
    have h4 := hbit (show 4 < 32 by decide) heq
    have h5 := hbit (show 5 < 32 by decide) heq
    have h6 := hbit (show 6 < 32 by decide) heq
    have h12 := hbit (show 12 < 32 by decide) heq
    rw [testBit_assembled _ _ (by decide)] at h0 h2 h3 h4 h5 h6 h12
    simp_all [TristateAlone]
  · intro ⟨hdir, hin, hpp, hod, hup, hdown, hs, ht⟩
    apply eq_of_testBit
    intro b hb
    rw [testBit_assembled _ _ hb, testBit_mask (by decide)]
    by_cases h4 : b = 4
    · rcases ht with ht | ht
      · simp_all
      · simp_all
    · simp_all [Ne.symm h4]

/-- No function is selected. -/
theorem select_eq_zero_iff (x : UInt32) :
    x &&& muxRegSfioSelectMask = 0
      ↔ testBit x 0 = false ∧ testBit x 1 = false := by
  have hbits : ∀ b, testBit (x &&& muxRegSfioSelectMask) b
      = (testBit x b && decide (b < 2)) := by
    intro b
    rw [testBit_and, show muxRegSfioSelectMask = low 2 from rfl,
      testBit_low (by decide)]
  constructor
  · intro hzero
    have h0 := hbits 0
    have h1 := hbits 1
    rw [hzero, testBit_zero] at h0 h1
    simp_all
  · intro ⟨h0, h1⟩
    apply eq_of_testBit
    intro b _
    rw [hbits, testBit_zero]
    by_cases hb : b < 2
    · have hcases : b = 0 ∨ b = 1 := by omega
      rcases hcases with h | h
      · simp [h, h0]
      · simp [h, h1]
    · rw [decide_eq_false hb, Bool.and_false]

/-- The transient value encodes the pins that are only tristate. -/
theorem encodes_tristate_iff (desc : PinDesc) :
    Encodes desc (mask 4)
      ↔ ¬desc.has pIn ∧ ¬desc.has pOpenDrain ∧ ¬desc.has pPullup
        ∧ ¬desc.has pPulldown ∧ desc.has pTristate
        ∧ testBit desc.muxSfioValue.toUInt32 0 = false
        ∧ testBit desc.muxSfioValue.toUInt32 1 = false := by
  have hselect : take 2 0 (mask 4) = 0 := by decide
  have hpull : take 2 2 (mask 4) = 0 := by decide
  have h4 : testBit (mask 4) 4 = true := by decide
  have h5 : testBit (mask 4) 5 = false := by decide
  have h6 : testBit (mask 4) 6 = false := by decide
  constructor
  · intro h
    have hsfio := h.sfio
    have hup := h.pull
    have htri := h.tristate
    have hod := h.openDrain
    have hin := h.enable
    rw [hselect, eq_comm, select_eq_zero_iff] at hsfio
    rw [h4] at htri
    rw [h5] at hod
    rw [h6] at hin
    have hnone : desc.has pPullup = false ∧ desc.has pPulldown = false := by
      rw [hpull] at hup
      cases hu : desc.has pPullup with
      | true =>
          rw [hu, if_pos rfl] at hup
          exact absurd hup (by decide)
      | false =>
          cases hd : desc.has pPulldown with
          | true =>
              rw [hu, hd] at hup
              exact absurd hup (by decide)
          | false => exact ⟨rfl, rfl⟩
    simp [← hin, ← hod, ← htri, hnone, hsfio]
  · intro ⟨hin, hod, hup, hdown, htri, hs⟩
    refine ⟨?_, ?_, ?_, ?_, ?_⟩
    · rw [hselect, eq_comm, select_eq_zero_iff]
      exact hs
    · rw [hpull, if_neg hup, if_neg hdown]
    · rw [h4, htri]
    · rw [h5, Bool.eq_false_iff.2 hod]
    · rw [h6, Bool.eq_false_iff.2 hin]

-- ================================================================ one pin

/-- What the register of a pin that is not refused holds in the end. -/
def settled (desc : PinDesc) (dir : MuxGpioDir) (before : UInt32) : UInt32 :=
  if before = assembled desc dir then mask 4 else assembled desc dir

/-- A pin whose parameters do not conflict has its register written with
what was put together. -/
theorem setPinParams_accepted (regs : MuxBlock) (dir : MuxGpioDir)
    (hok : ¬Conflicts desc) :
    tx2MuxSetPinParams regs desc dir
      = (0, Function.update regs desc.muxRegOffset
          (settled desc dir (regs desc.muxRegOffset))) := by
  rw [tx2MuxSetPinParams, requiredVal_eq, if_neg hok]
  unfold settled
  by_cases hsame : regs desc.muxRegOffset = assembled desc dir
  · simp only [if_pos hsame]
    rfl
  · simp only [if_neg hsame, Function.update_idem]

/-- One whose parameters do is refused, with the register in tristate. -/
theorem setPinParams_refused (regs : MuxBlock) (dir : MuxGpioDir)
    (hrefused : Conflicts desc) :
    tx2MuxSetPinParams regs desc dir
      = (-einval, Function.update regs desc.muxRegOffset (mask 4)) := by
  rw [tx2MuxSetPinParams, requiredVal_eq, if_pos hrefused]
  rfl

/-- What a pin ends with stays only if both values are the same. -/
theorem settled_eq_iff (desc : PinDesc) (dir : MuxGpioDir) (v : UInt32) :
    settled desc dir v = v ↔ assembled desc dir = mask 4 ∧ v = mask 4 := by
  unfold settled
  by_cases hsame : v = assembled desc dir
  · rw [if_pos hsame, hsame]
    exact ⟨fun h => ⟨h.symm, h.symm⟩, fun h => h.1.symm⟩
  · rw [if_neg hsame]
    exact ⟨fun h => absurd h.symm hsame,
      fun h => absurd (h.2.trans h.1.symm) hsame⟩

theorem settled_of_eq (h : assembled desc dir = mask 4) (v : UInt32) :
    settled desc dir v = mask 4 := by
  unfold settled
  split
  · rfl
  · exact h

-- =============================================================== the loop

/-- The loop stops at the end of the listed pins. -/
theorem setPins_listed (dir : MuxGpioDir) (regs : MuxBlock)
    (pins : List PinDesc) :
    setPins dir regs pins = setPins dir regs (listed pins) := by
  induction pins generalizing regs with
  | nil => rfl
  | cons d rest ih =>
      unfold listed
      by_cases hend : d.gpioPin = -1
      · rw [List.takeWhile_cons_of_neg (by simp [hend])]
        exact if_pos hend
      · rw [List.takeWhile_cons_of_pos (by simp [hend]), setPins, setPins,
          if_neg hend, if_neg hend]
        simp only [ih]
        rfl

/-- The end marker is not a pin. -/
theorem listed_ne (hd : d ∈ listed pins) : d.gpioPin ≠ -1 := by
  have h := List.all_eq_true.1 List.all_takeWhile d hd
  simpa using h

/-- Pins that are not refused: each register ends as its pin says, and no
other one changes. -/
theorem setPins_accepted (dir : MuxGpioDir) (regs : MuxBlock)
    (hend : ∀ d ∈ pins, d.gpioPin ≠ -1)
    (hdistinct : (pins.map PinDesc.muxRegOffset).Nodup)
    (hok : ∀ d ∈ pins, ¬Conflicts d) :
    ∃ regs', setPins dir regs pins = (0, regs')
      ∧ (∀ d ∈ pins, regs' d.muxRegOffset
          = settled d dir (regs d.muxRegOffset))
      ∧ ∀ off, off ∉ pins.map PinDesc.muxRegOffset →
          regs' off = regs off := by
  induction pins generalizing regs with
  | nil => exact ⟨regs, rfl, fun d hd => by simp at hd, fun _ _ => rfl⟩
  | cons d rest ih =>
      have hd := List.mem_cons_self (a := d) (l := rest)
      rw [List.map_cons, List.nodup_cons] at hdistinct
      obtain ⟨regs', hrun, hown, hother⟩ := ih
        (Function.update regs d.muxRegOffset
          (settled d dir (regs d.muxRegOffset)))
        (fun x hx => hend x (List.mem_cons_of_mem _ hx)) hdistinct.2
        (fun x hx => hok x (List.mem_cons_of_mem _ hx))
      have hne : ∀ x ∈ rest, x.muxRegOffset ≠ d.muxRegOffset := by
        intro x hx heq
        exact hdistinct.1 (heq ▸ List.mem_map_of_mem hx)
      refine ⟨regs', ?_, ?_, ?_⟩
      · rw [setPins, if_neg (hend d hd),
          setPinParams_accepted regs dir (hok d hd)]
        exact hrun
      · intro x hx
        rcases List.mem_cons.1 hx with h | h
        · rw [h, hother _ hdistinct.1, Function.update_self]
        · rw [hown x h, Function.update_of_ne (hne x h)]
      · intro off hoff
        rw [List.map_cons, List.mem_cons, not_or] at hoff
        rw [hother off hoff.2, Function.update_of_ne hoff.1]

/-- A pin that is refused ends the loop. -/
theorem setPins_refused (dir : MuxGpioDir) (regs : MuxBlock)
    {front back : List PinDesc}
    (hend : ∀ d ∈ front ++ desc :: back, d.gpioPin ≠ -1)
    (hok : ∀ d ∈ front, ¬Conflicts d) (hrefused : Conflicts desc) :
    setPins dir regs (front ++ desc :: back)
      = (-einval, Function.update (setPins dir regs front).2
          desc.muxRegOffset (mask 4)) := by
  induction front generalizing regs with
  | nil =>
      have hd : desc.gpioPin ≠ -1 := hend desc (by simp)
      simp only [List.nil_append, setPins, if_neg hd,
        setPinParams_refused regs dir hrefused]
      rfl
  | cons d front ih =>
      have hd := hend d (by simp)
      rw [List.cons_append, setPins, setPins, if_neg hd, if_neg hd,
        setPinParams_accepted regs dir (hok d (by simp))]
      exact ih _ (fun x hx => hend x (List.mem_cons_of_mem _ hx))
        (fun x hx => hok x (List.mem_cons_of_mem _ hx))

-- ============================================================ the feature

theorem pinsOf_end (hd : d ∈ pinsOf pinmaps feature) : d.gpioPin ≠ -1 := by
  unfold pinsOf at hd
  split at hd
  · exact listed_ne hd
  · cases hd

/-- The pins of a feature have registers of their own. -/
theorem pinsOf_distinct (pinmaps : Pinmaps) (feature : Int) :
    ((pinsOf pinmaps feature).map PinDesc.muxRegOffset).Nodup := by
  unfold pinsOf
  split
  · exact (pinmaps _).distinct
  · exact List.nodup_nil

/-- A feature that is refused before any pin is looked at. -/
theorem enable_refusedFirst (pinmaps : Pinmaps) (regs : MuxBlock)
    (h : RefusedFirst feature dir) :
    tx2MuxFeatureEnable pinmaps regs feature dir = .ok (-einval, regs) := by
  unfold tx2MuxFeatureEnable isValidFeature
  by_cases hvalid : 0 ≤ feature ∧ feature ≤ nmuxFeatures
  · rcases h with h | h
    · exact absurd hvalid h
    · rw [if_neg (by simpa using hvalid), if_pos h]
  · rw [if_pos (by simpa using hvalid)]

/-- Any other feature is its pins, if there is a pin map for it. -/
theorem enable_pins (pinmaps : Pinmaps) (regs : MuxBlock)
    (h : ¬RefusedFirst feature dir) :
    tx2MuxFeatureEnable pinmaps regs feature dir
      = if feature.toNat < nmuxFeatures then
          .ok (setPins dir regs (pinsOf pinmaps feature))
        else .error .pastTable := by
  rw [RefusedFirst, not_or, not_not] at h
  unfold tx2MuxFeatureEnable isValidFeature
  rw [if_neg (by simpa using h.1), if_neg h.2]
  unfold pinsOf
  by_cases hlt : feature.toNat < nmuxFeatures
  · rw [dif_pos hlt, if_pos hlt, dif_pos hlt, setPins_listed]
  · rw [dif_neg hlt, if_neg hlt]

/-- The pins of a feature, all accepted. -/
theorem enable_accepted (pinmaps : Pinmaps) (regs : MuxBlock)
    (h : ¬RefusedFirst feature dir) (hlt : feature.toNat < nmuxFeatures)
    (hok : ∀ d ∈ pinsOf pinmaps feature, ¬Conflicts d) :
    ∃ regs', tx2MuxFeatureEnable pinmaps regs feature dir = .ok (0, regs')
      ∧ (∀ d ∈ pinsOf pinmaps feature, regs' d.muxRegOffset
          = settled d dir (regs d.muxRegOffset))
      ∧ ∀ off, off ∉ (pinsOf pinmaps feature).map PinDesc.muxRegOffset →
          regs' off = regs off := by
  obtain ⟨regs', hrun, hown, hother⟩ := setPins_accepted dir regs
    (fun d hd => pinsOf_end hd) (pinsOf_distinct pinmaps feature) hok
  refine ⟨regs', ?_, hown, hother⟩
  rw [enable_pins pinmaps regs h, if_pos hlt, hrun]

/-- One of them refused: the first one that is. -/
theorem enable_refused (pinmaps : Pinmaps) (regs : MuxBlock)
    (h : ¬RefusedFirst feature dir) (hlt : feature.toNat < nmuxFeatures)
    {front back : List PinDesc}
    (hpins : pinsOf pinmaps feature = front ++ desc :: back)
    (hok : ∀ d ∈ front, ¬Conflicts d) (hrefused : Conflicts desc) :
    tx2MuxFeatureEnable pinmaps regs feature dir
      = .ok (-einval, Function.update (setPins dir regs front).2
          desc.muxRegOffset (mask 4)) := by
  rw [enable_pins pinmaps regs h, if_pos hlt, hpins,
    setPins_refused dir regs (fun d hd => pinsOf_end (hpins ▸ hd)) hok
      hrefused]

/-- Pins are all accepted, or there is a first one that is not. -/
theorem accepted_or_first (pins : List PinDesc) :
    (∀ d ∈ pins, ¬Conflicts d)
      ∨ ∃ front desc back, pins = front ++ desc :: back
        ∧ Conflicts desc ∧ ∀ d ∈ front, ¬Conflicts d := by
  induction pins with
  | nil => exact Or.inl fun d hd => by simp at hd
  | cons d rest ih =>
      by_cases hd : Conflicts d
      · exact Or.inr ⟨[], d, rest, rfl, hd, fun x hx => by simp at hx⟩
      · rcases ih with hok | ⟨front, desc, back, hpins, hrefused, hfront⟩
        · refine Or.inl fun x hx => ?_
          rcases List.mem_cons.1 hx with h | h
          · exact h ▸ hd
          · exact hok x h
        · refine Or.inr ⟨d :: front, desc, back, by rw [hpins]; rfl,
            hrefused, fun x hx => ?_⟩
          rcases List.mem_cons.1 hx with h | h
          · exact h ▸ hd
          · exact hfront x h

/-- The condition of one pin: both values are the same and encode it. -/
theorem onlyTristate_iff (desc : PinDesc) (dir : MuxGpioDir) :
    OnlyTristate desc dir
      ↔ assembled desc dir = mask 4 ∧ Encodes desc (mask 4) := by
  rw [OnlyTristate, assembled_eq_tristate_iff, encodes_tristate_iff,
    TristateAlone]
  constructor
  · intro ⟨halone, htri, hs⟩
    exact ⟨halone, halone.2.1, halone.2.2.2.1, halone.2.2.2.2.1,
      halone.2.2.2.2.2.1, htri, halone.2.2.2.2.2.2.1, hs⟩
  · intro ⟨halone, _, _, _, _, htri, _, hs⟩
    exact ⟨halone, htri, hs⟩

/-- A feature without a pin map that is not refused: what is read behind
the table is not a result. -/
theorem enable_pastTable (pinmaps : Pinmaps) (regs : MuxBlock)
    (h : ¬RefusedFirst feature dir) (hlt : ¬feature.toNat < nmuxFeatures)
    (r : Int × MuxBlock) :
    tx2MuxFeatureEnable pinmaps regs feature dir ≠ .ok r := by
  rw [enable_pins pinmaps regs h, if_neg hlt]
  exact fun hrun => nomatch hrun

/-- To enable a feature establishes its configuration exactly if it is
refused, or it has a pin map and all its pins are GPIOs that are to be
tristate and nothing else. -/
theorem enableRight_iff (pinmaps : Pinmaps) (regs : MuxBlock)
    (feature : Int) (dir : MuxGpioDir) :
    EnableRight pinmaps regs feature dir
      ↔ RefusedFirst feature dir
        ∨ feature.toNat < nmuxFeatures
          ∧ ((∃ d ∈ pinsOf pinmaps feature, Conflicts d)
            ∨ ∀ d ∈ pinsOf pinmaps feature, OnlyTristate d dir) := by
  by_cases hfirst : RefusedFirst feature dir
  · refine iff_of_true ?_ (Or.inl hfirst)
    exact ⟨-einval, regs, enable_refusedFirst pinmaps regs hfirst,
      fun herror => absurd herror (by decide)⟩
  by_cases hlt : feature.toNat < nmuxFeatures
  · rw [or_iff_right hfirst, and_iff_right hlt]
    rcases accepted_or_first (pinsOf pinmaps feature)
      with hok | ⟨front, desc, back, hpins, hrefused, hfront⟩
    · obtain ⟨regs', hrun, hown, hother⟩ :=
        enable_accepted pinmaps regs hfirst hlt hok
      obtain ⟨regs'', hrun', hown', hother'⟩ :=
        enable_accepted pinmaps regs' hfirst hlt hok
      constructor
      · rintro ⟨error, regs₁, hrun₁, hright⟩
        rw [hrun, Except.ok.injEq, Prod.mk.injEq] at hrun₁
        obtain ⟨rfl, rfl⟩ := hrun₁
        obtain ⟨henc, -, hagain⟩ := hright rfl
        refine Or.inr fun d hd => ?_
        rw [hrun', Except.ok.injEq, Prod.mk.injEq] at hagain
        have hstays : settled d dir (regs' d.muxRegOffset)
            = regs' d.muxRegOffset := by
          rw [← hown' d hd, hagain.2]
        obtain ⟨hsame, hvalue⟩ := (settled_eq_iff d dir _).1 hstays
        exact (onlyTristate_iff d dir).2 ⟨hsame, hvalue ▸ henc d hd⟩
      · intro hcond
        have honly : ∀ d ∈ pinsOf pinmaps feature, OnlyTristate d dir := by
          rcases hcond with ⟨d, hd, hconf⟩ | h
          · exact absurd hconf (hok d hd)
          · exact h
        have hmask : ∀ d ∈ pinsOf pinmaps feature, ∀ v,
            settled d dir v = mask 4 := fun d hd =>
          settled_of_eq ((onlyTristate_iff d dir).1 (honly d hd)).1
        refine ⟨0, regs', hrun, fun _ => ⟨?_, hother, ?_⟩⟩
        · intro d hd
          rw [hown d hd, hmask d hd]
          exact ((onlyTristate_iff d dir).1 (honly d hd)).2
        · have hsame : regs'' = regs' := by
            funext off
            by_cases hoff : off ∈ (pinsOf pinmaps feature).map
                PinDesc.muxRegOffset
            · obtain ⟨d, hd, heq⟩ := List.mem_map.1 hoff
              rw [← heq, hown' d hd, hown d hd, hmask d hd, hmask d hd]
            · exact hother' off hoff
          rw [hrun', hsame]
    · refine iff_of_true ?_ (Or.inl ⟨desc, ?_, hrefused⟩)
      · exact ⟨-einval, _, enable_refused pinmaps regs hfirst hlt hpins
          hfront hrefused, fun herror => absurd herror (by decide)⟩
      · rw [hpins]
        simp
  · -- the number of features passes the test, and has no pin map
    refine iff_of_false ?_ fun hcond => ?_
    · rintro ⟨error, regs', hrun, -⟩
      exact enable_pastTable pinmaps regs hfirst hlt _ hrun
    · rcases hcond with h | ⟨h, -⟩
      · exact hfirst h
      · exact hlt h

/-- The pin J0 is made a GPIO twice: the second call leaves its register
with the tristate bit and nothing else. -/
theorem enableRight_pj0 :
    ¬EnableRight tx2Pinmaps (fun _ => 0) muxFeatureGpioPj0 .gpioIn := by
  rintro ⟨error, regs', hrun, hright⟩
  cases hrun
  have hagain := (hright rfl).2.2
  have hvalue := congrArg (Option.map fun r => r.2 0x1040)
    (congrArg Except.toOption hagain)
  exact absurd hvalue (by decide)

/-- What a refused pin and those in front of it leave is what there was
only if all of them are tristate, before and after. -/
theorem refused_unchanged_iff (dir : MuxGpioDir) (regs : MuxBlock)
    {front back : List PinDesc}
    (hend : ∀ d ∈ front ++ desc :: back, d.gpioPin ≠ -1)
    (hdistinct : ((front ++ desc :: back).map PinDesc.muxRegOffset).Nodup)
    (hok : ∀ d ∈ front, ¬Conflicts d) :
    Function.update (setPins dir regs front).2 desc.muxRegOffset (mask 4)
        = regs
      ↔ regs desc.muxRegOffset = mask 4
        ∧ ∀ d ∈ front, TristateAlone d dir
          ∧ regs d.muxRegOffset = mask 4 := by
  rw [List.map_append, List.map_cons, List.nodup_append] at hdistinct
  obtain ⟨hfront, -, hapart⟩ := hdistinct
  obtain ⟨regs₁, hrun, hown, hother⟩ := setPins_accepted dir regs
    (fun d hd => hend d (List.mem_append_left _ hd)) hfront hok
  have hne : ∀ d ∈ front, d.muxRegOffset ≠ desc.muxRegOffset :=
    fun d hd =>
    hapart _ (List.mem_map_of_mem hd) _ (List.mem_cons_self ..)
  have hleft : (setPins dir regs front).2 = regs₁ := by rw [hrun]
  rw [hleft]
  constructor
  · intro hsame
    refine ⟨?_, fun d hd => ?_⟩
    · have hvalue := congrFun hsame desc.muxRegOffset
      rw [Function.update_self] at hvalue
      exact hvalue.symm
    · have hvalue := congrFun hsame d.muxRegOffset
      rw [Function.update_of_ne (hne d hd), hown d hd, settled_eq_iff,
        assembled_eq_tristate_iff] at hvalue
      exact hvalue
  · intro ⟨hdesc, hbefore⟩
    funext off
    by_cases hoff : off = desc.muxRegOffset
    · rw [hoff, Function.update_self, hdesc]
    · rw [Function.update_of_ne hoff]
      by_cases hin : off ∈ front.map PinDesc.muxRegOffset
      · obtain ⟨d, hd, rfl⟩ := List.mem_map.1 hin
        obtain ⟨halone, hvalue⟩ := hbefore d hd
        rw [hown d hd, hvalue,
          settled_of_eq ((assembled_eq_tristate_iff d dir).2 halone)]
      · exact hother off hin

/-- A refused feature changes no register exactly if it is refused before
any pin is looked at, or it has a pin map and the registers of the pins up
to the one that is refused are tristate already and are to be. -/
theorem refusalRight_iff (pinmaps : Pinmaps) (regs : MuxBlock)
    (feature : Int) (dir : MuxGpioDir) :
    RefusalRight pinmaps regs feature dir
      ↔ RefusedFirst feature dir
        ∨ feature.toNat < nmuxFeatures
          ∧ TristateBefore regs dir (pinsOf pinmaps feature) := by
  by_cases hfirst : RefusedFirst feature dir
  · refine iff_of_true ?_ (Or.inl hfirst)
    exact ⟨-einval, regs, enable_refusedFirst pinmaps regs hfirst,
      fun _ => rfl⟩
  by_cases hlt : feature.toNat < nmuxFeatures
  · rw [or_iff_right hfirst, and_iff_right hlt]
    rcases accepted_or_first (pinsOf pinmaps feature)
      with hok | ⟨front, desc, back, hpins, hrefused, hfront⟩
    · refine iff_of_true ?_ ?_
      · obtain ⟨regs₁, hrun₁, -⟩ :=
          enable_accepted pinmaps regs hfirst hlt hok
        exact ⟨0, regs₁, hrun₁, fun herror => absurd rfl herror⟩
      · intro front desc back hpins hrefused _
        exact absurd hrefused (hok desc (by rw [hpins]; simp))
    · have hrun := enable_refused pinmaps regs hfirst hlt hpins hfront
        hrefused
      have hdistinct := pinsOf_distinct pinmaps feature
      constructor
      · rintro ⟨error, regs', hrun', hright⟩
        rw [hrun, Except.ok.injEq, Prod.mk.injEq] at hrun'
        obtain ⟨rfl, rfl⟩ := hrun'
        have hsame := hright (by decide)
        intro front' desc' back' hpins' hrefused' hfront'
        have hrun' := enable_refused pinmaps regs hfirst hlt hpins' hfront'
          hrefused'
        rw [hrun, Except.ok.injEq, Prod.mk.injEq] at hrun'
        rw [hpins'] at hdistinct
        refine (refused_unchanged_iff dir regs
          (fun d hd => pinsOf_end (hpins' ▸ hd)) hdistinct hfront').1 ?_
        rw [← hrun'.2]
        exact hsame
      · intro hcond
        have hbefore := hcond front desc back hpins hrefused hfront
        rw [hpins] at hdistinct
        exact ⟨-einval, _, hrun, fun _ => (refused_unchanged_iff dir regs
          (fun d hd => pinsOf_end (hpins ▸ hd)) hdistinct hfront).2 hbefore⟩
  · -- the number of features passes the test, and has no pin map
    refine iff_of_false ?_ fun hcond => ?_
    · rintro ⟨error, regs', hrun, -⟩
      exact enable_pastTable pinmaps regs hfirst hlt _ hrun
    · rcases hcond with h | ⟨h, -⟩
      · exact hfirst h
      · exact hlt h

/-- The feature of the first UART is refused, for the flags of its second
pin; the registers of both pins have changed then. -/
theorem refusalRight_uartA :
    ¬RefusalRight tx2Pinmaps (fun _ => 0) 0 .notAGpio := by
  rintro ⟨error, regs', hrun, hright⟩
  cases hrun
  have hsame := hright (by decide)
  have hvalue := congrFun hsame 0x5010
  exact absurd hvalue (by decide)

end ProjectsLibs.Tx2
