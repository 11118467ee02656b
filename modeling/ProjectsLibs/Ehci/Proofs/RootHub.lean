/-
What the requests to the ports of the root hub affect.

Both functions mask the change bits of what they read before they write
it, with one exception: the write that ends a reset. The reset also
replaces the bits that record the resets of all ports. Everything else
leaves alone what it does not name.

# How a register is followed

The hardware sets change bits at any time, and a write of a one clears
them. Between two accesses the register is therefore what the last access
left with any change bits added (`settle`). A read-modify-write clears
the bits that it writes back, so each of the requests is looked at for
which change bits are in the value it writes: those that mask them write
none, the acknowledgement writes the one that it is for, and the end of a
reset writes what it has read.

`Elsewhere` keeps the registers of the other ports apart, which only the
hardware changes; of what is reported of another port, all depends on its
register but the finished resets. The condition is on both: whether the
end of a reset finds a change bit, and whether the other port had a reset
recorded.
-/
import ProjectsLibs.Ehci.RootHub

namespace ProjectsLibs.Ehci

open Lib Usb RootHub

variable {hw : Changes} {s s' t : RootHub} {v w : UInt32} {i reg : Nat}

-- ========================================================== change bits

/-- The change bits of a port register are 1, 3 and 5. -/
theorem testBit_change (b : Nat) :
    testBit ehciPortChange b = true ↔ b = 5 ∨ b = 3 ∨ b = 1 := by
  by_cases hb : b < 32
  · have hall : ∀ b < 32, testBit ehciPortChange b = true
        ↔ b = 5 ∨ b = 3 ∨ b = 1 := by decide
    exact hall b hb
  · rw [testBit_of_le _ (Nat.not_lt.1 hb)]
    simp only [Bool.false_eq_true, false_iff, not_or]
    omega

/-- A word that clears nothing when it is written. -/
def NoChange (v : UInt32) : Prop :=
  ∀ b, testBit ehciPortChange b = true → testBit v b = false

/-- A value masked with them has none set. -/
theorem noChange_masked (r : UInt32) : NoChange (r &&& ~~~ehciPortChange) := by
  intro b hb
  have hlt : b < 32 := by
    rcases (testBit_change b).1 hb with rfl | rfl | rfl <;> decide
  rw [testBit_and_not _ _ hlt, hb]
  simp

theorem NoChange.and (h : NoChange v) (w : UInt32) : NoChange (v &&& w) := by
  intro b hb
  rw [testBit_and, h b hb, Bool.false_and]

theorem NoChange.or (h : NoChange v) (hw : NoChange w) :
    NoChange (v ||| w) := by
  intro b hb
  rw [testBit_or, h b hb, hw b hb, Bool.false_or]

theorem noChange_mask {b : Nat} (hb : b < 32)
    (h : testBit ehciPortChange b = false) : NoChange (mask b) := by
  intro b' hb'
  rw [testBit_mask hb]
  apply decide_eq_false
  rintro rfl
  rw [h] at hb'
  cases hb'

/-- A word without change bits clears none. -/
theorem clears_nil (h : NoChange v) (old : UInt32) : clears i old v = [] := by
  apply if_pos
  apply eq_of_testBit
  intro b _
  rw [testBit_and, testBit_and, testBit_zero]
  cases hb : testBit ehciPortChange b with
  | true => rw [h b hb, Bool.and_false]
  | false => rw [Bool.and_false, Bool.false_and]

/-- A word with one change bit clears at most that one. -/
theorem clears_one (h : NoChange v) (old : UInt32) {c : Nat}
    (hc : testBit ehciPortChange c = true) :
    clears i old (v ||| mask c) = []
      ∨ clears i old (v ||| mask c) = [(i, mask c)] := by
  have hlt : c < 32 := by
    rcases (testBit_change c).1 hc with rfl | rfl | rfl <;> decide
  have hbits : ∀ b, testBit (old &&& ehciPortChange &&& (v ||| mask c)) b
      = (testBit old c && decide (c = b)) := by
    intro b
    rw [testBit_and, testBit_and, testBit_or, testBit_mask hlt]
    by_cases hcb : c = b
    · subst hcb
      simp [hc]
    · cases hb : testBit ehciPortChange b with
      | true => simp [h b hb, hcb]
      | false => simp [hcb]
  unfold clears
  cases hold : testBit old c with
  | false =>
      left
      apply if_pos
      apply eq_of_testBit
      intro b _
      rw [hbits, hold, testBit_zero, Bool.false_and]
  | true =>
      right
      have heq : old &&& ehciPortChange &&& (v ||| mask c) = mask c := by
        apply eq_of_testBit
        intro b _
        rw [hbits, hold, testBit_mask hlt, Bool.true_and]
      rw [heq, if_neg]
      intro hzero
      have hbit := testBit_mask (a := c) (b := c) hlt
      rw [hzero, testBit_zero] at hbit
      simp at hbit

-- ======================================================== other ports

theorem await_settle (hw : Changes) (s : RootHub) (n : Nat) :
    (s.await hw n).settle hw = s.await hw (n + 1) := by
  induction n generalizing s with
  | zero => rfl
  | succ n ih => exact ih (s.settle hw)

theorem await_time (hw : Changes) (s : RootHub) (n : Nat) :
    (s.await hw n).time = s.time + n := by
  induction n generalizing s with
  | zero => rfl
  | succ n ih =>
      show ((s.settle hw).await hw n).time = _
      rw [ih]
      show s.time + 1 + n = _
      omega

/-- After `n` accesses to register `reg`, the others are as the hardware
alone leaves them. -/
structure Elsewhere (hw : Changes) (reg n : Nat) (s t : RootHub) : Prop where
  time : t.time = s.time + n
  hcsparams : t.hcsparams = s.hcsparams
  usbsts : t.usbsts = s.usbsts
  portsc : ∀ i, i ≠ reg → t.portsc i = (s.await hw n).portsc i

namespace Elsewhere

theorem refl (s : RootHub) : Elsewhere hw reg 0 s s :=
  ⟨rfl, rfl, rfl, fun _ _ => rfl⟩

/-- Time going by changes the other registers by the changes of the
hardware only. -/
theorem settle {n : Nat} (h : Elsewhere hw reg n s t) :
    Elsewhere hw reg (n + 1) s (t.settle hw) where
  time := congrArg (· + 1) h.time
  hcsparams := h.hcsparams
  usbsts := h.usbsts
  portsc i hi := by
    rw [← await_settle]
    show t.portsc i ||| hw t.time i &&& ehciPortChange = _
    rw [h.portsc i hi, h.time, ← await_time hw]
    rfl

theorem write {n : Nat} (h : Elsewhere hw reg n s t) (v : UInt32) :
    Elsewhere hw reg (n + 1) s (t.write hw reg v) where
  time := h.settle.time
  hcsparams := h.hcsparams
  usbsts := h.usbsts
  portsc i hi := by
    rw [← h.settle.portsc i hi]
    exact Function.update_of_ne hi ..

/-- The other fields do not matter. -/
theorem other {n : Nat} (h : Elsewhere hw reg n s t) {t' : RootHub}
    (htime : t'.time = t.time) (hhcs : t'.hcsparams = t.hcsparams)
    (hsts : t'.usbsts = t.usbsts) (hreg : t'.portsc = t.portsc) :
    Elsewhere hw reg n s t' where
  time := htime.trans h.time
  hcsparams := hhcs.trans h.hcsparams
  usbsts := hsts.trans h.usbsts
  portsc i hi := by
    rw [hreg]
    exact h.portsc i hi

theorem callPwren {n : Nat} (h : Elsewhere hw reg n s t) (port : Nat)
    (state : Bool) : Elsewhere hw reg n s (t.callPwren port state) := by
  unfold RootHub.callPwren
  split
  · exact h.other rfl rfl rfl rfl
  · exact h

end Elsewhere

/-- Ports are counted from 1, and there are at most 31. -/
theorem getPortsc_eq {port : Nat} (h : getPortsc s port = some reg) :
    reg = port - 1 ∧ port ≠ 0 ∧ port < 32 := by
  unfold getPortsc at h
  split_ifs at h with hc
  push Not at hc
  have hle : s.nports ≤ 15 := by
    unfold nports
    have hand : (s.hcsparams &&& 0xf) ≤ 0xf := UInt32.and_le_right
    exact hand
  refine ⟨(Option.some.inj h).symm, hc.1, ?_⟩
  omega

/-- The status that is reported, as a function of the register. -/
theorem getPstat_eq {port : Nat} (h : getPortsc s port = some reg) :
    (getPstat hw s port).map Prod.fst
      = some (portStatus ((s.settle hw).portsc reg) s.bmresetC port) := by
  unfold getPstat
  rw [h]
  rfl

/-- Where a register is depends on the number of ports only. -/
theorem getPortsc_congr (h : t.hcsparams = s.hcsparams) (port : Nat) :
    getPortsc t port = getPortsc s port := by
  unfold getPortsc nports
  rw [h]

/-- What another port reports, after accesses to register `reg`. -/
theorem Elsewhere.pstat {n q : Nat} (h : Elsewhere hw reg n s t)
    (hq : getPortsc s q = some i) (hi : i ≠ reg) :
    (getPstat hw t q).map Prod.fst
      = some (portStatus ((s.await hw (n + 1)).portsc i) t.bmresetC q)
    ∧ (getPstat hw (s.alone hw t) q).map Prod.fst
      = some (portStatus ((s.await hw (n + 1)).portsc i) s.bmresetC q) := by
  have hnum : t.time - s.time = n := by
    rw [h.time]
    omega
  have hfix : ∀ m, (s.await hw m).hcsparams = s.hcsparams
      ∧ (s.await hw m).bmresetC = s.bmresetC := by
    intro m
    induction m with
    | zero => exact ⟨rfl, rfl⟩
    | succ m ih =>
        rw [← await_settle]
        exact ih
  constructor
  · rw [getPstat_eq ((getPortsc_congr h.hcsparams q).trans hq),
      h.settle.portsc i hi]
  · unfold alone
    rw [hnum, getPstat_eq ((getPortsc_congr (hfix n).1 q).trans hq),
      await_settle, (hfix n).2]

/-- The emulated change is all that depends on the record of resets. -/
theorem portStatus_eq_iff {v bm bm' : UInt32} {q : Nat} (hq : q < 32) :
    portStatus v bm q = portStatus v bm' q
      ↔ testBit v ehciPortReset = true ∨ testBit bm q = testBit bm' q := by
  have hpick : ∀ b f, f ≠ .reset → testBit (pick v b f) 4 = false := by
    intro b f hf
    unfold pick
    split_ifs
    · cases f <;> first | exact absurd rfl hf | decide
    · decide
  have hreset : ∀ bm, testBit (portStatus v bm q).wPortChange 4
      = (!testBit v ehciPortReset && testBit bm q) := by
    intro bm
    simp only [portStatus, testBit_or]
    rw [hpick _ .connection nofun, hpick _ .enable nofun,
      hpick _ .overCurrent nofun]
    simp only [Bool.false_or]
    unfold resetChange
    by_cases hv : testBit v ehciPortReset = true
    · have hne := (and_mask_iff v (by decide)).2 hv
      rw [if_neg (fun hc => hne hc.1), hv]
      rfl
    · have hzero := not_not.1 (mt (and_mask_iff v (by decide)).1 hv)
      rw [Bool.not_eq_true] at hv
      rw [hv]
      cases hb : testBit bm q with
      | true =>
          rw [if_pos ⟨hzero, (and_mask_iff bm hq).2 hb⟩]
          decide
      | false =>
          rw [if_neg]
          · decide
          · rintro ⟨-, hne⟩
            rw [(and_mask_iff bm hq).1 hne] at hb
            cases hb
  constructor
  · intro heq
    have hbit := hreset bm
    rw [heq, hreset bm'] at hbit
    cases hv : testBit v ehciPortReset with
    | true => exact .inl rfl
    | false =>
        rw [hv] at hbit
        exact .inr hbit.symm
  · intro hcond
    have hchange : resetChange v bm q = resetChange v bm' q := by
      unfold resetChange
      rcases hcond with hv | hbm
      · have hne := (and_mask_iff v (by decide)).2 hv
        rw [if_neg (fun hc => hne hc.1), if_neg (fun hc => hne hc.1)]
      · have hiff : bm &&& mask q ≠ 0 ↔ bm' &&& mask q ≠ 0 := by
          rw [and_mask_iff bm hq, and_mask_iff bm' hq, hbm]
        simp only [hiff]
    unfold portStatus
    rw [hchange]

-- ============================================================= the calls

/-- The hardware may set change bits at any time. -/
theorem settle_portsc (hw : Changes) (s : RootHub) (i : Nat) :
    (s.settle hw).portsc i = s.portsc i ||| hw s.time i &&& ehciPortChange :=
  rfl

/-- What a write leaves in the register. -/
theorem write_portsc (hw : Changes) (s : RootHub) (reg : Nat) (v : UInt32) :
    (s.write hw reg v).portsc reg
      = written ((s.settle hw).portsc reg) v := Function.update_self ..

theorem write_cleared (hw : Changes) (s : RootHub) (reg : Nat)
    (v : UInt32) : (s.write hw reg v).cleared
      = s.cleared ++ clears reg ((s.settle hw).portsc reg) v := rfl

theorem write_time (hw : Changes) (s : RootHub) (reg : Nat) (v : UInt32) :
    (s.write hw reg v).time = s.time + 1 := rfl

/-- A value without change bits clears none. -/
theorem NoChange.cleared (h : NoChange v) :
    (s.write hw reg v).cleared = s.cleared := by
  rw [write_cleared, clears_nil h, List.append_nil]

/-- A change bit of a register that is written without change bits. -/
theorem testBit_written (h : NoChange v) {old : UInt32} {b : Nat}
    (hb : testBit ehciPortChange b = true) :
    testBit (written old v) b = testBit old b := by
  have hlt : b < 32 := by
    rcases (testBit_change b).1 hb with rfl | rfl | rfl <;> decide
  unfold written
  rw [testBit_or, testBit_and_not _ _ hlt, testBit_and_not _ _ hlt,
    testBit_and, hb, h b hb]
  simp

/-- The other bits of a register are written as they are. -/
theorem testBit_written_other {old : UInt32} {b : Nat} (hlt : b < 32)
    (hb : testBit ehciPortChange b = false) :
    testBit (written old v) b = testBit v b := by
  unfold written
  rw [testBit_or, testBit_and_not _ _ hlt, testBit_and_not _ _ hlt,
    testBit_and, hb]
  simp

/-- A change bit that is there when the register is read is there when it
is written. -/
theorem testBit_settle {b : Nat} (h : testBit (s.portsc i) b = true) :
    testBit ((s.settle hw).portsc i) b = true := by
  rw [settle_portsc, testBit_or, h, Bool.true_or]

/-- To write back what was read clears the change bits in it. -/
theorem clears_back {old r : UInt32} (hsub : ∀ b,
    testBit ehciPortChange b = true → testBit r b = true →
      testBit old b = true) {w : UInt32}
    (hw : ∀ b, testBit ehciPortChange b = true →
      testBit w b = testBit r b) :
    clears i old w = [] ↔ NoChange r := by
  have hbits : ∀ b, testBit (old &&& ehciPortChange &&& w) b
      = (testBit ehciPortChange b && testBit r b) := by
    intro b
    rw [testBit_and, testBit_and]
    cases hb : testBit ehciPortChange b with
    | false => simp
    | true =>
        rw [hw b hb]
        cases hr : testBit r b with
        | false => simp
        | true => simp [hsub b hb hr]
  unfold clears
  constructor
  · intro hnil b hb
    split_ifs at hnil with hzero
    have hbit := hbits b
    rw [hzero, testBit_zero, hb, Bool.true_and] at hbit
    exact hbit.symm
  · intro hno
    apply if_pos
    apply eq_of_testBit
    intro b _
    rw [hbits, testBit_zero]
    cases hb : testBit ehciPortChange b with
    | false => rfl
    | true => rw [hno b hb, Bool.and_false]

/-- Clearing the reset bit leaves the change bits in the value. -/
theorem testBit_and_not_reset {r : UInt32} {b : Nat}
    (hb : testBit ehciPortChange b = true) :
    testBit (r &&& ~~~mask ehciPortReset) b = testBit r b := by
  rcases (testBit_change b).1 hb with rfl | rfl | rfl
  · rw [testBit_and_not_mask _ (by decide) (by decide)]
    simp [ehciPortReset]
  · rw [testBit_and_not_mask _ (by decide) (by decide)]
    simp [ehciPortReset]
  · rw [testBit_and_not_mask _ (by decide) (by decide)]
    simp [ehciPortReset]

/-- The reset bit was written as a zero. -/
theorem waitReset_eq {r : UInt32} {fuel : Nat} :
    waitReset hw reg (fuel + 1)
        (s.write hw reg (r &&& ~~~mask ehciPortReset))
      = some ((s.write hw reg (r &&& ~~~mask ehciPortReset)).settle hw) := by
  have hclear : testBit (((s.write hw reg
      (r &&& ~~~mask ehciPortReset)).settle hw).portsc reg) ehciPortReset
      = false := by
    have hbit : testBit ehciPortChange ehciPortReset = false := by decide
    rw [settle_portsc, write_portsc, testBit_or, testBit_and, hbit,
      testBit_written_other (by decide) hbit,
      testBit_and_not_mask _ (by decide) (by decide)]
    simp
  have hzero : ¬((s.write hw reg (r &&& ~~~mask ehciPortReset)).settle
      hw).portsc reg &&& mask ehciPortReset ≠ 0 := by
    intro hne
    rw [(and_mask_iff _ (by decide)).1 hne] at hclear
    cases hclear
  exact if_neg hzero

/-- The host when the port is in reset. -/
def inReset (hw : Changes) (s : RootHub) (port reg : Nat) (v : UInt32) :
    RootHub :=
  { s with bmresetC := mask port }.write hw reg
    (v &&& ~~~mask ehciPortEnable ||| mask ehciPortReset)

/-- What a reset does to a port that is in reset. -/
def endReset (hw : Changes) (s : RootHub) (reg : Nat) : RootHub :=
  ((s.settle hw).write hw reg ((s.settle hw).portsc reg
    &&& ~~~mask ehciPortReset)).settle hw

/-- A reset with the controller halted is a fatal error; else it goes through
its two writes. -/
theorem resetPort_eq (s : RootHub) (port reg : Nat) (v : UInt32) :
    resetPort hw s port reg v
      = if s.usbsts &&& mask ehcistsHchalted ≠ 0 then none
        else some (0, endReset hw (inReset hw s port reg v) reg) := by
  unfold resetPort
  split_ifs with hhalt
  · rfl
  · show (waitReset hw reg 1 _).bind _ = _
    rw [waitReset_eq]
    rfl

/-- The change bits that the end of a reset clears. -/
theorem endReset_cleared (s : RootHub) :
    (endReset hw s reg).cleared = s.cleared
      ↔ NoChange ((s.settle hw).portsc reg) := by
  have hiff : clears reg (((s.settle hw).settle hw).portsc reg)
      ((s.settle hw).portsc reg &&& ~~~mask ehciPortReset) = []
      ↔ NoChange ((s.settle hw).portsc reg) :=
    clears_back (fun b _ hr => testBit_settle hr)
      (fun b hb => testBit_and_not_reset hb)
  rw [← hiff]
  have hcleared : (endReset hw s reg).cleared = s.cleared ++ clears reg
      (((s.settle hw).settle hw).portsc reg)
      ((s.settle hw).portsc reg &&& ~~~mask ehciPortReset) := rfl
  rw [hcleared, List.append_right_eq_self]

/-- What is read in the middle of a reset has the change bits there
are. -/
theorem inReset_portsc {port b : Nat} (hv : NoChange v)
    (hb : testBit ehciPortChange b = true) :
    testBit (((inReset hw s port reg v).settle hw).portsc reg) b
      = testBit ((s.await hw 2).portsc reg) b := by
  have hno : NoChange (v &&& ~~~mask ehciPortEnable ||| mask ehciPortReset) :=
    (hv.and _).or (noChange_mask (by decide) (by decide))
  unfold inReset
  rw [← await_settle, settle_portsc, settle_portsc, write_portsc, write_time,
    await_time, testBit_or, testBit_or, testBit_written hno hb]
  rfl

/-- What a reset does, after the port register was read. -/
theorem resetPort_spec {port : Nat} {ret : Int} (hv : NoChange v)
    (h : resetPort hw (s.settle hw) port reg v = some (ret, s')) :
    s.usbsts &&& mask ehcistsHchalted = 0
      ∧ Elsewhere hw reg 5 s s' ∧ s'.bmresetC = mask port
      ∧ (s'.cleared = s.cleared
        ↔ NoChange ((s.await hw 3).portsc reg)) := by
  have hno : NoChange (v &&& ~~~mask ehciPortEnable ||| mask ehciPortReset) :=
    (hv.and _).or (noChange_mask (by decide) (by decide))
  rw [resetPort_eq] at h
  split_ifs at h with hhalt
  obtain ⟨-, rfl⟩ := Prod.mk.inj (Option.some.inj h)
  have hone : Elsewhere hw reg 1 s
      { s.settle hw with bmresetC := mask port } :=
    (Elsewhere.refl s).settle.other rfl rfl rfl rfl
  have hfirst : Elsewhere hw reg 2 s (inReset hw (s.settle hw) port reg v) :=
    hone.write _
  refine ⟨not_not.1 hhalt, (hfirst.settle.write _).settle, rfl, ?_⟩
  have hcleared : (inReset hw (s.settle hw) port reg v).cleared
      = s.cleared := hno.cleared
  rw [← hcleared, endReset_cleared]
  unfold NoChange
  exact forall_congr' fun b => forall_congr' fun hb => by
    rw [inReset_portsc hv hb]
    rfl

/-- The power callback has no part in the changes. -/
theorem callPwren_keeps (s : RootHub) (port : Nat) (state : Bool) :
    (s.callPwren port state).bmresetC = s.bmresetC
      ∧ (s.callPwren port state).cleared = s.cleared := by
  unfold callPwren
  split
  · exact ⟨rfl, rfl⟩
  · exact ⟨rfl, rfl⟩

/-- What the call that sets a feature can do. -/
theorem setPf_cases {p : Nat} {f : PortFeature} {ret : Int}
    (hp : getPortsc s p = some reg)
    (h : setPf hw s p f = some (ret, s')) :
    (∃ n, f ≠ .reset ∧ Elsewhere hw reg n s s'
      ∧ s'.bmresetC = s.bmresetC
        ∧ s'.cleared = s.cleared)
      ∨ f = .reset ∧ s.usbsts &&& mask ehcistsHchalted = 0
        ∧ Elsewhere hw reg 5 s s' ∧ s'.bmresetC = mask p
        ∧ (s'.cleared = s.cleared
          ↔ NoChange ((s.await hw 3).portsc reg)) := by
  have hone : Elsewhere hw reg 1 s (s.settle hw) := (Elsewhere.refl s).settle
  have hv := noChange_masked ((s.settle hw).portsc reg)
  have hset : ∀ {b}, b < 32 → testBit ehciPortChange b = false →
      NoChange ((s.settle hw).portsc reg &&& ~~~ehciPortChange ||| mask b) :=
    fun hb hc => hv.or (noChange_mask hb hc)
  unfold setPf at h
  simp only [hp, Option.bind_eq_bind, Option.bind_some, RootHub.read] at h
  cases f with
  | enable =>
      cases h
      exact .inl ⟨_, nofun, hone.write _, rfl,
        (hset (by decide) (by decide)).cleared⟩
  | power =>
      cases h
      refine .inl ⟨_, nofun, (hone.callPwren p true).write _, ?_, ?_⟩
      · exact (callPwren_keeps (s.settle hw) p true).1
      · rw [(hset (by decide) (by decide)).cleared]
        exact (callPwren_keeps (s.settle hw) p true).2
  | reset =>
      obtain ⟨hrun, helse, hbm, hcleared⟩ := resetPort_spec hv h
      exact .inr ⟨rfl, hrun, helse, hbm, hcleared⟩
  | suspend =>
      have h : (if ((s.settle hw).settle hw).portsc reg
          &&& mask ehciPortOwner ≠ 0 then none else some (0, _))
          = some (ret, s') := h
      split_ifs at h
      cases h
      exact .inl ⟨_, nofun, hone.settle.write _, rfl,
        (hset (by decide) (by decide)).cleared⟩
  | _ =>
      cases h
      exact .inl ⟨_, nofun, hone, rfl, rfl⟩

/-- What the call that clears a feature can do. -/
theorem clrPf_cases {p : Nat} {f : PortFeature} {ret : Int}
    (hp : getPortsc s p = some reg)
    (h : clrPf hw s p f = some (ret, s')) :
    ∃ n, Elsewhere hw reg n s s'
      ∧ (∀ q < 32, q ≠ p → testBit s'.bmresetC q = testBit s.bmresetC q)
      ∧ (s'.cleared = s.cleared ∨ ∃ c, namedChange f = some c
        ∧ s'.cleared = s.cleared ++ [(reg, mask c)]) := by
  have hone : Elsewhere hw reg 1 s (s.settle hw) := (Elsewhere.refl s).settle
  have hv := noChange_masked ((s.settle hw).portsc reg)
  have hname : ∀ {c}, testBit ehciPortChange c = true →
      ((s.settle hw).write hw reg ((s.settle hw).portsc reg
        &&& ~~~ehciPortChange ||| mask c)).cleared = s.cleared
      ∨ ((s.settle hw).write hw reg ((s.settle hw).portsc reg
        &&& ~~~ehciPortChange ||| mask c)).cleared
          = s.cleared ++ [(reg, mask c)] := by
    intro c hc
    rw [write_cleared]
    rcases clears_one hv _ hc with hnil | hbit
    · left
      rw [hnil, List.append_nil]
      rfl
    · right
      rw [hbit]
      rfl
  unfold clrPf at h
  simp only [hp, Option.bind_eq_bind, Option.bind_some, RootHub.read] at h
  cases f with
  | enable =>
      cases h
      exact ⟨_, hone.write _, fun _ _ _ => rfl, .inl (hv.and _).cleared⟩
  | overCurrent =>
      cases h
      exact ⟨_, hone.write _, fun _ _ _ => rfl, .inl (hv.and _).cleared⟩
  | cEnable =>
      cases h
      refine ⟨_, hone.write _, fun _ _ _ => rfl, ?_⟩
      rcases hname (c := ehciPortEnableC) (by decide) with hsame | hbit
      · exact .inl hsame
      · exact .inr ⟨_, rfl, hbit⟩
  | cConnection =>
      cases h
      refine ⟨_, hone.write _, fun _ _ _ => rfl, ?_⟩
      rcases hname (c := ehciPortConnectC) (by decide) with hsame | hbit
      · exact .inl hsame
      · exact .inr ⟨_, rfl, hbit⟩
  | cOverCurrent =>
      cases h
      refine ⟨_, hone.write _, fun _ _ _ => rfl, ?_⟩
      rcases hname (c := ehciPortOcurrentC) (by decide) with hsame | hbit
      · exact .inl hsame
      · exact .inr ⟨_, rfl, hbit⟩
  | cReset =>
      cases h
      have hreset : Elsewhere hw reg 1 s { s.settle hw with
          bmresetC := s.bmresetC &&& ~~~mask p } :=
        hone.other rfl rfl rfl rfl
      refine ⟨_, hreset.write _, ?_, .inl hv.cleared⟩
      intro q hq hqp
      show testBit (s.bmresetC &&& ~~~mask p) q = _
      rw [testBit_and_not_mask _ (getPortsc_eq hp).2.2 hq,
        decide_eq_true (Ne.symm hqp), Bool.and_true]
  | power =>
      cases h
      refine ⟨_, (hone.callPwren p false).write _, ?_, .inl ?_⟩
      · intro q _ _
        exact congrArg (testBit · q)
          (callPwren_keeps (s.settle hw) p false).1
      · rw [(hv.and _).cleared]
        exact (callPwren_keeps (s.settle hw) p false).2
  | suspend =>
      have h : (if (s.settle hw).portsc reg &&& ~~~ehciPortChange
          &&& mask ehciPortEnable = 0 then none
        else if (s.settle hw).portsc reg &&& ~~~ehciPortChange
          &&& mask ehciPortSuspend = 0 then none
        else some (0, _)) = some (ret, s') := h
      split_ifs at h
      cases h
      exact ⟨_, hone.write _, fun _ _ _ => rfl,
        .inl (hv.or (noChange_mask (by decide) (by decide))).cleared⟩
  | _ =>
      cases h
      exact ⟨_, hone, fun _ _ _ => rfl, .inl rfl⟩

-- ================================================== what is to be shown

/-- When the end of a reset finds no change bit of the port, and the port
`q` reports no reset of its own. -/
def ResetAlone (hw : Changes) (s : RootHub) (p q : Nat) : Prop :=
  NoChange ((s.await hw 3).portsc (p - 1))
    ∧ (q ≠ p → testBit s.bmresetC q = true →
      testBit (s.portsc (q - 1)) ehciPortReset = true)

/-- The hardware sets change bits only. -/
theorem await_other {b : Nat} (hb : testBit ehciPortChange b = false)
    (n : Nat) :
    testBit ((s.await hw n).portsc i) b = testBit (s.portsc i) b := by
  induction n with
  | zero => rfl
  | succ n ih =>
      rw [← await_settle, settle_portsc, testBit_or, ih, testBit_and, hb,
        Bool.and_false, Bool.or_false]

/-- A port of the root hub. -/
def IsPort (s : RootHub) (port : Nat) : Prop :=
  port ≠ 0 ∧ port ≤ s.nports

/-- A port of the hub has a register. -/
theorem IsPort.getPortsc {port : Nat} (h : IsPort s port) :
    getPortsc s port = some (port - 1) := by
  unfold Ehci.getPortsc
  rw [if_neg]
  rintro (hzero | hlt)
  · exact h.1 hzero
  · exact absurd h.2 (Nat.not_le.2 hlt)

theorem IsPort.ne {p q : Nat} (hp : IsPort s p) (hq : IsPort s q)
    (hne : q ≠ p) : q - 1 ≠ p - 1 := by
  have hp := hp.1
  have hq := hq.1
  omega

/-- What the record of resets says of another port after a reset. -/
theorem reset_report_iff {p q n : Nat} (hp : IsPort s p) (hq : IsPort s q)
    (hne : q ≠ p) :
    portStatus ((s.await hw n).portsc (q - 1)) (mask p) q
        = portStatus ((s.await hw n).portsc (q - 1)) s.bmresetC q
      ↔ (testBit s.bmresetC q = true →
        testBit (s.portsc (q - 1)) ehciPortReset = true) := by
  have hlt := (getPortsc_eq hp.getPortsc).2.2
  rw [portStatus_eq_iff (getPortsc_eq hq.getPortsc).2.2,
    await_other (by decide), testBit_mask hlt,
    decide_eq_false (Ne.symm hne)]
  constructor
  · rintro (hreset | hsame) hbm
    · exact hreset
    · rw [hbm] at hsame
      cases hsame
  · intro himp
    cases hbm : testBit s.bmresetC q with
    | false => exact .inr rfl
    | true => exact .inl (himp hbm)

/-- The requests about a port affect only what they name if and only if
they are not a reset of a running controller; or the end of the reset finds
no change bit of the port, before or during the call, and the other port
has no finished reset to report. -/
theorem affectsOnly_iff {p q : Nat} {f : PortFeature} (hp : IsPort s p)
    (hq : IsPort s q) :
    AffectsOnly hw s p q f ↔ (f = .reset →
      s.usbsts &&& mask ehcistsHchalted = 0 → ResetAlone hw s p q) := by
  constructor
  · rintro haff rfl hrun
    obtain ⟨ret, s', hset⟩ : ∃ ret s', setPf hw s p .reset
        = some (ret, s') := by
      unfold setPf
      rw [hp.getPortsc]
      show ∃ ret s', resetPort hw (s.settle hw) p (p - 1) _ = _
      rw [resetPort_eq]
      exact ⟨_, _, if_neg (not_not.2 hrun)⟩
    obtain ⟨n, hnot, -⟩ | ⟨-, -, helse, hbm, hcleared⟩ :=
      setPf_cases hp.getPortsc hset
    · exact absurd rfl hnot
    · refine ⟨hcleared.1 (haff.set ret s' hset), fun hne => ?_⟩
      obtain ⟨hafter, halone⟩ := helse.pstat hq.getPortsc (hp.ne hq hne)
      have hsame := haff.setOther hne ret s' hset
      rw [hafter, halone, hbm, Option.some.injEq] at hsame
      exact (reset_report_iff hp hq hne).1 hsame
  · intro hcond
    constructor
    · intro ret s' hset
      obtain ⟨n, -, -, -, hcleared⟩ | ⟨hf, hrun, -, -, hcleared⟩ :=
        setPf_cases hp.getPortsc hset
      · exact hcleared
      · exact hcleared.2 (hcond hf hrun).1
    · intro ret s' hclr
      obtain ⟨n, -, -, hcleared⟩ := clrPf_cases hp.getPortsc hclr
      exact hcleared
    · intro hne ret s' hset
      obtain ⟨n, -, helse, hbm, -⟩ | ⟨hf, hrun, helse, hbm, -⟩ :=
        setPf_cases hp.getPortsc hset
      · obtain ⟨hafter, halone⟩ := helse.pstat hq.getPortsc (hp.ne hq hne)
        rw [hafter, halone, hbm]
      · obtain ⟨hafter, halone⟩ := helse.pstat hq.getPortsc (hp.ne hq hne)
        rw [hafter, halone, hbm, Option.some.injEq]
        exact (reset_report_iff hp hq hne).2 ((hcond hf hrun).2 hne)
    · intro hne ret s' hclr
      obtain ⟨n, helse, hbm, -⟩ := clrPf_cases hp.getPortsc hclr
      obtain ⟨hafter, halone⟩ := helse.pstat hq.getPortsc (hp.ne hq hne)
      have hq32 := (getPortsc_eq hq.getPortsc).2.2
      rw [hafter, halone, Option.some.injEq, portStatus_eq_iff hq32]
      exact .inr (hbm q hq32 hne)

/-- A root hub with four ports, and a device at each. -/
def fourPorts (bmresetC : UInt32) (change : UInt32) : RootHub where
  hcsparams := 4
  usbsts := 0
  portsc := fun _ => mask ehciPortPower ||| mask ehciPortConnect ||| change
  bmresetC := bmresetC
  boardPwren := false
  power := []
  cleared := []
  time := 0

/-- The device at port 1 is acknowledged while a change comes at
port 2. -/
theorem affectsOnly_iff_sample :
    IsPort (fourPorts (mask 2) ehciPortChange) 1
      ∧ AffectsOnly (fun _ i => if i = 1 then mask ehciPortEnableC else 0)
        (fourPorts (mask 2) ehciPortChange) 1 2 .cConnection :=
  ⟨⟨by decide, by decide⟩, (affectsOnly_iff ⟨by decide, by decide⟩
    ⟨by decide, by decide⟩).2 nofun⟩

/-- Port 1 is reset: a device that is unplugged meanwhile is not noticed,
and the end of the reset of port 2 is not reported any more. -/
theorem reset_clears_changes :
    ∃ s', setPf (fun t i => if t = 2 ∧ i = 0 then mask ehciPortConnectC
          else 0) (fourPorts (mask 2) 0) 1 .reset = some (0, s')
      ∧ s'.cleared = [(0, mask ehciPortConnectC)]
      ∧ s'.bmresetC = mask 1
      ∧ ¬AffectsOnly (fun t i => if t = 2 ∧ i = 0
          then mask ehciPortConnectC else 0)
        (fourPorts (mask 2) 0) 1 2 .reset := by
  have hany : (setPf (fun t i => if t = 2 ∧ i = 0 then mask ehciPortConnectC
      else 0) (fourPorts (mask 2) 0) 1 .reset).any (fun r => decide
        (r.1 = 0 ∧ r.2.cleared = [(0, mask ehciPortConnectC)]
          ∧ r.2.bmresetC = mask 1)) = true := by
    decide +kernel
  obtain ⟨⟨ret, s'⟩, hset, hbool⟩ := (Option.any_eq_true ..).1 hany
  obtain ⟨hret, hcleared, hbm⟩ := of_decide_eq_true hbool
  have hret : ret = 0 := hret
  subst hret
  refine ⟨s', hset, hcleared, hbm, fun haff => ?_⟩
  have hsame := haff.set 0 s' hset
  rw [hcleared] at hsame
  cases hsame

end ProjectsLibs.Ehci
