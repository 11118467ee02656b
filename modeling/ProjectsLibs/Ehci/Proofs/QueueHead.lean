/-
The words of a queue head: the fields that `qhn_alloc` packs are read
back, and `qhn_update` leaves the word that `qhn_alloc` would make for the
new address and packet size (`updateEpc0_alloc`). The H-bit is the only
bit that anything else changes.

# How a word is put together

A queue head has two words for its endpoint, packed from fields with
shifts and `or`. A field is read back if the others are clear in its
bits, and this is said once for the fields that depend on the kind of the
endpoint (`clear_kindEpc0`) and for those that are fixed when the queue
head is made (`clear_fixedEpc0`). The rest is rewriting: `allocEpc0_eq`
writes the word as packet size, address and a fixed part, and the update
replaces the first two if they have changed.

# How it stays

Descriptors, the ring and the doorbell write other words of the queue
head, or the H-bit that marks the head of the ring. `HBitOnly` is the
relation between the words before and after such an operation, and each
operation has one lemma with it. So after any sequence of calls the word
is that of the last call that allocated or updated it, up to the H-bit.
-/
import ProjectsLibs.Ehci.QueueHead
import ProjectsLibs.Lib.Fields

namespace ProjectsLibs.Ehci

open Lib

-- ================================================================ calls

section calls

variable {s : Sched} {slot : Slot} {addr hubPort : UInt8} {hubAddr : Int8}
  {speed : Speed} {ep : Ep}

/-- Nothing is scheduled for the root hub. -/
theorem ehciScheduleXact_root (hroot : hubAddr = -1) :
    ehciScheduleXact s slot addr hubAddr hubPort speed ep = (ep, s) :=
  if_pos hroot

/-- An endpoint without a queue head gets one. -/
theorem ehciScheduleXact_new (hroot : hubAddr ≠ -1)
    (hnone : ep.hcpriv = none) :
    ehciScheduleXact s slot addr hubAddr hubPort speed ep
      = ({ ep with hcpriv := some s.fresh }, sendOff
        (createQh s slot addr hubAddr.toUInt8 hubPort speed ep) slot ep
        s.fresh) := by
  rw [ehciScheduleXact, if_neg hroot, hnone]

/-- Otherwise the one it has is updated. -/
theorem ehciScheduleXact_again (hroot : hubAddr ≠ -1) {q : QhId}
    (hq : ep.hcpriv = some q) :
    ehciScheduleXact s slot addr hubAddr hubPort speed ep
      = (ep, sendOff (qhnUpdate s q addr ep) slot ep q) := by
  rw [ehciScheduleXact, if_neg hroot, hq]

end calls

/-- A queue head that is added becomes the tail of the ring. -/
theorem alistTail_add (host : AsyncHost) (q : QhId) :
    (ehciAddQhnAsync host q).alistTail = some q := by
  unfold ehciAddQhnAsync
  cases host.alistTail <;> rfl

/-- Putting descriptors on it does not move the tail. -/
theorem alistTail_sendOff (sched : Sched) (slot : Slot) (ep : Ep)
    (q : QhId) :
    (sendOff sched slot ep q).ring.alistTail = sched.ring.alistTail := by
  unfold sendOff ehciScheduleAsync
  split_ifs <;> rfl

/-- A new one for a control endpoint is added to the ring. -/
theorem alistTail_createQh (sched : Sched) (slot : Slot)
    (addr hubAddr hubPort : UInt8) (speed : Speed) {ep : Ep}
    (hcontrol : ep.type = .control) :
    (createQh sched slot addr hubAddr hubPort speed ep).ring.alistTail
      = some sched.fresh := by
  unfold createQh
  dsimp only
  rw [if_pos (.inl hcontrol)]
  exact alistTail_add ..

-- ============================================================ the H-bit

/-- The first words of the queue heads are as before, but for H-bits that
are set. -/
def HBitOnly (s s' : AsyncHost) : Prop :=
  ∀ m, (s'.qhns m).epc0 = (s.qhns m).epc0
    ∨ (s'.qhns m).epc0 = (s.qhns m).epc0 ||| mask qhepc0H

/-- A write that leaves the first endpoint word alone does so for all queue
heads. -/
theorem epc0_setQh (s : AsyncHost) (q : QhId) {f : QHn → QHn}
    (hf : ∀ qhn, (f qhn).epc0 = qhn.epc0) (m : QhId) :
    ((s.setQh q f).qhns m).epc0 = (s.qhns m).epc0 := by
  by_cases hm : m = q
  · rw [hm, AsyncHost.setQh_self, hf]
  · rw [AsyncHost.setQh_ne _ _ _ hm]

/-- Adding to the ring writes links, not endpoint words. -/
theorem epc0_add (s : AsyncHost) (q m : QhId) :
    ((ehciAddQhnAsync s q).qhns m).epc0 = (s.qhns m).epc0 := by
  unfold ehciAddQhnAsync
  cases s.alistTail with
  | none =>
      dsimp only
      rw [epc0_setQh, epc0_setQh] <;> exact fun _ => rfl
  | some tail =>
      dsimp only
      rw [epc0_setQh, epc0_setQh, epc0_setQh, epc0_setQh] <;>
        exact fun _ => rfl

theorem epc0_unlink {fuel : Nat} {s s' : AsyncHost} {q : QhId}
    (h : unlinkAsync fuel s q = .ok s') (m : QhId) :
    (s'.qhns m).epc0 = (s.qhns m).epc0 := by
  unfold unlinkAsync at h
  split at h
  · cases h
  · split at h
    · cases h
    · split at h
      · cases h
      · dsimp only at h
        cases h
        split
        · dsimp only
          rw [epc0_setQh, epc0_setQh] <;> exact fun _ => rfl
        · rw [epc0_setQh, epc0_setQh] <;> exact fun _ => rfl

theorem epc0_append {fuel : Nat} {s s' : AsyncHost} {q : QhId}
    (h : appendPending fuel s q = .ok s') (m : QhId) :
    (s'.qhns m).epc0 = (s.qhns m).epc0 := by
  unfold appendPending at h
  split at h
  · cases h
    rfl
  · split at h
    · cases h
    · cases h
      rw [epc0_setQh]
      exact fun _ => rfl

/-- Moving the head of the list changes the one bit that marks it. -/
theorem hBitOnly_move (s : AsyncHost) (q : QhId) :
    HBitOnly s (moveHBit s q) := by
  intro m
  unfold moveHBit
  split
  · split
    · exact .inl rfl
    · next n _ =>
        by_cases hm : m = n
        · rw [hm, AsyncHost.setQh_self]
          exact .inr rfl
        · rw [AsyncHost.setQh_ne _ _ _ hm]
          exact .inl rfl
  · exact .inl rfl

/-- Removing a queue head sets an H-bit at most. -/
theorem hBitOnly_del {fuel : Nat} {s s' : AsyncHost} {q : QhId}
    (h : ehciDelQhnAsync fuel s q = .ok s') : HBitOnly s s' := by
  intro m
  unfold ehciDelQhnAsync at h
  cases hhalt : haltTds fuel (s.qhns q).tdns s.tdns with
  | error f => rw [hhalt] at h; cases h
  | ok tdns =>
      rw [hhalt] at h
      have h : Except.bind (unlinkAsync fuel
        (moveHBit { s with tdns := tdns } q) q) _ = _ := h
      cases hunlink : unlinkAsync fuel
          (moveHBit { s with tdns := tdns } q) q with
      | error f => rw [hunlink] at h; cases h
      | ok s₁ =>
          rw [hunlink] at h
          have h : Except.bind (appendPending fuel s₁ q) _ = _ := h
          cases happend : appendPending fuel s₁ q with
          | error f => rw [happend] at h; cases h
          | ok s₂ =>
              rw [happend] at h
              cases h
              dsimp only
              rw [epc0_setQh, epc0_setQh, epc0_append happend,
                epc0_unlink hunlink]
              · exact hBitOnly_move { s with tdns := tdns } q m
              · exact fun _ => rfl
              · exact fun _ => rfl

/-- A queue head is sent off with its H-bit set at most. -/
theorem hBitOnly_sendOff (s : Sched) (slot : Slot) (ep : Ep) (q : QhId) :
    HBitOnly s.ring (sendOff s slot ep q).ring := by
  intro m
  unfold sendOff ehciScheduleAsync
  split_ifs
  · by_cases hm : m = q
    · dsimp only
      rw [hm, AsyncHost.setQh_self]
      exact .inr rfl
    · dsimp only
      rw [AsyncHost.setQh_ne _ _ _ hm]
      exact .inl rfl
  · exact .inl rfl
  · exact .inl rfl

/-- The second endpoint word is written when the queue head is made, and
not again. -/
theorem epc1_sendOff (s : Sched) (slot : Slot) (ep : Ep) (q : QhId) :
    (sendOff s slot ep q).epc1 = s.epc1
      ∧ (sendOff s slot ep q).fresh = s.fresh := by
  unfold sendOff ehciScheduleAsync
  split_ifs <;> exact ⟨rfl, rfl⟩

/-- The words of the queue head that is made, and of the others. -/
theorem epc0_createQh (s : Sched) (slot : Slot)
    (addr hubAddr hubPort : UInt8) (speed : Speed) (ep : Ep) (m : QhId) :
    ((createQh s slot addr hubAddr hubPort speed ep).ring.qhns m).epc0
      = if m = s.fresh then allocEpc0 addr speed ep
        else (s.ring.qhns m).epc0 := by
  have hnew : ((s.ring.setQh s.fresh fun _ =>
      qhnAlloc slot.pqh addr speed ep).qhns m).epc0
        = if m = s.fresh then allocEpc0 addr speed ep
          else (s.ring.qhns m).epc0 := by
    split
    · next hm =>
        rw [hm, AsyncHost.setQh_self]
        rfl
    · next hm => rw [AsyncHost.setQh_ne _ _ _ hm]
  unfold createQh
  dsimp only
  split
  · rw [epc0_add, hnew]
  · rw [hnew]

-- ======================================================= the first word

/-- The bits of the first word for the type of an endpoint. -/
def kindEpc0 (speed : Speed) (ep : Ep) : UInt32 :=
  (if ep.type = .interrupt then place 4 28 0 else place 4 28 8)
    ||| (if ep.type = .control then mask qhepc0Dtc else 0)
    ||| (if ep.type = .control ∧ speed ≠ .high then mask qhepc0C else 0)

/-- The parts of the first word that a queue head keeps. -/
def fixedEpc0 (speed : Speed) (ep : Ep) : UInt32 :=
  kindEpc0 speed ep ||| place 2 12 (speedCode speed)
    ||| place 4 8 ep.num.toUInt32

/-- The first word, by fields: packet size, address and what the kind of
endpoint fixes. -/
theorem allocEpc0_eq (address : UInt8) (speed : Speed) (ep : Ep) :
    allocEpc0 address speed ep
      = fixedEpc0 speed ep ||| place 11 16 ep.maxPkt.toUInt32
        ||| place 7 0 address.toUInt32 := by
  have hmax : qhepc0Maxpktlen ep.maxPkt.toUInt32
      = place 11 16 ep.maxPkt.toUInt32 := rfl
  have haddr : qhepc0Addr address.toUInt32
      = place 7 0 address.toUInt32 := rfl
  have hnum : qhepc0Ep ep.num.toUInt32 = place 4 8 ep.num.toUInt32 := rfl
  have hnak₀ : qhepc0NakcntRl 0 = place 4 28 0 := rfl
  have hnak₈ : qhepc0NakcntRl 0x8 = place 4 28 8 := rfl
  have hspeed : qhepc0Speed speed = place 2 12 (speedCode speed) := by
    cases speed <;> decide
  unfold allocEpc0 fixedEpc0 kindEpc0
  rw [hmax, haddr, hnum, hnak₀, hnak₈, hspeed]
  cases ep.type <;> cases speed <;> simp <;> ac_rfl

variable {speed : Speed} {ep : Ep}

/-- Outside of the fields for the kind, the word is clear. -/
theorem clear_kindEpc0 {n k : Nat} (hfit : k + n ≤ 32)
    (hout : (15 ≤ k ∧ k + n ≤ 27) ∨ k + n ≤ 14) :
    Clear n k (kindEpc0 speed ep) := by
  have hnak : ∀ x, Clear n k (place 4 28 x) :=
    Clear.place (by decide) (by decide) hfit (by omega)
  unfold kindEpc0
  refine Clear.or (Clear.or ?_ ?_) ?_
  · split
    · exact hnak 0
    · exact hnak 8
  · split
    · exact Clear.mask (by decide) (show 14 < k ∨ k + n ≤ 14 by omega)
    · exact Clear.zero
  · split
    · exact Clear.mask (by decide) (show 27 < k ∨ k + n ≤ 27 by omega)
    · exact Clear.zero

/-- The fixed parts leave the packet size and the address clear. -/
theorem clear_fixedEpc0 {n k : Nat} (hfit : k + n ≤ 32)
    (hout : (15 ≤ k ∧ k + n ≤ 27) ∨ k + n ≤ 8) :
    Clear n k (fixedEpc0 speed ep) := by
  unfold fixedEpc0
  refine Clear.or (Clear.or ?_ ?_) ?_
  · exact clear_kindEpc0 hfit (by omega)
  · exact Clear.place (by decide) (by decide) hfit (by omega) _
  · exact Clear.place (by decide) (by decide) hfit (by omega) _

/-- The head bit touches no other field. -/
theorem clear_h {n k : Nat} (hout : 15 < k ∨ k + n ≤ 15) {h : UInt32}
    (hh : h = 0 ∨ h = mask qhepc0H) : Clear n k h := by
  rcases hh with rfl | rfl
  · exact Clear.zero
  · exact Clear.mask (by decide) hout

/-- The packet size is 11 bits wide, from bit 16. -/
theorem getMaxpkt_eq (w : UInt32) : qhepc0GetMaxpkt w = take 11 16 w := by
  have hmask : qhepc0MaxpktMask = place 11 16 (low 11) := by decide
  have hshift : (16 : UInt32) = UInt32.ofNat 16 := rfl
  rw [qhepc0GetMaxpkt, hmask, hshift]
  exact shiftRight_and_place w (by decide) (by decide)

/-- The address is the lowest 7 bits. -/
theorem getAddr_eq (w : UInt32) : qhepc0GetAddr w = take 7 0 w := by
  have hmask : qhepc0AddrMask = place 7 0 (low 7) := by decide
  have hshift : w &&& place 7 0 (low 7)
      = (w &&& place 7 0 (low 7)) >>> UInt32.ofNat 0 := by
    apply eq_of_testBit
    intro b _
    rw [testBit_shiftRight _ (by decide), Nat.zero_add]
  rw [qhepc0GetAddr, hmask, hshift]
  exact shiftRight_and_place w (by decide) (by decide)

/-- The packet size is written if it is another one, and is then there. -/
theorem update_maxPkt {w m m' : UInt32} (hw : Clear 11 16 w)
    (hm : m.toNat < 2 ^ 11) :
    (if qhepc0GetMaxpkt (w ||| place 11 16 m) ≠ m' then
        (w ||| place 11 16 m) &&& ~~~qhepc0MaxpktMask ||| qhepc0Maxpktlen m'
      else w ||| place 11 16 m) = w ||| place 11 16 m' := by
  have hmask : qhepc0MaxpktMask = place 11 16 (low 11) := by decide
  have hplace : qhepc0Maxpktlen m' = place 11 16 m' := rfl
  rw [getMaxpkt_eq, take_or_place (by decide) (by decide) hw hm, hmask,
    hplace]
  split
  · exact replace_place (by decide) (by decide) hw
  · next heq => rw [not_not.1 heq]

/-- The same of the address. -/
theorem update_addr {w a a' : UInt32} (hw : Clear 7 0 w)
    (ha : a.toNat < 2 ^ 7) :
    (if qhepc0GetAddr (w ||| place 7 0 a) ≠ a' then
        (w ||| place 7 0 a) &&& ~~~qhepc0AddrMask ||| qhepc0Addr a'
      else w ||| place 7 0 a) = w ||| place 7 0 a' := by
  have hmask : qhepc0AddrMask = place 7 0 (low 7) := by decide
  have hplace : qhepc0Addr a' = place 7 0 a' := rfl
  rw [getAddr_eq, take_or_place (by decide) (by decide) hw ha, hmask, hplace]
  split
  · exact replace_place (by decide) (by decide) hw
  · next heq => rw [not_not.1 heq]

/-- A word of `qhn_alloc`, with or without the H-bit, is updated to the
word that `qhn_alloc` makes for the new address and packet size. -/
theorem updateEpc0_alloc {a a' : UInt8} {h : UInt32} {m m' : UInt16}
    (hcontrol : ep.type = .control) (hh : h = 0 ∨ h = mask qhepc0H)
    (hm : m.toNat < 2 ^ 11) (ha : a.toNat < 2 ^ 7) :
    updateEpc0 (allocEpc0 a speed { ep with maxPkt := m } ||| h) a'
        { ep with maxPkt := m' }
      = allocEpc0 a' speed { ep with maxPkt := m' } ||| h := by
  have hfixed : ∀ m, fixedEpc0 speed { ep with maxPkt := m }
      = fixedEpc0 speed ep := fun _ => rfl
  have hsize : allocEpc0 a speed { ep with maxPkt := m } ||| h
      = fixedEpc0 speed ep ||| h ||| place 7 0 a.toUInt32
        ||| place 11 16 m.toUInt32 := by
    rw [allocEpc0_eq, hfixed]
    ac_rfl
  have hclear₁ : Clear 11 16 (fixedEpc0 speed ep ||| h
      ||| place 7 0 a.toUInt32) :=
    ((clear_fixedEpc0 (by decide) (by decide)).or
      (clear_h (by decide) hh)).or
      (Clear.place (by decide) (by decide) (by decide) (by decide) _)
  have hclear₂ : Clear 7 0 (fixedEpc0 speed ep ||| h
      ||| place 11 16 m'.toUInt32) :=
    ((clear_fixedEpc0 (by decide) (by decide)).or
      (clear_h (by decide) hh)).or
      (Clear.place (by decide) (by decide) (by decide) (by decide) _)
  have hm : m.toUInt32.toNat < 2 ^ 11 := by
    rw [UInt16.toNat_toUInt32]
    exact hm
  have ha : a.toUInt32.toNat < 2 ^ 7 := by
    rw [UInt8.toNat_toUInt32]
    exact ha
  have haddr : fixedEpc0 speed ep ||| h ||| place 7 0 a.toUInt32
        ||| place 11 16 m'.toUInt32
      = fixedEpc0 speed ep ||| h ||| place 11 16 m'.toUInt32
        ||| place 7 0 a.toUInt32 := by ac_rfl
  unfold updateEpc0
  rw [if_neg (fun hne => hne hcontrol)]
  dsimp only
  rw [hsize, update_maxPkt hclear₁ hm, haddr, update_addr hclear₂ ha,
    allocEpc0_eq, hfixed]
  ac_rfl

-- ============================================================== decoding

section decoding

variable {a : UInt8} {h : UInt32} (hh : h = 0 ∨ h = mask qhepc0H)

include hh

theorem take_num (hnum : ep.num.toNat < 2 ^ 4) :
    take 4 8 (allocEpc0 a speed ep ||| h) = ep.num.toUInt32 := by
  have hnum : ep.num.toUInt32.toNat < 2 ^ 4 := by
    rw [UInt8.toNat_toUInt32]
    exact hnum
  have hlast : allocEpc0 a speed ep ||| h
      = kindEpc0 speed ep ||| place 2 12 (speedCode speed)
        ||| place 11 16 ep.maxPkt.toUInt32 ||| place 7 0 a.toUInt32 ||| h
        ||| place 4 8 ep.num.toUInt32 := by
    rw [allocEpc0_eq, fixedEpc0]
    ac_rfl
  rw [hlast]
  refine take_or_place (by decide) (by decide) ?_ hnum
  refine Clear.or (Clear.or (Clear.or (Clear.or ?_ ?_) ?_) ?_) ?_
  · exact clear_kindEpc0 (by decide) (by decide)
  · exact Clear.place (by decide) (by decide) (by decide) (by decide) _
  · exact Clear.place (by decide) (by decide) (by decide) (by decide) _
  · exact Clear.place (by decide) (by decide) (by decide) (by decide) _
  · exact clear_h (by decide) hh

theorem take_speed :
    take 2 12 (allocEpc0 a speed ep ||| h) = speedCode speed := by
  have hcode : (speedCode speed).toNat < 2 ^ 2 := by
    cases speed <;> decide
  have hlast : allocEpc0 a speed ep ||| h
      = kindEpc0 speed ep ||| place 4 8 ep.num.toUInt32
        ||| place 11 16 ep.maxPkt.toUInt32 ||| place 7 0 a.toUInt32 ||| h
        ||| place 2 12 (speedCode speed) := by
    rw [allocEpc0_eq, fixedEpc0]
    ac_rfl
  rw [hlast]
  refine take_or_place (by decide) (by decide) ?_ hcode
  refine Clear.or (Clear.or (Clear.or (Clear.or ?_ ?_) ?_) ?_) ?_
  · exact clear_kindEpc0 (by decide) (by decide)
  · exact Clear.place (by decide) (by decide) (by decide) (by decide) _
  · exact Clear.place (by decide) (by decide) (by decide) (by decide) _
  · exact Clear.place (by decide) (by decide) (by decide) (by decide) _
  · exact clear_h (by decide) hh

theorem getMaxpkt_alloc (hm : ep.maxPkt.toNat < 2 ^ 11) :
    qhepc0GetMaxpkt (allocEpc0 a speed ep ||| h)
      = ep.maxPkt.toUInt32 := by
  have hm : ep.maxPkt.toUInt32.toNat < 2 ^ 11 := by
    rw [UInt16.toNat_toUInt32]
    exact hm
  have hlast : allocEpc0 a speed ep ||| h
      = fixedEpc0 speed ep ||| place 7 0 a.toUInt32 ||| h
        ||| place 11 16 ep.maxPkt.toUInt32 := by
    rw [allocEpc0_eq]
    ac_rfl
  rw [getMaxpkt_eq, hlast]
  refine take_or_place (by decide) (by decide) ?_ hm
  refine Clear.or (Clear.or ?_ ?_) ?_
  · exact clear_fixedEpc0 (by decide) (by decide)
  · exact Clear.place (by decide) (by decide) (by decide) (by decide) _
  · exact clear_h (by decide) hh

theorem getAddr_alloc (ha : a.toNat < 2 ^ 7) :
    qhepc0GetAddr (allocEpc0 a speed ep ||| h) = a.toUInt32 := by
  have ha : a.toUInt32.toNat < 2 ^ 7 := by
    rw [UInt8.toNat_toUInt32]
    exact ha
  have hlast : allocEpc0 a speed ep ||| h
      = fixedEpc0 speed ep ||| place 11 16 ep.maxPkt.toUInt32 ||| h
        ||| place 7 0 a.toUInt32 := by
    rw [allocEpc0_eq]
    ac_rfl
  rw [getAddr_eq, hlast]
  refine take_or_place (by decide) (by decide) ?_ ha
  refine Clear.or (Clear.or ?_ ?_) ?_
  · exact clear_fixedEpc0 (by decide) (by decide)
  · exact Clear.place (by decide) (by decide) (by decide) (by decide) _
  · exact clear_h (by decide) hh

/-- Apart from the H-bit a word is the one that `qhn_alloc` makes. -/
theorem alloc_and_not_h :
    (allocEpc0 a speed ep ||| h) &&& ~~~mask qhepc0H
      = allocEpc0 a speed ep := by
  have hfree : Clear 1 15 (allocEpc0 a speed ep) := by
    rw [allocEpc0_eq]
    refine Clear.or (Clear.or ?_ ?_) ?_
    · exact clear_fixedEpc0 (by decide) (by decide)
    · exact Clear.place (by decide) (by decide) (by decide) (by decide) _
    · exact Clear.place (by decide) (by decide) (by decide) (by decide) _
  apply eq_of_testBit
  intro b hb
  rw [testBit_and_not_mask _ (by decide) hb, testBit_or]
  by_cases hb' : qhepc0H = b
  · rw [← hb', hfree qhepc0H (by decide) (by decide)]
    simp
  · have hzero : testBit h b = false := by
      rcases hh with rfl | rfl
      · exact testBit_zero b
      · rw [testBit_mask (by decide), decide_eq_false hb']
    rw [hzero, decide_eq_true hb', Bool.or_false, Bool.and_true]

end decoding

-- ====================================================== the second word

/-- The bits of the second word for the type of an endpoint. -/
def kindEpc1 (speed : Speed) (ep : Ep) : UInt32 :=
  place 2 30 1
    ||| (if (ep.type = .interrupt ∨ ep.type = .isochronous)
      ∧ speed ≠ .high
      then place 8 8 0x1c else 0)
    ||| (if ep.type = .interrupt then place 8 0 1 else 0)

/-- The second word, by fields: hub address and port for a device that is
not high speed. -/
theorem allocEpc1_eq (hubAddr hubPort : UInt8) (speed : Speed) (ep : Ep) :
    allocEpc1 hubAddr hubPort speed ep
      = kindEpc1 speed ep ||| (if speed ≠ .high then
        place 7 16 hubAddr.toUInt32 ||| place 7 23 hubPort.toUInt32
        else 0) := by
  have hmult : qhepc1Mult 1 = place 2 30 1 := rfl
  have hhub : qhepc1HubAddr hubAddr.toUInt32
      = place 7 16 hubAddr.toUInt32 := rfl
  have hport : qhepc1Port hubPort.toUInt32
      = place 7 23 hubPort.toUInt32 := rfl
  have hc : qhepc1UframeCmask 0x1c = place 8 8 0x1c := rfl
  have hs : qhepc1UframeSmask 1 = place 8 0 1 := rfl
  unfold allocEpc1 kindEpc1
  rw [hmult, hhub, hport, hc, hs]
  cases ep.type <;> cases speed <;> simp <;> ac_rfl

theorem clear_kindEpc1 {n k : Nat} (hin : 16 ≤ k ∧ k + n ≤ 30) :
    Clear n k (kindEpc1 speed ep) := by
  have hfit : k + n ≤ 32 := by omega
  unfold kindEpc1
  refine Clear.or (Clear.or ?_ ?_) ?_
  · exact Clear.place (by decide) (by decide) hfit (by omega) _
  · split
    · exact Clear.place (by decide) (by decide) hfit (by omega) _
    · exact Clear.zero
  · split
    · exact Clear.place (by decide) (by decide) hfit (by omega) _
    · exact Clear.zero

/-- The hub's address and port are read back, of a full or low speed
device. -/
theorem take_hub {hubAddr hubPort : UInt8} (hspeed : speed ≠ .high)
    (haddr : hubAddr.toNat < 2 ^ 7) (hport : hubPort.toNat < 2 ^ 7) :
    take 7 16 (allocEpc1 hubAddr hubPort speed ep) = hubAddr.toUInt32
      ∧ take 7 23 (allocEpc1 hubAddr hubPort speed ep)
        = hubPort.toUInt32 := by
  have haddr : hubAddr.toUInt32.toNat < 2 ^ 7 := by
    rw [UInt8.toNat_toUInt32]
    exact haddr
  have hport : hubPort.toUInt32.toNat < 2 ^ 7 := by
    rw [UInt8.toNat_toUInt32]
    exact hport
  have hlast : kindEpc1 speed ep ||| (place 7 16 hubAddr.toUInt32
        ||| place 7 23 hubPort.toUInt32)
      = kindEpc1 speed ep ||| place 7 23 hubPort.toUInt32
        ||| place 7 16 hubAddr.toUInt32 := by ac_rfl
  rw [allocEpc1_eq, if_pos hspeed]
  constructor
  · rw [hlast]
    refine take_or_place (by decide) (by decide) ?_ haddr
    exact (clear_kindEpc1 (by decide)).or
      (Clear.place (by decide) (by decide) (by decide) (by decide) _)
  · rw [← UInt32.or_assoc]
    refine take_or_place (by decide) (by decide) ?_ hport
    exact (clear_kindEpc1 (by decide)).or
      (Clear.place (by decide) (by decide) (by decide) (by decide) _)

/-- A high speed device has neither. -/
theorem take_hub_high {hubAddr hubPort : UInt8} (hspeed : speed = .high) :
    take 7 16 (allocEpc1 hubAddr hubPort speed ep) = 0
      ∧ take 7 23 (allocEpc1 hubAddr hubPort speed ep) = 0 := by
  rw [allocEpc1_eq, if_neg (fun hne => hne hspeed), UInt32.or_zero]
  constructor
  · exact take_of_clear (by decide) (by decide) (clear_kindEpc1 (by decide))
  · exact take_of_clear (by decide) (by decide) (clear_kindEpc1 (by decide))

end ProjectsLibs.Ehci
