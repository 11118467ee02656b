/-
What is left of a device whose enumeration failed: nothing if one of the
allocations at the start failed, and its queue head at least if it failed
later.

# The invariant

`EnumInv`: the devices of the list are older than the next allocation,
each is at a hub of the list, and has an address of the bitmap. The
translator of a device is then never at the address that stands for the
root hub, so the first transaction links a queue head.
-/
import Mathlib.Data.List.Find
import ProjectsLibs.Ehci.Proofs.QueueHead
import ProjectsLibs.Usb.Enumerate
import ProjectsLibs.Usb.Proofs.Address

namespace ProjectsLibs.Usb

open Lib Ehci

/-- The invariant of a run. -/
structure EnumInv (s : EnumHost) : Prop where
  nodup : s.bus.devlist.Nodup
  old : ∀ d ∈ s.bus.devlist, d < s.bus.fresh
  rooted : Rooted s.bus
  small : ∀ d ∈ s.bus.devlist, (s.bus.devs d).addr.toNat < 32

namespace EnumHost

variable {s s' : EnumHost} {udev : DevId} {t : Turns} {junk : Freed}
  {r : Enumerated}

-- ====================================================== the first frames

theorem extra_setExtra (s : EnumHost) (d : DevId) (f : Extra → Extra) :
    (s.setExtra d f).extra d = f (s.extra d) := Function.update_self ..

/-- The record of a new device: its hub and port, no address and no driver. -/
theorem devs_allocDev_self (s : EnumHost) (hub : Option DevId) (port : Nat)
    (speed : Speed) :
    (s.allocDev hub port speed).bus.devs s.bus.fresh
      = ⟨hub, (UInt8.ofNat port).toNat, 0, 0, none⟩ :=
  Function.update_self ..

/-- The devices there are keep their records. -/
theorem devs_allocDev_ne {hub : Option DevId} {port : Nat} {speed : Speed}
    {d : DevId} (hd : d ≠ s.bus.fresh) :
    (s.allocDev hub port speed).bus.devs d = s.bus.devs d :=
  Function.update_of_ne hd ..

/-- Its speed, and a control endpoint without a queue head. -/
theorem extra_allocDev_self (s : EnumHost) (hub : Option DevId) (port : Nat)
    (speed : Speed) :
    (s.allocDev hub port speed).extra s.bus.fresh
      = ⟨speed, 0, 0, ⟨.control, 0, 0, none⟩⟩ :=
  Function.update_self ..

/-- Freeing a device leaves the others alone. -/
theorem devs_free_ne {d : DevId} (hd : d ≠ udev) :
    (s.free udev junk).bus.devs d = s.bus.devs d :=
  Function.update_of_ne hd ..

-- ======================================================= the queue head

/-- The control endpoint of a device has a queue head, which is at the
tail of the ring. -/
def AtTail (s : EnumHost) (udev : DevId) : Prop :=
  ∃ q, (s.extra udev).epCtrl.hcpriv = some q
    ∧ (s.extra udev).epCtrl.type = .control
    ∧ s.sched.ring.alistTail = some q

/-- A device that does not stand for the root hub. -/
structure Below (s : EnumHost) (udev : DevId) : Prop where
  hub : (s.bus.devs udev).hub.isSome = true
  tt : (s.extra udev).ttAddr.toNat < 32
  control : (s.extra udev).epCtrl.type = .control

/-- Below the root hub the address is that of the translator. -/
theorem hubAddrArg_ne {hub : Option DevId} (hhub : hub.isSome = true)
    {x : Extra} (htt : x.ttAddr.toNat < 32) :
    hubAddrArg hub x ≠ -1 ∧ (hubAddrArg hub x).toUInt8 = x.ttAddr := by
  unfold hubAddrArg
  rw [if_pos hhub]
  refine ⟨?_, UInt8.toUInt8_toInt8 _⟩
  intro heq
  have hbyte : x.ttAddr = 255 := by
    rw [← UInt8.toUInt8_toInt8 x.ttAddr, heq]
    rfl
  rw [hbyte] at htt
  revert htt
  decide

/-- A device with a hub is not the root hub. -/
theorem Below.hubAddr_ne (hb : s.Below udev) : s.hubAddr udev ≠ -1 :=
  (hubAddrArg_ne hb.hub hb.tt).1

/-- The endpoint and the schedule after a transaction. -/
theorem schedule_eq (s : EnumHost) (udev : DevId) (slot : Slot) {ep : Ep}
    {sched : Sched}
    (h : ehciScheduleXact s.sched slot (s.bus.devs udev).addr
      (s.hubAddr udev) (s.extra udev).ttPort (s.extra udev).speed
      (s.extra udev).epCtrl = (ep, sched)) :
    ((s.usbdevScheduleXact udev slot).extra udev).epCtrl = ep
      ∧ (s.usbdevScheduleXact udev slot).sched = sched := by
  unfold usbdevScheduleXact
  dsimp only
  rw [h]
  exact ⟨congrArg Extra.epCtrl (s.extra_setExtra udev _), rfl⟩

/-- The first transaction links a queue head. -/
theorem Below.schedule_new (hb : s.Below udev)
    (hnone : (s.extra udev).epCtrl.hcpriv = none) (slot : Slot) :
    (s.usbdevScheduleXact udev slot).AtTail udev := by
  obtain ⟨hep, hsched⟩ := schedule_eq s udev slot
    (ehciScheduleXact_new hb.hubAddr_ne hnone)
  refine ⟨s.sched.fresh, congrArg Ep.hcpriv hep,
    (congrArg Ep.type hep).trans hb.control, ?_⟩
  rw [hsched, alistTail_sendOff]
  exact alistTail_createQh _ _ _ _ _ _ hb.control

/-- The later ones keep it. -/
theorem AtTail.schedule (ht : s.AtTail udev) (slot : Slot) :
    (s.usbdevScheduleXact udev slot).AtTail udev := by
  obtain ⟨q, hq, hcontrol, htail⟩ := ht
  by_cases hroot : s.hubAddr udev = -1
  · obtain ⟨hep, hsched⟩ := schedule_eq s udev slot
      (ehciScheduleXact_root hroot)
    rw [AtTail, hep, hsched]
    exact ⟨q, hq, hcontrol, htail⟩
  · obtain ⟨hep, hsched⟩ := schedule_eq s udev slot
      (ehciScheduleXact_again hroot hq)
    rw [AtTail, hep, hsched, alistTail_sendOff]
    exact ⟨q, hq, hcontrol, htail⟩

/-- An error exit leaves it linked. -/
theorem AtTail.giveUp (ht : s.AtTail udev) (junk : Freed) :
    ∃ q ∈ (s.giveUp udev junk).hcpriv,
      Reaches (s.giveUp udev junk).host.sched.ring q := by
  obtain ⟨q, hq, -, htail⟩ := ht
  exact ⟨q, hq, Reaches.tail htail⟩

-- ======================================================= the late exits

/-- A device in enumeration: it has a queue head, or it can get one. -/
theorem readDescriptor_linked (ht : s.AtTail udev)
    (hneg : (s.readDescriptor udev t junk).ret < 0) :
    ∃ q ∈ (s.readDescriptor udev t junk).hcpriv,
      Reaches (s.readDescriptor udev t junk).host.sched.ring q := by
  revert hneg
  unfold readDescriptor
  dsimp only
  split
  · intro _
    exact (ht.schedule _).giveUp junk
  · intro hneg
    exact absurd hneg (Int.lt_irrefl 0)

/-- If the address cannot be set, the queue head of the control endpoint
stays linked. -/
theorem assignAddress_linked (ht : s.AtTail udev) {addr : Int}
    (hneg : (s.assignAddress udev addr t junk).ret < 0) :
    ∃ q ∈ (s.assignAddress udev addr t junk).hcpriv,
      Reaches (s.assignAddress udev addr t junk).host.sched.ring q := by
  revert hneg
  unfold assignAddress
  dsimp only
  split
  · intro _
    exact (ht.schedule _).giveUp junk
  · apply readDescriptor_linked
    exact ht.schedule _

/-- What `devlist_insert` does: without a free address nothing. -/
theorem devlistInsert_cases {h h' : Host} {addr : Int}
    (hins : devlistInsert h udev = .ok (addr, h')) :
    (h.addrbm.toNat = 2 ^ numDevices - 1 ∧ addr = -1 ∧ h' = h)
      ∨ h.addrbm.toNat ≠ 2 ^ numDevices - 1
      ∧ ∃ i : Nat, i < 32 ∧ addr = i ∧ h' = { h with
        devlist := udev :: h.devlist
        addrbm := h.addrbm ||| mask i
        nextAddr := if i + 1 = numDevices then 1 else i + 1 } := by
  rw [devlistInsert] at hins
  split at hins
  · next hfull =>
      cases hins
      exact .inl ⟨hfull, rfl, rfl⟩
  · next hroom =>
    cases hc : cycleAddr h.addrbm (2 * numDevices) h.nextAddr with
    | error f => rw [hc] at hins; cases hins
    | ok i =>
        rw [hc] at hins
        by_cases hi : i < 32
        · have hins : Except.bind (shl i) _ = _ := hins
          rw [shl_ok hi] at hins
          cases hins
          exact .inr ⟨hroom, i, hi, rfl, rfl⟩
        · have hins : Except.bind (shl i) _ = _ := hins
          rw [shl, if_neg hi] at hins
          cases hins

/-- The same for a failure at any later step of the enumeration. -/
theorem registerDev_linked (ht : s.AtTail udev)
    (h : s.registerDev udev t junk = .ok r) (hneg : r.ret < 0) :
    ∃ q ∈ r.hcpriv, Reaches r.host.sched.ring q := by
  rw [registerDev] at h
  cases hins : devlistInsert s.bus udev with
  | error f => rw [hins] at h; cases h
  | ok p =>
      obtain ⟨addr, bus⟩ := p
      rw [hins] at h
      have h : (if addr < 0 then _ else _) = Except.ok r := h
      have ht' : { s with bus := bus }.AtTail udev := ht
      split at h
      · cases h
        exact ht'.giveUp junk
      · cases h
        exact assignAddress_linked ht' hneg

/-- And for one at the first read of the device descriptor. -/
theorem readMaxPkt_linked (hb : s.Below udev)
    (hnone : (s.extra udev).epCtrl.hcpriv = none)
    (h : s.readMaxPkt udev t junk = .ok r) (hneg : r.ret < 0) :
    ∃ q ∈ r.hcpriv, Reaches r.host.sched.ring q := by
  have ht := hb.schedule_new hnone t.slots.1
  rw [readMaxPkt] at h
  dsimp only at h
  split at h
  · cases h
    exact ht.giveUp junk
  · refine registerDev_linked ?_ h hneg
    obtain ⟨q, hq, hcontrol, htail⟩ := ht
    refine ⟨q, ?_, ?_, htail⟩
    · rw [extra_setExtra]
      exact hq
    · rw [extra_setExtra]
      exact hcontrol

-- ============================================================== the end

/-- The list and the device after an enumeration to the end. -/
def enumerated (h : Host) (udev : DevId) (i : Nat) (cls : UInt8) : Host :=
  ({ h with
    devlist := udev :: h.devlist
    addrbm := h.addrbm ||| mask i
    nextAddr := if i + 1 = numDevices then 1 else i + 1 }.setAddr udev
      (UInt8.ofNat i)).setDev udev fun x => { x with cls := cls }

/-- The second read of the descriptor fails, or the class is stored. -/
theorem readDescriptor_cases :
    ((s.readDescriptor udev t junk).ret = -1 ∧ t.secondRead < 0)
      ∨ ((s.readDescriptor udev t junk).ret = 0
        ∧ (s.readDescriptor udev t junk).host.bus
          = s.bus.setDev udev fun x => { x with cls := t.cls }) := by
  unfold readDescriptor
  dsimp only
  split
  · next hneg => exact .inl ⟨rfl, hneg⟩
  · exact .inr ⟨rfl, rfl⟩

/-- The exits from the first read on: two before the device is in the
list, two with the device in it, and the end. -/
theorem readMaxPkt_cases (h : s.readMaxPkt udev t junk = .ok r) :
    (r.ret = -1 ∧ (t.firstRead < 0
        ∨ s.bus.addrbm.toNat = 2 ^ numDevices - 1)
        ∧ ∃ s₁ : EnumHost, r = s₁.giveUp udev junk ∧ s₁.bus = s.bus)
      ∨ (r.ret = -1 ∧ 0 ≤ t.firstRead
        ∧ s.bus.addrbm.toNat ≠ 2 ^ numDevices - 1
        ∧ (t.setAddress < 0 ∨ t.secondRead < 0))
      ∨ (r.ret = 0
        ∧ ∃ i < 32, r.host.bus = enumerated s.bus udev i t.cls) := by
  rw [readMaxPkt] at h
  dsimp only at h
  split at h
  · next hneg =>
      cases h
      exact .inl ⟨rfl, .inl hneg, _, rfl, rfl⟩
  · next hread =>
      rw [registerDev] at h
      cases hins : devlistInsert s.bus udev with
      | error f =>
          have h : Except.bind (devlistInsert s.bus udev) _ = _ := h
          rw [hins] at h
          cases h
      | ok p =>
          obtain ⟨addr, bus⟩ := p
          have h : Except.bind (devlistInsert s.bus udev) _ = _ := h
          rw [hins] at h
          have h : (if addr < 0 then _ else _) = Except.ok r := h
          obtain ⟨hfull, rfl, rfl⟩ | ⟨hroom, i, hi, rfl, rfl⟩ :=
            devlistInsert_cases hins
          · rw [if_pos (by decide)] at h
            cases h
            exact .inl ⟨rfl, .inr hfull, _, rfl, rfl⟩
          · rw [if_neg (Int.not_lt.2 (Int.natCast_nonneg i)),
              assignAddress] at h
            dsimp only at h
            have hread := Int.not_lt.1 hread
            split at h
            · next hneg =>
                cases h
                exact .inr (.inl ⟨rfl, hread, hroom, .inl hneg⟩)
            · cases h
              rcases readDescriptor_cases with ⟨hret, hneg⟩ |
                ⟨hret, hbus⟩
              · exact .inr (.inl ⟨hret, hread, hroom, .inr hneg⟩)
              · exact .inr (.inr ⟨hret, i, hi, hbus⟩)

-- ======================================================== the translator

/-- The translator is a device of the list. -/
theorem findTt_small (hroot : Rooted s.bus)
    (hsmall : ∀ d ∈ s.bus.devlist, (s.bus.devs d).addr.toNat < 32)
    (fuel : Nat) (hub : Option DevId) (child : DevId)
    (hhub : ∀ p ∈ hub, p ∈ s.bus.devlist) {tt : UInt8 × UInt8}
    (h : s.findTt fuel hub child = .ok tt) : tt.1.toNat < 32 := by
  induction fuel generalizing hub child with
  | zero =>
      cases hub with
      | none => cases h; decide
      | some p => cases h
  | succ fuel ih =>
      cases hub with
      | none => cases h; decide
      | some p =>
          have hp := hhub p rfl
          rw [findTt] at h
          split at h
          · cases h
            exact hsmall p hp
          · exact ih _ _ (hroot p hp) h

-- ======================================================= the early exits

/-- The devices of the list and their addresses are as before. -/
structure Untouched (s s' : EnumHost) : Prop where
  devlist : s'.bus.devlist = s.bus.devlist
  addrbm : s'.bus.addrbm = s.bus.addrbm
  fresh : s.bus.fresh ≤ s'.bus.fresh
  devs : ∀ d < s.bus.fresh, s'.bus.devs d = s.bus.devs d

/-- An error exit before the device is scheduled. -/
theorem untouched_giveUp (hub : Option DevId) (port : Nat) (speed : Speed)
    (hbus : s'.bus = (s.allocDev hub port speed).bus) (junk : Freed) :
    Untouched s (s'.giveUp s.bus.fresh junk).host := by
  have hfree : ∀ d < s.bus.fresh,
      ((s'.giveUp s.bus.fresh junk).host).bus.devs d = s.bus.devs d := by
    intro d hd
    have hne : d ≠ s.bus.fresh := Nat.ne_of_lt hd
    rw [giveUp, devs_free_ne hne, hbus, devs_allocDev_ne hne]
  refine ⟨?_, ?_, ?_, hfree⟩
  · show s'.bus.devlist = _
    rw [hbus]
    rfl
  · show s'.bus.addrbm = _
    rw [hbus]
    rfl
  · show _ ≤ s'.bus.fresh
    rw [hbus]
    exact Nat.le_succ _

/-- Either a record cannot be allocated, and nothing has happened, or the
enumeration begins with the translator found. -/
theorem usbNewDeviceWithHost_cases {hub : Option DevId} {port : Nat}
    {speed : Speed}
    (h : s.usbNewDeviceWithHost hub port speed t junk = .ok r) :
    (t.NoMemory ∧ r.ret = -1 ∧ r.hcpriv = none ∧ Untouched s r.host)
      ∨ (¬t.NoMemory ∧ ∃ tt,
        (s.allocDev hub port speed).chooseTt hub s.bus.fresh = .ok tt
        ∧ ((s.allocDev hub port speed).setTt s.bus.fresh tt).readMaxPkt
          s.bus.fresh t junk = .ok r) := by
  rw [usbNewDeviceWithHost] at h
  split at h
  · next hdev =>
      cases h
      exact .inl ⟨.inl hdev, rfl, rfl, rfl, rfl, Nat.le_refl _,
        fun _ _ => rfl⟩
  · next hdev =>
      cases htt : (s.allocDev hub port speed).chooseTt hub
          s.bus.fresh with
      | error f =>
          dsimp only at h
          rw [htt] at h
          cases h
      | ok tt =>
          dsimp only at h
          rw [htt] at h
          have h : (if t.epMem = false then _ else _) = Except.ok r := h
          have hnone := congrArg (fun x : Extra => x.epCtrl.hcpriv)
            (s.extra_allocDev_self hub port speed)
          split at h
          · next hep =>
              cases h
              exact .inl ⟨.inr (.inl hep), rfl, hnone,
                untouched_giveUp hub port speed rfl _⟩
          · next hep =>
              split at h
              · next hdma =>
                  cases h
                  refine .inl ⟨.inr (.inr hdma), rfl, ?_, ?_⟩
                  · show ((setTt _ _ _).extra _).epCtrl.hcpriv = none
                    rw [setTt, extra_setExtra]
                    exact hnone
                  · have hbus : ((s.allocDev hub port speed).setTt
                        s.bus.fresh tt).bus
                        = (s.allocDev hub port speed).bus := rfl
                    exact untouched_giveUp _ _ _ hbus _
              · next hdma =>
                  refine .inr ⟨?_, tt, rfl, h⟩
                  rintro (hno | hno | hno)
                  · exact hdev hno
                  · exact hep hno
                  · exact hdma hno

end EnumHost

namespace EnumInv

variable {s s' : EnumHost} {t : Turns} {junk : Freed} {r : Enumerated}

open EnumHost

/-- An invariant of the devices of the list. -/
theorem of_untouched (hI : EnumInv s) (hu : Untouched s s') :
    EnumInv s' := by
  have hdevs : ∀ d ∈ s.bus.devlist, s'.bus.devs d = s.bus.devs d :=
    fun d hd => hu.devs d (hI.old d hd)
  refine ⟨?_, ?_, ?_, ?_⟩
  · rw [hu.devlist]
    exact hI.nodup
  · rw [hu.devlist]
    exact fun d hd => Nat.lt_of_lt_of_le (hI.old d hd) hu.fresh
  · rw [Rooted, hu.devlist]
    intro d hd
    rw [hdevs d hd]
    exact hI.rooted d hd
  · rw [hu.devlist]
    intro d hd
    rw [hdevs d hd]
    exact hI.small d hd

/-- A call that has touched nothing leaves no trace. -/
theorem noTrace_of_untouched (hI : EnumInv s) (hu : Untouched s r.host)
    (hnone : r.hcpriv = none) : NoTrace s r := by
  refine ⟨?_, hu.addrbm, ?_, ?_⟩
  · rw [hu.devlist]
    exact fun d => Iff.rfl
  · rw [hnone]
    rintro q ⟨⟩
  · intro addr
    rw [usbGetDevice, usbGetDevice, devlistAt, devlistAt, hu.devlist]
    have hfind : s.bus.devlist.find?
          (fun d => decide (((r.host.bus.devs d).addr.toNat : Int) = addr))
        = s.bus.devlist.find?
          (fun d => decide (((s.bus.devs d).addr.toNat : Int) = addr)) := by
      apply List.find?_congr
      intro d hd
      rw [hu.devs d (hI.old d hd)]
    rw [hfind]

/-- The device as it is when its first transaction is made. -/
theorem below_setTt (hI : EnumInv s) {hub : DevId} {port : Nat}
    {speed : Speed} (hhub : hub ∈ s.bus.devlist) {tt : UInt8 × UInt8}
    (htt : (s.allocDev (some hub) port speed).chooseTt (some hub) s.bus.fresh
      = .ok tt) :
    ((s.allocDev (some hub) port speed).setTt s.bus.fresh tt).Below
      s.bus.fresh := by
  have hI' : EnumInv (s.allocDev (some hub) port speed) :=
    hI.of_untouched ⟨rfl, rfl, Nat.le_succ _, fun d hd =>
      devs_allocDev_ne (Nat.ne_of_lt hd)⟩
  have hsmall : tt.1.toNat < 32 := by
    rw [chooseTt] at htt
    split at htt
    · refine findTt_small hI'.rooted hI'.small _ _ _ ?_ htt
      rintro p ⟨⟩
      exact hhub
    · cases htt
      decide
  refine ⟨?_, ?_, ?_⟩
  · show ((s.allocDev (some hub) port speed).bus.devs _).hub.isSome = true
    rw [devs_allocDev_self]
    rfl
  · rw [setTt, extra_setExtra]
    exact hsmall
  · rw [setTt, extra_setExtra, extra_allocDev_self]

/-- An enumeration that fails leaves nothing exactly if it fails for
memory. -/
theorem noTrace_iff (hI : EnumInv s) {hub : DevId} {port : Nat}
    {speed : Speed} (hhub : hub ∈ s.bus.devlist)
    (h : s.usbNewDevice hub port speed t junk = .ok r) (hneg : r.ret < 0) :
    NoTrace s r ↔ t.NoMemory := by
  rcases usbNewDeviceWithHost_cases h with
    ⟨hmem, -, hnone, hu⟩ | ⟨hmem, tt, htt, hread⟩
  · exact ⟨fun _ => hmem, fun _ => hI.noTrace_of_untouched hu hnone⟩
  · refine ⟨fun hno => ?_, fun hm => absurd hm hmem⟩
    have hnone : (((s.allocDev (some hub) port speed).setTt s.bus.fresh
        tt).extra s.bus.fresh).epCtrl.hcpriv = none := by
      rw [setTt, extra_setExtra, extra_allocDev_self]
    obtain ⟨q, hq, hreach⟩ := readMaxPkt_linked
      (hI.below_setTt hhub htt) hnone hread hneg
    exact absurd hreach (hno.unlinked q hq)

-- ============================================================== the steps

/-- A device that was enumerated keeps the invariant. -/
theorem enumerated_inv (hI : EnumInv s) {hub : Option DevId} {port : Nat}
    {speed : Speed} (hhub : ∀ p ∈ hub, p ∈ s.bus.devlist) {i : Nat}
    (hi : i < 32) {cls : UInt8}
    (hbus : s'.bus = enumerated (s.allocDev hub port speed).bus s.bus.fresh i
      cls) : EnumInv s' := by
  have hlist : s'.bus.devlist = s.bus.fresh :: s.bus.devlist := by
    rw [hbus]
    rfl
  have hself : (s'.bus.devs s.bus.fresh).hub = hub
      ∧ (s'.bus.devs s.bus.fresh).addr = UInt8.ofNat i := by
    rw [hbus, enumerated, Host.setDev, Host.setAddr, Host.setDev]
    dsimp only
    rw [Function.update_self, Function.update_self, devs_allocDev_self]
    exact ⟨rfl, rfl⟩
  have hother : ∀ d ∈ s.bus.devlist, s'.bus.devs d = s.bus.devs d := by
    intro d hd
    have hne : d ≠ s.bus.fresh := Nat.ne_of_lt (hI.old d hd)
    rw [hbus, enumerated, Host.setDev, Host.setAddr, Host.setDev]
    dsimp only
    rw [Function.update_of_ne hne, Function.update_of_ne hne,
      devs_allocDev_ne hne]
  refine ⟨?_, ?_, ?_, ?_⟩
  · rw [hlist]
    exact List.nodup_cons.2
      ⟨fun hmem => Nat.lt_irrefl _ (hI.old _ hmem), hI.nodup⟩
  · rw [hlist, hbus]
    intro d hd
    show d < s.bus.fresh + 1
    rcases List.mem_cons.1 hd with rfl | hd
    · exact Nat.lt_succ_self _
    · exact Nat.lt_succ_of_lt (hI.old d hd)
  · rw [Rooted, hlist]
    intro d hd p hp
    refine List.mem_cons_of_mem _ ?_
    rcases List.mem_cons.1 hd with rfl | hd
    · rw [hself.1] at hp
      exact hhub p hp
    · rw [hother d hd] at hp
      exact hI.rooted d hd p hp
  · rw [hlist]
    intro d hd
    rcases List.mem_cons.1 hd with rfl | hd
    · rw [hself.2, UInt8.toNat_ofNat_of_lt' (by show i < 256; omega)]
      exact hi
    · rw [hother d hd]
      exact hI.small d hd

/-- An enumeration to the end. -/
theorem newDevice_inv (hI : EnumInv s) {hub : Option DevId} {port : Nat}
    {speed : Speed} (hhub : ∀ p ∈ hub, p ∈ s.bus.devlist)
    (h : s.usbNewDeviceWithHost hub port speed t junk = .ok r)
    (hret : r.ret = 0) : EnumInv r.host := by
  rcases usbNewDeviceWithHost_cases h with
    ⟨-, hneg, -, -⟩ | ⟨-, tt, -, hread⟩
  · rw [hret] at hneg
    cases hneg
  · rcases readMaxPkt_cases hread with
      ⟨hneg, -⟩ | ⟨hneg, -⟩ | ⟨-, i, hi, hbus⟩
    · rw [hret] at hneg
      cases hneg
    · rw [hret] at hneg
      cases hneg
    · have hbus : r.host.bus = enumerated
          (s.allocDev hub port speed).bus s.bus.fresh i t.cls := hbus
      exact hI.enumerated_inv hhub hi hbus

/-- Devices have left the list, and the others are as before. -/
structure Shrunk (s s' : EnumHost) : Prop where
  devlist : s'.bus.devlist.Sublist s.bus.devlist
  fresh : s'.bus.fresh = s.bus.fresh
  devs : ∀ d ∈ s'.bus.devlist, s'.bus.devs d = s.bus.devs d

theorem Shrunk.refl (s : EnumHost) : Shrunk s s :=
  ⟨List.Sublist.refl _, rfl, fun _ _ => rfl⟩

theorem Shrunk.trans {s₁ s₂ s₃ : EnumHost} (h₁ : Shrunk s₁ s₂)
    (h₂ : Shrunk s₂ s₃) : Shrunk s₁ s₃ := by
  refine ⟨h₂.devlist.trans h₁.devlist, h₂.fresh.trans h₁.fresh, ?_⟩
  intro d hd
  exact (h₂.devs d hd).trans (h₁.devs d (h₂.devlist.subset hd))

/-- Removing a device takes it off the list and changes no other. -/
theorem removeDev_shrunk (hnodup : s.bus.devlist.Nodup) {udev : DevId}
    {junk : DevId → Freed} (h : s.removeDev udev junk = .ok s') :
    Shrunk s s' := by
  rw [removeDev] at h
  cases hc : ofEhci (ehciCancelXact (s.sched.fresh + 1) s.sched
      (s.extra udev).epCtrl) with
  | error f => rw [hc] at h; cases h
  | ok sched =>
      rw [hc] at h
      have h : Except.bind (devlistRemove s.bus udev) _ = _ := h
      rw [devlistRemove] at h
      split at h
      · cases h
      · cases hb : shl (s.bus.devs udev).addr.toNat with
        | error f => rw [hb] at h; cases h
        | ok b =>
            rw [hb] at h
            cases h
            refine ⟨List.erase_sublist, rfl, ?_⟩
            intro d hd
            have hne : d ≠ udev := (hnodup.mem_erase_iff.1 hd).1
            rw [devs_free_ne hne]
            exact Function.update_of_ne hne ..

/-- The devices at the ports of a hub are removed one after the other. -/
theorem disconnectPorts_shrunk
    {disconnect : EnumHost → DevId → Except Fault EnumHost}
    (hrec : ∀ s₁ d s₂, s₁.bus.devlist.Nodup →
      disconnect s₁ d = .ok s₂ →
      Shrunk s₁ s₂)
    (hub : UsbHub) (n : Nat) (s s' : EnumHost)
    (hnodup : s.bus.devlist.Nodup)
    (h : EnumHost.disconnectPorts disconnect hub n s = .ok s') :
    Shrunk s s' := by
  induction n generalizing s with
  | zero =>
      cases h
      exact Shrunk.refl _
  | succ n ih =>
      rw [EnumHost.disconnectPorts] at h
      split at h
      · exact ih s hnodup h
      · next d _ =>
          cases hd : disconnect s d with
          | error f => rw [hd] at h; cases h
          | ok s₁ =>
              rw [hd] at h
              have h₁ := hrec s d s₁ hnodup hd
              exact h₁.trans (ih s₁ (hnodup.sublist h₁.devlist) h)

/-- Disconnecting a device only takes devices off the list, below it and
itself. -/
theorem disconnect_shrunk (junk : DevId → Freed) (fuel : Nat)
    (s : EnumHost) (udev : DevId) (s' : EnumHost)
    (hnodup : s.bus.devlist.Nodup)
    (h : EnumHost.usbdevDisconnect junk fuel s udev = .ok s') :
    Shrunk s s' := by
  induction fuel generalizing s udev s' with
  | zero => cases h
  | succ fuel ih =>
      rw [EnumHost.usbdevDisconnect] at h
      split at h
      · split at h
        · cases h
        · next hub _ =>
            cases hp : EnumHost.disconnectPorts
                (EnumHost.usbdevDisconnect junk fuel) hub hub.nports s with
            | error f => rw [hp] at h; cases h
            | ok s₁ =>
                rw [hp] at h
                have h₁ := disconnectPorts_shrunk
                  (fun s₁ d s₂ hn hd =>
                    ih s₁ d s₂ hn hd) hub _ s s₁ hnodup hp
                exact h₁.trans
                  (removeDev_shrunk (hnodup.sublist h₁.devlist) h)
      · exact removeDev_shrunk hnodup h

/-- The invariant survives if what is left is still rooted. -/
theorem of_shrunk (hI : EnumInv s) (hsh : Shrunk s s')
    (hroot : Rooted s'.bus) : EnumInv s' := by
  refine ⟨hI.nodup.sublist hsh.devlist, ?_, hroot, ?_⟩
  · rw [hsh.fresh]
    exact fun d hd => hI.old d (hsh.devlist.subset hd)
  · intro d hd
    rw [hsh.devs d hd]
    exact hI.small d (hsh.devlist.subset hd)

/-- A driver may store its data in a record. -/
theorem driver_inv (hI : EnumInv s) (d : DevId) (data : Option UsbHub) :
    EnumInv { s with
      bus := s.bus.setDev d fun x => { x with devData := data } } := by
  have hkeep : ∀ e,
      ((s.bus.setDev d fun x => { x with devData := data }).devs e).hub
          = (s.bus.devs e).hub
        ∧ ((s.bus.setDev d fun x => { x with devData := data }).devs e).addr
          = (s.bus.devs e).addr := by
    intro e
    by_cases he : e = d
    · rw [he, Host.setDev]
      dsimp only
      rw [Function.update_self]
      exact ⟨rfl, rfl⟩
    · rw [Host.setDev]
      dsimp only
      rw [Function.update_of_ne he]
      exact ⟨rfl, rfl⟩
  refine ⟨hI.nodup, hI.old, ?_, ?_⟩
  · intro e he p hp
    dsimp only at hp
    rw [(hkeep e).1] at hp
    exact hI.rooted e he p hp
  · intro e he
    dsimp only
    rw [(hkeep e).2]
    exact hI.small e he

/-- The bus at the start. -/
theorem init (hinit : EnumInit s) : EnumInv s := by
  obtain ⟨s₀, t, junk, r, -, h, hret, rfl⟩ := hinit
  have hI : EnumInv { s₀ with bus := devlistInit s₀.bus } := by
    refine ⟨List.nodup_nil, ?_, ?_, ?_⟩ <;> intro d hd <;> cases hd
  refine hI.newDevice_inv ?_ h hret
  rintro p ⟨⟩

/-- One step of a run that keeps to the condition. -/
theorem step (hI : EnumInv s) {op : EnumOp} (hok : EnumOk s op)
    (hstep : enumStep s op = some s') : EnumInv s' := by
  cases op with
  | newDevice hub port speed t junk =>
      rw [enumStep] at hstep
      split at hstep
      · next hhub =>
          split at hstep
          · next r h =>
              cases hstep
              rcases usbNewDeviceWithHost_cases h with
                ⟨-, -, -, hu⟩ | ⟨hmem, tt, -, hread⟩
              · exact hI.of_untouched hu
              · rcases readMaxPkt_cases hread with
                  ⟨-, -, s₁, rfl, hbus⟩ |
                  ⟨-, hread₁, hroom, hlate⟩ |
                  ⟨hret, -⟩
                · exact hI.of_untouched
                    (untouched_giveUp (some hub) port speed hbus junk)
                · obtain ⟨haddr, hread₂⟩ := ((hok.resolve_left
                    hmem).resolve_left (Int.not_lt.2 hread₁)).resolve_left
                      hroom
                  rcases hlate with hneg | hneg
                  · exact absurd hneg (Int.not_lt.2 haddr)
                  · exact absurd hneg (Int.not_lt.2 hread₂)
                · refine hI.newDevice_inv ?_ h hret
                  rintro p ⟨⟩
                  exact hhub
          · cases hstep
      · cases hstep
  | disconnect d junk =>
      rw [enumStep] at hstep
      split at hstep
      · split at hstep
        · next s₁ h =>
            split at hstep
            · next hroot =>
                cases hstep
                exact hI.of_shrunk
                  (disconnect_shrunk _ _ _ _ _ hI.nodup h) hroot
            · cases hstep
        · cases hstep
      · cases hstep
  | driver d data =>
      cases hstep
      exact hI.driver_inv d data

end EnumInv

-- =============================================================== the run

/-- In a run in which no enumeration fails with its device in the list
already, one that fails leaves nothing exactly if it fails for memory. -/
theorem noTrace_iff_noMemory {s : EnumHost}
    (hs : Reachable EnumInit enumStep EnumOk s) {hub : DevId} {port : Nat}
    {speed : Speed} {t : Turns} {junk : Freed} {r : Enumerated}
    (hhub : hub ∈ s.bus.devlist)
    (h : s.usbNewDevice hub port speed t junk = .ok r) (hneg : r.ret < 0) :
    NoTrace s r ↔ t.NoMemory := by
  have hI : EnumInv s := by
    refine hs.invariant (fun s => EnumInv.init) ?_
    intro s op s' hI hok hstep
    exact hI.step hok hstep
  exact hI.noTrace_iff hhub h hneg

/-- A value that a call returns. -/
theorem ok_of_any {ε α : Type*} {x : Except ε α} {p : α → Bool}
    (h : x.toOption.any p = true) : ∃ a, x = .ok a ∧ p a = true := by
  cases x with
  | error e => cases h
  | ok a => exact ⟨a, rfl, h⟩

/-- A host without devices. -/
def emptyEnum : EnumHost where
  bus := ⟨1, 1, [], fun _ => ⟨none, 0, 0, 0, none⟩, 0⟩
  extra := fun _ => ⟨.low, 0, 0, ⟨.control, 0, 0, none⟩⟩
  sched := ⟨⟨fun _ => ⟨0, 1, 0, 0, 1, none, 0, 0, none⟩,
    fun _ => ⟨false, 0, 1, 0, none, none⟩, none, none, 0⟩,
    fun _ => 0, 0⟩

/-- Memory that was freed and is zero. -/
def blank : Freed :=
  (⟨none, 0, 0, 0, none⟩, ⟨.low, 0, 0, ⟨.control, 0, 0, none⟩⟩)

/-- Every call succeeds. -/
def allWell : Turns where
  devMem := true
  epMem := true
  dma := true
  firstRead := 0
  maxPkt := 64
  setAddress := 0
  secondRead := 0
  cls := 9
  slots := (⟨0x100, true⟩, ⟨0x100, false⟩, ⟨0x100, false⟩)

/-- The bus with its root hub. -/
theorem started_enum : ∃ s, EnumInit s ∧ s.bus.devlist = [0]
    ∧ ∀ t : Turns, ∀ p : Enumerated → Bool,
      ((emptyEnum.usbNewDeviceWithHost none 1 .low allWell
          blank).toOption.bind fun r =>
        (r.host.usbNewDevice 0 1 .high t blank).toOption).any p = true →
      ∃ r, s.usbNewDevice 0 1 .high t blank = .ok r ∧ p r = true := by
  obtain ⟨r, hr, hp⟩ := ok_of_any
    (show (emptyEnum.usbNewDeviceWithHost none 1 .low allWell
      blank).toOption.any (fun r => decide (r.ret = 0
        ∧ r.host.bus.devlist = [0])) = true by decide +kernel)
  rw [decide_eq_true_eq] at hp
  refine ⟨r.host, ⟨emptyEnum, allWell, blank, r, rfl, hr, hp.1, rfl⟩,
    hp.2, ?_⟩
  intro t p h
  rw [hr] at h
  exact ok_of_any h

/-- An enumeration that fails for lack of memory. -/
theorem noTrace_iff_noMemory_sample :
    ∃ s r, EnumInit s ∧ 0 ∈ s.bus.devlist
      ∧ s.usbNewDevice 0 1 .high { allWell with dma := false } blank = .ok r
      ∧ r.ret < 0 ∧ NoTrace s r := by
  obtain ⟨s, hinit, hlist, hcall⟩ := started_enum
  obtain ⟨r, hr, hp⟩ := hcall { allWell with dma := false }
    (fun r => decide (r.ret < 0)) (by decide +kernel)
  have hneg : r.ret < 0 := of_decide_eq_true hp
  have hmem : 0 ∈ s.bus.devlist := by
    rw [hlist]
    exact List.mem_cons_self ..
  refine ⟨s, r, hinit, hmem, hr, hneg, ?_⟩
  exact (noTrace_iff_noMemory (.init hinit) hmem hr hneg).2 (by decide)

/-- A device that does not take its address stays in the list, with the
bit of that address and its queue head. -/
theorem failed_address_stays :
    ∃ s r, Reachable EnumInit enumStep anyStep s ∧ 0 ∈ s.bus.devlist
      ∧ s.usbNewDevice 0 1 .high { allWell with setAddress := -1 } blank
        = .ok r
      ∧ r.ret < 0 ∧ ¬NoTrace s r := by
  obtain ⟨s, hinit, hlist, hcall⟩ := started_enum
  obtain ⟨r, hr, hp⟩ := hcall { allWell with setAddress := -1 }
    (fun r => decide (r.ret < 0 ∧ r.host.bus.devlist = [1, 0]
      ∧ r.host.bus.addrbm = 7)) (by decide +kernel)
  obtain ⟨hneg, hlist', -⟩ := of_decide_eq_true hp
  refine ⟨s, r, .init hinit, ?_, hr, hneg, ?_⟩
  · rw [hlist]
    exact List.mem_cons_self ..
  · intro hno
    have hmem := (hno.devlist 1).1 (by rw [hlist']; decide)
    rw [hlist] at hmem
    revert hmem
    decide

end ProjectsLibs.Usb
