/-
The queue head of an endpoint leads to its device.

# Shape of the argument

- `findTt_ok` walks up the hubs of a device: the search ends, at the
  first high speed hub if there is one.
- `QhWords` is what holds of a queue head between calls: its first word
  is one that `qhn_alloc` makes, but for the H-bit, and its second word is
  the one that `qhn_alloc` made. Every step keeps it (`QhWords.step`), and
  a call leaves the word for its own address and packet size.
-/
import ProjectsLibs.Usb.Addressing
import ProjectsLibs.Usb.Proofs.Enumerate

namespace ProjectsLibs.Usb

open Lib Ehci

-- ======================================================== the translator

namespace EnumHost

variable {s : EnumHost}

/-- The port above a chain is looked up hub by hub. -/
theorem portAbove_cons (port : Nat) (x : DevId) (below : List DevId) :
    s.portAbove port (x :: below)
      = s.portAbove (s.bus.devs x).port below := by
  unfold portAbove
  cases below with
  | nil => rfl
  | cons y below => rw [List.getLast?_cons_cons, List.getLast?_cons]

/-- The translator of a device at `port`, below the hubs `path`. -/
structure Translates (s : EnumHost) (path : List DevId) (port : Nat)
    (tt : UInt8 × UInt8) : Prop where
  nearest : ∀ below hub above, path = below ++ hub :: above →
    (∀ p ∈ below, (s.extra p).speed ≠ .high) →
    (s.extra hub).speed = .high →
      tt = ((s.bus.devs hub).addr, UInt8.ofNat (s.portAbove port below))
  direct : (∀ p ∈ path, (s.extra p).speed ≠ .high) → tt = (0, 0)
  small : (∀ p ∈ path, (s.bus.devs p).addr.toNat < 32) → tt.1.toNat < 32

/-- The walk up the hubs ends, and finds the translator of the nearest high
speed hub. -/
theorem findTt_ok {path : List DevId} {hub : Option DevId} {fuel : Nat}
    (child : DevId) (hpath : Leads s.hubOf hub path none)
    (hfuel : path.length ≤ fuel) :
    ∃ tt, s.findTt fuel hub child = .ok tt
      ∧ s.Translates path (s.bus.devs child).port tt := by
  induction path generalizing hub fuel child with
  | nil =>
      obtain rfl : hub = none := hpath
      refine ⟨(0, 0), by cases fuel <;> rfl, ?_, fun _ => rfl, fun _ => ?_⟩
      · intro below x above heq
        cases below <;> cases heq
      · decide
  | cons x path ih =>
      obtain ⟨rfl, hrest⟩ := hpath
      cases fuel with
      | zero => cases hfuel
      | succ fuel =>
          rw [findTt]
          -- a high speed hub ends the walk; its port is the one that the
          -- child below it is plugged into
          by_cases hx : (s.extra x).speed = .high
          · rw [if_pos hx]
            refine ⟨_, rfl, ?_, ?_, ?_⟩
            · intro below y above heq hlow _
              cases below with
              | nil =>
                  cases heq
                  rfl
              | cons z below =>
                  cases heq
                  exact absurd hx (hlow x (List.mem_cons_self ..))
            · intro hlow
              exact absurd hx (hlow x (List.mem_cons_self ..))
            · intro hsmall
              exact hsmall x (List.mem_cons_self ..)
          · rw [if_neg hx]
            -- otherwise the walk goes on from the hub itself
            obtain ⟨tt, htt, hnear⟩ := ih x hrest
              (Nat.le_of_succ_le_succ hfuel)
            refine ⟨tt, htt, ?_, ?_, ?_⟩
            · intro below y above heq hlow hhigh
              cases below with
              | nil =>
                  cases heq
                  exact absurd hhigh hx
              | cons z below =>
                  cases heq
                  rw [portAbove_cons]
                  exact hnear.nearest below y above rfl
                    (fun p hp => hlow p (List.mem_cons_of_mem _ hp)) hhigh
            · intro hlow
              exact hnear.direct fun p hp =>
                hlow p (List.mem_cons_of_mem _ hp)
            · intro hsmall
              exact hnear.small fun p hp =>
                hsmall p (List.mem_cons_of_mem _ hp)

/-- The port depends on the records of the hubs in between only. -/
theorem portAbove_congr {s' : EnumHost} {port : Nat} {below : List DevId}
    (hdevs : ∀ p ∈ below, s'.bus.devs p = s.bus.devs p) :
    s'.portAbove port below = s.portAbove port below := by
  unfold portAbove
  cases hlast : below.getLast? with
  | none => rfl
  | some p =>
      dsimp only
      rw [hdevs p (List.mem_of_getLast? hlast)]

/-- The hubs are those of another host. -/
theorem Translates.congr {s' : EnumHost} {path : List DevId} {port : Nat}
    {tt : UInt8 × UInt8} (ht : s'.Translates path port tt)
    (hdevs : ∀ p ∈ path, s'.bus.devs p = s.bus.devs p)
    (hextra : ∀ p ∈ path, s'.extra p = s.extra p) :
    s.Translates path port tt := by
  refine ⟨?_, ?_, ?_⟩
  · intro below hub above heq hlow hhigh
    have hbelow : ∀ p ∈ below, p ∈ path := fun p hp => by
      rw [heq]
      exact List.mem_append_left _ hp
    have hhub : hub ∈ path := by
      rw [heq]
      exact List.mem_append_right _ (List.mem_cons_self ..)
    rw [← hdevs hub hhub,
      ← portAbove_congr fun p hp => hdevs p (hbelow p hp)]
    refine ht.nearest below hub above heq ?_ ?_
    · intro p hp
      rw [hextra p (hbelow p hp)]
      exact hlow p hp
    · rw [hextra hub hhub]
      exact hhigh
  · intro hlow
    refine ht.direct fun p hp => ?_
    rw [hextra p hp]
    exact hlow p hp
  · intro hsmall
    refine ht.small fun p hp => ?_
    rw [hdevs p hp]
    exact hsmall p hp

/-- A device that is allocated leaves those there are alone. -/
theorem extra_allocDev_ne {hub : Option DevId} {port : Nat} {speed : Speed}
    {d : DevId} (hd : d ≠ s.bus.fresh) :
    (s.allocDev hub port speed).extra d = s.extra d :=
  Function.update_of_ne hd ..

/-- A path of hubs is no longer than there are devices. -/
theorem length_path_le {path : List DevId} {hub : Option DevId}
    (hpath : Leads s.hubOf hub path none)
    (hold : ∀ p ∈ path, p < s.bus.fresh) : path.length ≤ s.bus.fresh := by
  have hsub : path ⊆ List.range s.bus.fresh :=
    fun p hp => List.mem_range.2 (hold p hp)
  have hle := (hpath.nodup.subperm hsub).length_le
  rwa [List.length_range] at hle

/-- A device is made, with its speed and its translator. -/
theorem newborn_ok {hub : DevId} {path : List DevId} {port : Nat}
    {speed : Speed} (hpath : Leads s.hubOf (some hub) path none)
    (hold : ∀ p ∈ path, p < s.bus.fresh) (hport : port < 256) :
    ∃ s', s.newborn hub port speed = .ok s'
      ∧ (s'.bus.devs s.bus.fresh).hub = some hub
      ∧ (s'.extra s.bus.fresh).speed = speed
      ∧ (speed ≠ .high → s.Translates path port
        ((s'.extra s.bus.fresh).ttAddr, (s'.extra s.bus.fresh).ttPort))
      ∧ (speed = .high → (s'.extra s.bus.fresh).ttAddr = 0) := by
  have hne : ∀ p ∈ path, p ≠ s.bus.fresh :=
    fun p hp => Nat.ne_of_lt (hold p hp)
  have hself := s.devs_allocDev_self (some hub) port speed
  have hspeed := congrArg Extra.speed
    (s.extra_allocDev_self (some hub) port speed)
  have hchoose : ∃ tt, (s.allocDev (some hub) port speed).chooseTt (some hub)
      s.bus.fresh = .ok tt
      ∧ (speed ≠ .high → s.Translates path port tt)
      ∧ (speed = .high → tt.1 = 0) := by
    rw [chooseTt, hspeed]
    by_cases hhigh : speed = .high
    · rw [if_neg (fun hn => hn hhigh)]
      exact ⟨(0, 0), rfl, fun hn => absurd hhigh hn, fun _ => rfl⟩
    · rw [if_pos hhigh]
      -- the new device is not one of the hubs above it, so the chain is as
      -- before
      have hpath' : Leads (s.allocDev (some hub) port speed).hubOf (some hub)
          path none := by
        refine hpath.congr fun p hp => ?_
        rw [hubOf, hubOf, devs_allocDev_ne (hne p hp)]
      obtain ⟨tt, htt, hnear⟩ := findTt_ok s.bus.fresh hpath'
        (Nat.le_succ_of_le (length_path_le hpath hold))
      refine ⟨tt, htt, fun _ => ?_, fun h => absurd h hhigh⟩
      rw [hself] at hnear
      dsimp only at hnear
      rw [UInt8.toNat_ofNat_of_lt' hport] at hnear
      exact hnear.congr (fun p hp => devs_allocDev_ne (hne p hp))
        (fun p hp => extra_allocDev_ne (hne p hp))
  obtain ⟨tt, htt, hnear, hzero⟩ := hchoose
  refine ⟨(s.allocDev (some hub) port speed).setTt s.bus.fresh tt, ?_, ?_,
    ?_, ?_, ?_⟩
  · rw [newborn, htt]
    rfl
  · exact congrArg UsbDev.hub hself
  · rw [setTt, extra_setExtra]
    exact hspeed
  · rw [setTt, extra_setExtra]
    exact hnear
  · rw [setTt, extra_setExtra]
    exact hzero

end EnumHost

-- ======================================================== the queue head

/-- A first word of `qhn_alloc`, with or without the H-bit. -/
def IsAlloc (speed : Speed) (ep : Ep) (epc0 : UInt32) : Prop :=
  ∃ (a : UInt8) (m : UInt16) (h : UInt32), a.toNat < 2 ^ 7
    ∧ m.toNat < 2 ^ 11 ∧ (h = 0 ∨ h = mask qhepc0H)
    ∧ epc0 = allocEpc0 a speed { ep with maxPkt := m } ||| h

/-- What holds of an endpoint between calls: its queue head, if there is
one, has the words of some address and packet size. -/
structure QhWords (x : Extra) (s : EpHost) : Prop where
  num : s.ep.num.toNat < 2 ^ 4
  words : ∀ q ∈ s.ep.hcpriv, q < s.sched.fresh
    ∧ IsAlloc x.speed s.ep (s.sched.ring.qhns q).epc0
    ∧ s.sched.epc1 q = allocEpc1 x.ttAddr x.ttPort x.speed s.ep

/-- The H-bit, set once more or not. -/
theorem or_h {w w' h : UInt32} (hh : h = 0 ∨ h = mask qhepc0H)
    (hw : w' = w ||| h ∨ w' = w ||| h ||| mask qhepc0H) :
    ∃ h', (h' = 0 ∨ h' = mask qhepc0H) ∧ w' = w ||| h' := by
  rcases hw with rfl | rfl
  · exact ⟨h, hh, rfl⟩
  · refine ⟨mask qhepc0H, .inr rfl, ?_⟩
    rcases hh with rfl | rfl
    · rw [UInt32.or_zero]
    · rw [UInt32.or_assoc, UInt32.or_self]

/-- The head-of-list bit is not among those that `qhn_alloc` computes. -/
theorem IsAlloc.hBit {speed : Speed} {ep : Ep} {w w' : UInt32}
    (hw : IsAlloc speed ep w) (h' : w' = w ∨ w' = w ||| mask qhepc0H) :
    IsAlloc speed ep w' := by
  obtain ⟨a, m, h, ha, hm, hh, rfl⟩ := hw
  obtain ⟨h₁, hh₁, heq⟩ := or_h hh h'
  exact ⟨a, m, h₁, ha, hm, hh₁, heq⟩

namespace QhWords

variable {hub : Option DevId} {x : Extra} {s s' : EpHost}

/-- What others do to the schedule. -/
theorem other (hI : QhWords x s) {sched : Sched}
    (hfresh : s.sched.fresh ≤ sched.fresh)
    (hepc0 : ∀ q ∈ s.ep.hcpriv,
      (sched.ring.qhns q).epc0 = (s.sched.ring.qhns q).epc0
        ∨ (sched.ring.qhns q).epc0
          = (s.sched.ring.qhns q).epc0 ||| mask qhepc0H)
    (hepc1 : ∀ q ∈ s.ep.hcpriv, sched.epc1 q = s.sched.epc1 q) :
    QhWords x { s with sched := sched } := by
  refine ⟨hI.num, fun q hq => ?_⟩
  obtain ⟨hlt, halloc, hone⟩ := hI.words q hq
  exact ⟨Nat.lt_of_lt_of_le hlt hfresh, halloc.hBit (hepc0 q hq),
    (hepc1 q hq).trans hone⟩

/-- A transfer to another endpoint leaves the two words of this queue head
alone. -/
theorem otherCall (hI : QhWords x s) {ep : Ep} {addr hubPort : UInt8}
    {hubAddr : Int8} {speed : Speed} {slot : Slot}
    (hep : ∀ q ∈ ep.hcpriv, q < s.sched.fresh ∧ s.ep.hcpriv ≠ some q) :
    QhWords x { s with sched := (ehciScheduleXact s.sched slot addr hubAddr
      hubPort speed ep).2 } := by
  by_cases hroot : hubAddr = -1
  · rw [ehciScheduleXact_root hroot]
    exact hI
  · cases hq' : ep.hcpriv with
    -- the endpoint gets a queue head of its own, a fresh one
    | none =>
        rw [ehciScheduleXact_new hroot hq']
        have hsend := hBitOnly_sendOff (createQh s.sched slot addr
          hubAddr.toUInt8 hubPort speed ep) slot ep s.sched.fresh
        obtain ⟨hone, hfresh⟩ := epc1_sendOff (createQh s.sched slot addr
          hubAddr.toUInt8 hubPort speed ep) slot ep s.sched.fresh
        refine hI.other ?_ ?_ ?_
        · rw [hfresh]
          exact Nat.le_succ _
        · intro q hq
          have hne : q ≠ s.sched.fresh := Nat.ne_of_lt (hI.words q hq).1
          have hcreate := epc0_createQh s.sched slot addr hubAddr.toUInt8
            hubPort speed ep q
          rw [if_neg hne] at hcreate
          rw [← hcreate]
          exact hsend q
        · intro q hq
          have hne : q ≠ s.sched.fresh := Nat.ne_of_lt (hI.words q hq).1
          rw [hone]
          exact Function.update_of_ne hne ..
    -- the endpoint has a queue head, which is not the one at hand
    | some q' =>
        rw [ehciScheduleXact_again hroot hq']
        have hsend := hBitOnly_sendOff (qhnUpdate s.sched q' addr ep) slot ep
          q'
        obtain ⟨hone, hfresh⟩ := epc1_sendOff (qhnUpdate s.sched q' addr ep)
          slot ep q'
        refine hI.other ?_ ?_ ?_
        · rw [hfresh]
          exact Nat.le_refl _
        · intro q hq
          have hne : q ≠ q' := by
            rintro rfl
            exact (hep q hq').2 hq
          have hkeep : ((qhnUpdate s.sched q' addr ep).ring.qhns q)
              = s.sched.ring.qhns q := by
            rw [qhnUpdate]
            dsimp only
            rw [AsyncHost.setQh_ne _ _ _ hne]
          rw [← hkeep]
          exact hsend q
        · intro q _
          rw [hone]
          rfl

theorem otherCancel (hI : QhWords x s) {fuel : Nat} {q : QhId}
    {ring : AsyncHost} (h : ehciDelQhnAsync fuel s.sched.ring q = .ok ring) :
    QhWords x { s with sched := { s.sched with ring := ring } } :=
  hI.other (Nat.le_refl _) (fun m _ => hBitOnly_del h m) fun _ _ => rfl

/-- The endpoint after a call: its queue head has words for it, and those
of a control endpoint are for the address and the packet size of the
call. -/
structure Called (x : Extra) (addr : UInt8) (ep : Ep) (sched : Sched)
    (q : QhId) : Prop where
  old : q < sched.fresh
  alloc : IsAlloc x.speed ep (sched.ring.qhns q).epc0
  epc1 : sched.epc1 q = allocEpc1 x.ttAddr x.ttPort x.speed ep
  control : ep.type = .control → ∃ h, (h = 0 ∨ h = mask qhepc0H)
    ∧ (sched.ring.qhns q).epc0 = allocEpc0 addr x.speed ep ||| h

/-- The first call makes the queue head. -/
theorem called_new {sched : Sched} {slot : Slot} {addr : UInt8} {ep : Ep}
    (haddr : addr.toNat < 2 ^ 7) (hm : ep.maxPkt.toNat < 2 ^ 11) :
    Called x addr ep (sendOff (createQh sched slot addr x.ttAddr x.ttPort
      x.speed ep) slot ep sched.fresh) sched.fresh := by
  obtain ⟨hone, hfresh⟩ := epc1_sendOff (createQh sched slot addr x.ttAddr
    x.ttPort x.speed ep) slot ep sched.fresh
  have hcreate := epc0_createQh sched slot addr x.ttAddr x.ttPort x.speed ep
    sched.fresh
  have hsend := hBitOnly_sendOff (createQh sched slot addr x.ttAddr x.ttPort
    x.speed ep) slot ep sched.fresh sched.fresh
  rw [if_pos rfl] at hcreate
  rw [hcreate, ← UInt32.or_zero (a := allocEpc0 addr x.speed ep)] at hsend
  obtain ⟨h, hh, heq⟩ := or_h (.inl rfl) hsend
  refine ⟨?_, ⟨addr, ep.maxPkt, h, haddr, hm, hh, heq⟩, ?_,
    fun _ => ⟨h, hh, heq⟩⟩
  · rw [hfresh]
    exact Nat.lt_succ_self _
  · rw [hone]
    exact Function.update_self ..

/-- The later calls update it. -/
theorem called_again {sched : Sched} {slot : Slot} {addr : UInt8} {ep : Ep}
    {maxPkt : UInt16} {q : QhId} (haddr : addr.toNat < 2 ^ 7)
    (hm : maxPkt.toNat < 2 ^ 11) (hlt : q < sched.fresh)
    (halloc : IsAlloc x.speed ep (sched.ring.qhns q).epc0)
    (hone : sched.epc1 q = allocEpc1 x.ttAddr x.ttPort x.speed ep) :
    Called x addr { ep with maxPkt := maxPkt }
      (sendOff (qhnUpdate sched q addr { ep with maxPkt := maxPkt }) slot
        { ep with maxPkt := maxPkt } q) q := by
  obtain ⟨hone', hfresh⟩ := epc1_sendOff
    (qhnUpdate sched q addr { ep with maxPkt := maxPkt }) slot
    { ep with maxPkt := maxPkt } q
  have hsend := hBitOnly_sendOff
    (qhnUpdate sched q addr { ep with maxPkt := maxPkt }) slot
    { ep with maxPkt := maxPkt } q q
  have hupdate : ((qhnUpdate sched q addr
      { ep with maxPkt := maxPkt }).ring.qhns q).epc0
        = updateEpc0 (sched.ring.qhns q).epc0 addr
          { ep with maxPkt := maxPkt } := by
    rw [qhnUpdate]
    dsimp only
    rw [AsyncHost.setQh_self]
  obtain ⟨a, m, h, ha, hm', hh, hword⟩ := halloc
  rw [hupdate, hword] at hsend
  refine ⟨?_, ?_, ?_, ?_⟩
  · rw [hfresh]
    exact hlt
  · by_cases hcontrol : ep.type = .control
    · rw [updateEpc0_alloc hcontrol hh hm' ha] at hsend
      obtain ⟨h', hh', heq⟩ := or_h hh hsend
      exact ⟨addr, maxPkt, h', haddr, hm, hh', heq⟩
    · rw [updateEpc0, if_pos hcontrol] at hsend
      obtain ⟨h', hh', heq⟩ := or_h hh hsend
      exact ⟨a, m, h', ha, hm', hh', heq⟩
  · rw [hone']
    exact hone
  · intro hcontrol
    rw [updateEpc0_alloc hcontrol hh hm' ha] at hsend
    exact or_h hh hsend

/-- A call on the endpoint. -/
theorem call (hI : QhWords x s) (hhub : hub.isSome = true)
    (htt : x.ttAddr.toNat < 32) {addr : UInt8} {maxPkt : UInt16}
    {slot : Slot} (hstep : epStep hub x s (.call addr maxPkt slot) = some s') :
    ∃ q, s'.ep = { s.ep with maxPkt := maxPkt, hcpriv := some q }
      ∧ addr.toNat < 2 ^ 7 ∧ maxPkt.toNat < 2 ^ 11
      ∧ Called x addr s'.ep s'.sched q := by
  obtain ⟨hroot, hbyte⟩ := EnumHost.hubAddrArg_ne hhub htt
  rw [epStep] at hstep
  split at hstep
  · next hguard =>
      have haddr : addr.toNat < 2 ^ 7 :=
        Nat.lt_trans hguard.1 (by decide)
      have hm : maxPkt.toNat < 2 ^ 11 := hguard.2
      cases hq : s.ep.hcpriv with
      | none =>
          have hq' : ({ s.ep with maxPkt := maxPkt } : Ep).hcpriv = none := hq
          dsimp only at hstep
          rw [ehciScheduleXact_new hroot hq', hbyte] at hstep
          cases hstep
          refine ⟨_, rfl, haddr, hm, ?_⟩
          have hc : Called x addr { s.ep with maxPkt := maxPkt }
              (sendOff (createQh s.sched slot addr x.ttAddr x.ttPort x.speed
                { s.ep with maxPkt := maxPkt }) slot
                { s.ep with maxPkt := maxPkt } s.sched.fresh)
              s.sched.fresh := called_new haddr hm
          exact ⟨hc.old, hc.alloc, hc.epc1, hc.control⟩
      | some q =>
          have hq' : ({ s.ep with maxPkt := maxPkt } : Ep).hcpriv = some q :=
            hq
          dsimp only at hstep
          rw [ehciScheduleXact_again hroot hq'] at hstep
          cases hstep
          obtain ⟨hlt, halloc, hone⟩ := hI.words q hq
          refine ⟨q, ?_, haddr, hm, called_again haddr hm hlt halloc hone⟩
          rw [← hq]
  · cases hstep

/-- One step. -/
theorem step (hI : QhWords x s) (hhub : hub.isSome = true)
    (htt : x.ttAddr.toNat < 32) {op : EpOp}
    (hstep : epStep hub x s op = some s') : QhWords x s' := by
  cases op with
  | call addr maxPkt slot =>
      obtain ⟨q, hep, haddr, hm, hc⟩ := hI.call hhub htt hstep
      refine ⟨?_, ?_⟩
      · rw [hep]
        exact hI.num
      · intro q' hq'
        rw [hep] at hq'
        cases hq'
        exact ⟨hc.old, hc.alloc, hc.epc1⟩
  | otherCall ep addr hubAddr hubPort speed slot =>
      rw [epStep] at hstep
      split at hstep
      · next hep =>
          cases hstep
          exact hI.otherCall hep
      · cases hstep
  | otherCancel fuel q =>
      rw [epStep] at hstep
      split at hstep
      · split at hstep
        · next ring h =>
            cases hstep
            exact hI.otherCancel h
        · cases hstep
      · cases hstep

/-- The words of the queue head are right in every reachable state. -/
theorem reachable (hhub : hub.isSome = true) (htt : x.ttAddr.toNat < 32)
    (hs : Reachable EpInit (epStep hub x) anyStep s) : QhWords x s := by
  refine hs.invariant ?_ ?_
  · intro s hinit
    refine ⟨hinit.2, fun q hq => ?_⟩
    rw [hinit.1] at hq
    cases hq
  · intro s op s' hI _ hstep
    exact hI.step hhub htt hstep

end QhWords

-- ================================================================= words

/-- Ports are at most 127, as the field for them in the queue head asks
for. -/
theorem portAbove_le {h : EnumHost} {path below above : List DevId}
    {hub x : DevId} (hpath : HubPath h x path) {port : Nat}
    (hport : port ≤ 127) (heq : path = below ++ hub :: above) :
    h.portAbove port below ≤ 127 := by
  unfold EnumHost.portAbove
  cases hlast : below.getLast? with
  | none => exact hport
  | some p =>
      have hp : p ∈ path := by
        rw [heq]
        exact List.mem_append_left _ (List.mem_of_getLast? hlast)
      exact (hpath.port p hp).2

/-- The translator's fields of the second word. -/
theorem take_translator {h : EnumHost} {path : List DevId} {hub : DevId}
    (hpath : HubPath h hub path) {port : Nat} (hport : port ≤ 127)
    {x : Extra} (hspeed : x.speed ≠ .high)
    (ht : h.Translates path port (x.ttAddr, x.ttPort)) (ep : Ep)
    {below above : List DevId} {p : DevId} (heq : path = below ++ p :: above)
    (hlow : ∀ p ∈ below, (h.extra p).speed ≠ .high)
    (hhigh : (h.extra p).speed = .high) :
    take 7 16 (allocEpc1 x.ttAddr x.ttPort x.speed ep)
        = (h.bus.devs p).addr.toUInt32
      ∧ (take 7 23 (allocEpc1 x.ttAddr x.ttPort x.speed ep)).toNat
        = h.portAbove port below := by
  have hle := portAbove_le hpath hport heq
  have hp : p ∈ path := by
    rw [heq]
    exact List.mem_append_right _ (List.mem_cons_self ..)
  have htt := ht.nearest below p above heq hlow hhigh
  have haddr : x.ttAddr = (h.bus.devs p).addr := congrArg Prod.fst htt
  have hnat : x.ttPort.toNat = h.portAbove port below := by
    rw [show x.ttPort = UInt8.ofNat (h.portAbove port below) from
      congrArg Prod.snd htt]
    exact UInt8.toNat_ofNat_of_lt' (Nat.lt_of_le_of_lt hle (by decide))
  have hsmall : x.ttAddr.toNat < 2 ^ 7 := by
    rw [haddr]
    exact Nat.lt_of_le_of_lt (hpath.addr p hp).2 (by decide)
  have hfits : x.ttPort.toNat < 2 ^ 7 := by
    rw [hnat]
    exact Nat.lt_succ_of_le hle
  obtain ⟨hhub, hprt⟩ := take_hub hspeed hsmall hfits
  rw [hhub, hprt, UInt8.toNat_toUInt32, hnat, haddr]
  exact ⟨rfl, rfl⟩

/-- The words after a call are right. -/
theorem QhWords.Called.right {h : EnumHost} {path : List DevId}
    {hub : DevId} (hpath : HubPath h hub path) {port : Nat}
    (hport : port ≤ 127) {x : Extra}
    (ht : x.speed ≠ .high → h.Translates path port (x.ttAddr, x.ttPort))
    {addr : UInt8} {ep : Ep} {sched : Sched} {q : QhId}
    (hc : QhWords.Called x addr ep sched q) (hnum : ep.num.toNat < 2 ^ 4)
    (haddr : addr.toNat < 2 ^ 7) (hm : ep.maxPkt.toNat < 2 ^ 11) :
    RightDevice h path port x.speed ep addr (sched.ring.qhns q).epc0
      (sched.epc1 q) := by
  obtain ⟨a, m, hbit, -, -, hh, hword⟩ := hc.alloc
  refine ⟨?_, ?_, ?_, ?_, ?_, ?_⟩
  · rw [hword]
    exact take_num hh hnum
  · rw [hword]
    exact take_speed hh
  · intro hcontrol
    obtain ⟨hbit', hh', hword'⟩ := hc.control hcontrol
    rw [hword']
    exact ⟨alloc_and_not_h hh', getAddr_alloc hh' haddr,
      getMaxpkt_alloc hh' hm⟩
  · intro hhigh
    rw [hc.epc1]
    exact take_hub_high hhigh
  · intro hspeed below p above heq hlow hhigh
    rw [hc.epc1]
    exact take_translator hpath hport hspeed (ht hspeed) ep heq hlow hhigh
  · intro hspeed hlow
    have htt := (ht hspeed).direct hlow
    have hzero : x.ttAddr = 0 ∧ x.ttPort = 0 :=
      ⟨congrArg Prod.fst htt, congrArg Prod.snd htt⟩
    rw [hc.epc1, hzero.1, hzero.2]
    exact take_hub hspeed (by decide) (by decide)

/-- Whatever the hubs above a device and however its endpoint and others
are used, each call leaves a queue head that leads to the device. -/
theorem queue_head_right {h : EnumHost} {hub : DevId} {path : List DevId}
    (hpath : HubPath h hub path) {port : Nat}
    (hport : 1 ≤ port ∧ port ≤ 127)
    (speed : Speed) :
    ∃ h', h.newborn hub port speed = .ok h'
      ∧ ∀ s, Reachable EpInit (epStep (h'.bus.devs h.bus.fresh).hub
          (h'.extra h.bus.fresh)) anyStep s →
        ∀ addr maxPkt slot s', epStep (h'.bus.devs h.bus.fresh).hub
            (h'.extra h.bus.fresh) s (.call addr maxPkt slot) = some s' →
          ∃ q, s'.ep = { s.ep with maxPkt := maxPkt, hcpriv := some q }
            ∧ RightDevice h path port speed s'.ep addr
              (s'.sched.ring.qhns q).epc0 (s'.sched.epc1 q) := by
  obtain ⟨h', hnew, hhub, hspeed, htt, hzero⟩ := EnumHost.newborn_ok
    hpath.leads hpath.old (Nat.lt_of_le_of_lt hport.2 (by decide))
  have hhub : (h'.bus.devs h.bus.fresh).hub.isSome = true := by
    rw [hhub]
    rfl
  have hsmall : (h'.extra h.bus.fresh).ttAddr.toNat < 32 := by
    by_cases hhigh : speed = .high
    · rw [hzero hhigh]
      decide
    · exact (htt hhigh).small fun p hp =>
        Nat.lt_of_le_of_lt (hpath.addr p hp).2 (by decide)
  refine ⟨h', hnew, ?_⟩
  intro s hs addr maxPkt slot s' hcall
  have hI := QhWords.reachable hhub hsmall hs
  obtain ⟨q, hep, haddr, hm, hc⟩ := hI.call hhub hsmall hcall
  refine ⟨q, hep, ?_⟩
  rw [← hspeed] at htt ⊢
  refine hc.right hpath hport.2 htt ?_ haddr ?_
  · rw [hep]
    exact hI.num
  · rw [hep]
    exact hm

/-- A high speed hub at port 3 of the root hub. -/
def oneHub : EnumHost where
  bus := ⟨7, 3, [1, 0], fun d => if d = 0 then ⟨none, 1, 9, 1, none⟩
    else ⟨some 0, 3, 9, 2, none⟩, 2⟩
  extra := fun d => if d = 0 then ⟨.low, 0, 0, ⟨.control, 0, 64, none⟩⟩
    else ⟨.high, 0, 0, ⟨.control, 0, 64, none⟩⟩
  sched := emptyEnum.sched

/-- One high speed hub, with the root hub above. -/
theorem hubPath_oneHub : HubPath oneHub 1 [1, 0] := by
  refine ⟨by decide, ?_, ?_, ?_⟩ <;> decide

theorem queue_head_right_sample :
    ∃ h' s s' q, oneHub.newborn 1 4 .full = .ok h' ∧ EpInit s
      ∧ epStep (h'.bus.devs 2).hub (h'.extra 2) s
        (.call 5 64 ⟨0x100, true⟩)
        = some s'
      ∧ s'.ep.hcpriv = some q
      ∧ take 7 16 (s'.sched.epc1 q) = 2
      ∧ (take 7 23 (s'.sched.epc1 q)).toNat = 4 := by
  obtain ⟨h', hnew, hright⟩ := queue_head_right hubPath_oneHub
    (show 1 ≤ 4 ∧ 4 ≤ 127 by decide) .full
  have hinit : EpInit ⟨emptyEnum.sched, ⟨.control, 0, 8, none⟩⟩ :=
    ⟨rfl, by decide⟩
  have hcall : ∃ s', epStep (h'.bus.devs 2).hub (h'.extra 2)
      ⟨emptyEnum.sched, ⟨.control, 0, 8, none⟩⟩
        (.call 5 64 ⟨0x100, true⟩)
        = some s' := by
    rw [epStep, if_pos (by decide)]
    exact ⟨_, rfl⟩
  obtain ⟨s', hs'⟩ := hcall
  obtain ⟨q, hep, hwords⟩ :=
    hright _ (.init hinit) 5 64 ⟨0x100, true⟩ s' hs'
  obtain ⟨haddr, hport⟩ := hwords.translated (by decide) [] 1 [0] rfl
    (by decide) rfl
  refine ⟨h', _, s', q, hnew, hinit, hs', ?_, haddr, hport⟩
  rw [hep]

end ProjectsLibs.Usb
