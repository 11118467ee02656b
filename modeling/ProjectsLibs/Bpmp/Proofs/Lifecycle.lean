/-
A run of the BPMP driver is as expected exactly if all of its calls meet
a condition (`lifecycle_iff`).

The driver is new, in use or left behind (`Phase`). The calls that do
not meet the condition are those that break it:

- a first call that fails when something is mapped already leaves the
  mapping, and the `bpmp_destroy` at `fail` decrements a count of 0;
- a call behind the last `bpmp_destroy` finds `bpmp_initialised` still
  set and hands out channels that are unmapped;
- the count wraps.

# How the run is cut

A call with good arguments in a good phase leads to a good phase
(`call_good`), and a call that does not meet the condition is not as
expected (`call_breaks`); with these two the equivalence over runs is one
induction. What a first call does is followed through its steps: the
HSP, then the registers of the two channels, found by walking over all
registers, then the handshake. At each of them the call can fail, and
the lemmas say what is mapped at that point.

The walk is over a list with callbacks, and what it leaves is known as
soon as both registers have been seen; `walkRegisters_rest` says that the
rest of it changes nothing.
-/
import ProjectsLibs.Bpmp.Lifecycle

namespace ProjectsLibs.Bpmp

open Ivc Lib

variable {s s' : Driver} {a : InitArgs} {e : HspSteps} {b : UInt64}

-- ============================================================= the HSP

/-- The driver behind a successful `tx2_hsp_init`. -/
def hspUp (b : UInt64) : Driver :=
  { Driver.start with hspBase := b, mapped := {b} }

/-- Nothing is mapped, and the call fails. -/
theorem tx2HspInit_nothing (h : e.MapsNothing) :
    ∃ err, tx2HspInit e s = (.error err, s) := by
  unfold tx2HspInit
  rcases h with h | h | h
  · rw [if_pos (by simp [h])]
    exact ⟨_, rfl⟩
  · split
    · exact ⟨_, rfl⟩
    · rw [if_pos (by simp [h])]
      exact ⟨_, rfl⟩
  · have hmap : s.map 0 = s := if_pos rfl
    dsimp only
    rw [h, hmap]
    split
    · exact ⟨_, rfl⟩
    split
    · exact ⟨_, rfl⟩
    split
    · exact ⟨_, rfl⟩
    rw [if_pos rfl]
    exact ⟨_, rfl⟩

/-- Something is mapped: either the call succeeds, or it leaves it. -/
theorem tx2HspInit_maps (h : ¬e.MapsNothing) :
    tx2HspInit e .start =
      if e.walk ∧ e.cleanup then (.ok (), hspUp (e.reg.getD 0))
      else (.error .enodev,
        { Driver.start with mapped := {e.reg.getD 0} }) := by
  unfold HspSteps.MapsNothing at h
  push Not at h
  obtain ⟨hcalloc, hpath, hreg⟩ := h
  rw [Bool.ne_false_iff] at hcalloc hpath
  have hmap : Driver.start.map (e.reg.getD 0)
      = { Driver.start with mapped := {e.reg.getD 0} } := by
    unfold Driver.map
    rw [if_neg hreg]
    rfl
  have hsome : e.reg ≠ some 0 := by
    intro h0
    rw [h0] at hreg
    exact hreg rfl
  unfold tx2HspInit
  dsimp only
  rw [if_neg (by simp [hcalloc]), if_neg (by simp [hpath]), hmap]
  cases hwalk : e.walk with
  | false => simp
  | true =>
      rw [if_neg (by simp [hsome]), if_neg hreg]
      cases hcleanup : e.cleanup with
      | false => simp
      | true => simp [hspUp]

-- ========================================================= the channels

/-- The walk does nothing from the third register on. -/
theorem walkRegisters_rest (regs : List UInt64) {n : Nat} (hn : 3 ≤ n) :
    walkRegisters regs n s = (true, s) := by
  induction regs generalizing n with
  | nil => rfl
  | cons base regs ih =>
      have hcb : allocateRegisterCallback base n s = (true, s) := by
        unfold allocateRegisterCallback
        rw [if_neg (by omega), if_neg (by omega)]
      rw [walkRegisters, hcb]
      exact ih (by omega)

/-- The driver with both channels mapped. -/
def channelsUp (b tx rx : UInt64) : Driver :=
  { hspUp b with
    hspInitialised := true, txBase := tx, rxBase := rx,
    mapped := insert rx (insert tx {b}) }

/-- A walk over the registers of both channels. -/
theorem walkRegisters_channels {reg tx rx : UInt64} (regs : List UInt64)
    (htx : tx ≠ 0) (hrx : rx ≠ 0) :
    walkRegisters (reg :: tx :: rx :: regs) 0
      { hspUp b with hspInitialised := true }
      = (true, channelsUp b tx rx) := by
  simp [walkRegisters, allocateRegisterCallback, Driver.map, htx, hrx,
    walkRegisters_rest, channelsUp, hspUp]

/-- A walk that leaves both channels mapped has found their registers. -/
theorem walkRegisters_mapped {regs : List UInt64} (hb : b ≠ 0)
    (h : walkRegisters regs 0 { hspUp b with hspInitialised := true }
      = (true, s))
    (htx : s.txBase ∈ s.mapped) (hrx : s.rxBase ∈ s.mapped) :
    ∃ reg tx rx rest, regs = reg :: tx :: rx :: rest ∧ tx ≠ 0 ∧ rx ≠ 0
      ∧ s = channelsUp b tx rx := by
  match regs with
  | [] | [_] =>
      -- the pointers are null still
      cases h
      exact absurd (Finset.mem_singleton.1 htx) hb.symm
  | [reg, tx] =>
      by_cases htx0 : tx = 0
      · simp [walkRegisters, allocateRegisterCallback, htx0] at h
      · simp [walkRegisters, allocateRegisterCallback, Driver.map,
          htx0] at h
        subst h
        simp [hspUp, Driver.start, Ne.symm htx0, hb.symm] at hrx
  | reg :: tx :: rx :: rest =>
      by_cases htx0 : tx = 0
      · simp [walkRegisters, allocateRegisterCallback, htx0] at h
      by_cases hrx0 : rx = 0
      · simp [walkRegisters, allocateRegisterCallback, htx0, hrx0] at h
      rw [walkRegisters_channels rest htx0 hrx0] at h
      exact ⟨reg, tx, rx, rest, rfl, htx0, hrx0, (congrArg Prod.snd h).symm⟩

/-- A walk unmaps nothing and does not touch the count. -/
theorem walkRegisters_keeps {regs : List UInt64} {n : Nat} {r : Bool}
    (h : walkRegisters regs n s = (r, s')) :
    s.mapped ⊆ s'.mapped ∧ s'.bpmpRefcount = s.bpmpRefcount := by
  induction regs generalizing n s with
  | nil =>
      cases h
      exact ⟨Finset.Subset.refl _, rfl⟩
  | cons base regs ih =>
      have hcb : s.mapped ⊆ (allocateRegisterCallback base n s).2.mapped
          ∧ (allocateRegisterCallback base n s).2.bpmpRefcount
            = s.bpmpRefcount := by
        unfold allocateRegisterCallback Driver.map
        split_ifs <;> simp
      rw [walkRegisters] at h
      split at h
      · next hstep =>
          rw [hstep] at hcb
          have ⟨hsub, hcount⟩ := ih h
          exact ⟨hcb.1.trans hsub, hcount.trans hcb.2⟩
      · next hstep =>
          rw [hstep] at hcb
          cases h
          exact hcb

/-- The handshake leaves the endpoint where it is. -/
theorem awaitReset_bases (looks : Looks) (timeout n : Nat)
    (ivc : TegraIvc) :
    (awaitReset looks timeout n ivc).2.txBase = ivc.txBase
      ∧ (awaitReset looks timeout n ivc).2.rxBase = ivc.rxBase := by
  induction timeout generalizing n ivc with
  | zero => exact ⟨rfl, rfl⟩
  | succ timeout ih =>
      have hnotified : (tegraIvcChannelNotified ivc (looks n).1
            (looks n).2).2.1.txBase = ivc.txBase
          ∧ (tegraIvcChannelNotified ivc (looks n).1
            (looks n).2).2.1.rxBase = ivc.rxBase := by
        unfold tegraIvcChannelNotified
        split <;> exact ⟨rfl, rfl⟩
      rw [awaitReset]
      split
      · next hstep =>
          rw [hstep] at hnotified
          exact hnotified
      · next hstep =>
          rw [hstep] at hnotified
          have hrest := ih (n + 1)
          exact ⟨(hrest _).1.trans hnotified.1,
            (hrest _).2.trans hnotified.2⟩

/-- An endpoint that was made is what it was given, with both positions at
the start. -/
theorem tegraIvcInit_ok {rx tx : UInt64} {nframes size : UInt32}
    {ivc : TegraIvc} (h : tegraIvcInit rx tx nframes size = .ok ivc) :
    checkIvcParams rx tx nframes size = true
      ∧ ivc = ⟨rx, tx, 0, 0, nframes, size⟩ := by
  unfold tegraIvcInit at h
  split at h
  · next hcheck =>
      cases h
      exact ⟨hcheck, rfl⟩
  · cases h

-- ====================================================== the first call

/-- At the label `fail` a count of 0 keeps everything mapped. -/
theorem initFail_mapped {err : InitErr} {r : Except InitErr Unit}
    (h : initFail err s = (r, s')) (hcount : s.bpmpRefcount = 0) :
    s'.mapped = s.mapped := by
  unfold initFail bpmpDestroy at h
  dsimp only at h
  rw [if_pos (by rw [hcount]; decide)] at h
  cases h
  rfl

/-- A call that fails behind `tx2_hsp_init` unmaps nothing. -/
theorem initChannels_error {err : InitErr} (hcount : s.bpmpRefcount = 0)
    (h : initChannels a s = (.error err, s')) : s.mapped ⊆ s'.mapped := by
  unfold initChannels at h
  dsimp only at h
  split at h
  · cases h
    exact Finset.Subset.refl _
  split at h
  · next hwalk =>
      cases h
      exact (walkRegisters_keeps hwalk).1
  next s₁ hwalk =>
    have ⟨hsub, hcount₁⟩ := walkRegisters_keeps hwalk
    have hzero : s₁.bpmpRefcount = 0 := hcount₁.trans hcount
    split at h
    · cases h
      exact hsub
    split at h
    · cases h
      exact hsub
    split at h
    · rw [initFail_mapped h hzero]
      exact hsub
    unfold initReset at h
    split at h
    · rw [initFail_mapped h hzero]
      exact hsub
    dsimp only at h
    split at h
    · rw [initFail_mapped h hzero]
      exact hsub
    · cases h

/-- The driver in use, after the first call. -/
def firstUp (b tx rx : UInt64) (ivc : TegraIvc) : Driver :=
  { channelsUp b tx rx with
    ivc := some ivc, bpmpRefcount := 1, bpmpInitialised := true }

/-- A call that succeeds behind `tx2_hsp_init` has done all of its
steps. -/
theorem initChannels_ok (hb : b ≠ 0)
    (h : initChannels a (hspUp b) = (.ok (), s'))
    (htx : s'.txBase ∈ s'.mapped) (hrx : s'.rxBase ∈ s'.mapped) :
    a.readPath = true ∧ a.walk = true ∧ a.cleanup = true
      ∧ a.register = 0
      ∧ ∃ reg tx rx regs, a.regs = reg :: tx :: rx :: regs ∧ tx ≠ 0
        ∧ rx ≠ 0 ∧ checkIvcParams rx tx 1 128 = true
        ∧ (awaitReset a.looks timeoutThreshold 0
            ⟨rx, tx, 0, 0, 1, 128⟩).1 = true := by
  unfold initChannels at h
  dsimp only at h
  split at h
  · cases h
  next hpath =>
  split at h
  · cases h
  next s₁ hregs =>
  split at h
  · cases h
  next hwalk =>
  split at h
  · cases h
  next hcleanup =>
  split at h
  · cases h
  next ivc hivc =>
  unfold initReset at h
  split at h
  · cases h
  next ivc' hreset =>
  dsimp only at h
  split at h
  · cases h
  next hregister =>
  cases h
  obtain ⟨reg, tx, rx, regs, hlist, htx0, hrx0, rfl⟩ :=
    walkRegisters_mapped hb hregs htx hrx
  obtain ⟨hcheck, rfl⟩ := tegraIvcInit_ok hivc
  refine ⟨by simpa using hpath, by simpa using hwalk,
    by simpa using hcleanup, by simpa using hregister, reg, tx, rx, regs,
    hlist, htx0, hrx0, hcheck, ?_⟩
  exact congrArg Prod.fst hreset

/-- A first call all of whose steps succeed. -/
theorem tx2BpmpInit_succeeds (hnull : a.null = false) (h : a.Succeeds) :
    ∃ reg tx rx regs ivc, a.regs = reg :: tx :: rx :: regs ∧ tx ≠ 0
      ∧ rx ≠ 0 ∧ ivc.txBase = tx ∧ ivc.rxBase = rx
      ∧ tx2BpmpInit a .start
        = (.ok (), firstUp (a.hsp.reg.getD 0) tx rx ivc) := by
  obtain ⟨reg, tx, rx, regs, hregs, htx, hrx, hcheck, hreset⟩ := h.channels
  have hmaps : ¬a.hsp.MapsNothing := by
    rintro (hno | hno | hno)
    · exact absurd (hno.symm.trans h.calloc) (by decide)
    · exact absurd (hno.symm.trans h.hsp_path) (by decide)
    · exact h.hsp_reg hno
  have hbases := awaitReset_bases a.looks timeoutThreshold 0
    ⟨rx, tx, 0, 0, 1, 128⟩
  generalize hres : awaitReset a.looks timeoutThreshold 0
    ⟨rx, tx, 0, 0, 1, 128⟩ = res at hreset hbases
  obtain ⟨ok, ivc⟩ := res
  refine ⟨reg, tx, rx, regs, ivc, hregs, htx, hrx, hbases.1, hbases.2, ?_⟩
  have hinit : tegraIvcInit rx tx 1 128 = .ok ⟨rx, tx, 0, 0, 1, 128⟩ := by
    unfold tegraIvcInit
    rw [if_pos hcheck]
  cases hreset
  unfold tx2BpmpInit
  rw [if_neg (by simp [hnull]), if_neg (by decide),
    tx2HspInit_maps hmaps, if_pos ⟨h.hsp_walk, h.hsp_cleanup⟩]
  dsimp only
  unfold initChannels
  dsimp only
  rw [if_neg (by simp [h.path]), hregs,
    walkRegisters_channels regs htx hrx]
  dsimp only
  rw [if_neg (by simp [h.walk]), if_neg (by simp [h.cleanup])]
  unfold channelsUp
  dsimp only
  rw [hinit]
  dsimp only
  unfold initReset
  rw [hres]
  dsimp only
  rw [if_neg (by simp [h.register])]
  rfl

/-- A first call that does not meet the condition. -/
theorem first_breaks (hnull : a.null = false)
    (hmaps : ¬a.hsp.MapsNothing) (hno : ¬a.Succeeds)
    (hstep : lifeStep .start (.init a) = some s') :
    ¬CallRight .start (.init a) s' := by
  rintro ⟨hsound, hright⟩
  have hb : a.hsp.reg.getD 0 ≠ 0 := fun h0 => hmaps (.inr (.inr h0))
  have hhsp := tx2HspInit_maps hmaps
  have hnull' : ¬a.null = true := by simp [hnull]
  have hfresh : ¬Driver.start.bpmpInitialised = true := by decide
  have hinit : tx2BpmpInit a .start = _ :=
    (if_neg hnull').trans (if_neg hfresh)
  unfold lifeStep at hstep
  dsimp only at hstep hright
  by_cases hup : a.hsp.walk = true ∧ a.hsp.cleanup = true
  · rw [hhsp, if_pos hup] at hinit
    dsimp only at hinit
    rw [hinit] at hstep hright
    generalize hres : initChannels a (hspUp (a.hsp.reg.getD 0)) = res
      at hstep hright
    obtain ⟨r, s₁⟩ := res
    cases r with
    | error err =>
        -- the HSP stays mapped
        cases hstep
        have hsub := initChannels_error rfl hres
        rw [hright.2.1] at hsub
        exact absurd (hsub (Finset.mem_singleton_self _))
          (by simp [Driver.start])
    | ok u =>
        cases hstep
        have hlive := hsound.live (Nat.succ_pos _)
        obtain ⟨hpath, hwalk, hcleanup, hregister, hchannels⟩ :=
          initChannels_ok hb hres hlive.tx hlive.rx
        unfold HspSteps.MapsNothing at hmaps
        push Not at hmaps
        exact hno ⟨by simpa using hmaps.1, by simpa using hmaps.2.1, hb,
          hup.1, hup.2, hpath, hchannels, hwalk, hcleanup, hregister⟩
  · rw [hhsp, if_neg hup] at hinit
    dsimp only at hinit
    rw [hinit] at hstep hright
    cases hstep
    exact absurd hright.2.1 (by simp [Driver.start])

-- =============================================================== phases

/-- The driver in use. -/
structure InUse (s : Driver) : Prop where
  initialised : s.bpmpInitialised = true
  refcount : s.bpmpRefcount.toNat = s.handles
  handles : 0 < s.handles
  connected : Connected s
  hsp : s.hspInitialised = true
  hsp_ne : s.hspBase ≠ 0
  tx_ne : s.txBase ≠ 0
  rx_ne : s.rxBase ≠ 0
  mapped : s.mapped = {s.rxBase, s.txBase, s.hspBase}

/-- The driver behind the last `bpmp_destroy`. -/
structure LeftBehind (s : Driver) : Prop where
  initialised : s.bpmpInitialised = true
  refcount : s.bpmpRefcount = 0
  handles : s.handles = 0
  mapped : s.mapped = ∅

/-- The driver in a run that is as expected. -/
inductive Phase (s : Driver) : Prop
  | new : s = .start → Phase s
  | inUse : InUse s → Phase s
  | leftBehind : LeftBehind s → Phase s

/-- While the channel is in use every handle is good. -/
theorem InUse.sound (h : InUse s) : Sound s :=
  ⟨h.refcount, fun _ => h.connected, fun h0 => by
    have := h.handles
    omega⟩

/-- After a first initialisation that has failed there are no handles, so
nothing is wrong yet. -/
theorem LeftBehind.sound (h : LeftBehind s) : Sound s :=
  ⟨by rw [h.refcount, h.handles]; rfl, fun hpos => by
    have := h.handles
    omega, fun _ => h.mapped⟩

/-- In each phase of the life of the driver what is handed out is good. -/
theorem Phase.sound (h : Phase s) : Sound s := by
  cases h with
  | new h =>
      subst h
      exact ⟨rfl, fun hpos => absurd hpos (by decide), fun _ => rfl⟩
  | inUse h => exact h.sound
  | leftBehind h => exact h.sound

/-- A first initialisation that succeeds leaves the driver in use, with one
handle. -/
theorem firstUp_inUse {tx rx : UInt64} {ivc : TegraIvc} (hb : b ≠ 0)
    (htx : tx ≠ 0) (hrx : rx ≠ 0) (hivctx : ivc.txBase = tx)
    (hivcrx : ivc.rxBase = rx) :
    InUse { firstUp b tx rx ivc with handles := 1 } where
  initialised := rfl
  refcount := rfl
  handles := Nat.one_pos
  connected := ⟨by simp [firstUp, channelsUp], by simp [firstUp,
    channelsUp], ivc, rfl, hivctx, hivcrx⟩
  hsp := rfl
  hsp_ne := hb
  tx_ne := htx
  rx_ne := hrx
  mapped := rfl

-- ================================================================ steps

/-- A call with null arguments. -/
theorem lifeStep_null (hnull : a.null = true) (hphase : Phase s)
    (hstep : lifeStep s (.init a) = some s') :
    Phase s' ∧ CallRight s (.init a) s' := by
  have hinit : tx2BpmpInit a s = (.error .einval, s) := by
    unfold tx2BpmpInit
    rw [if_pos hnull]
  unfold lifeStep at hstep
  unfold CallRight
  dsimp only at hstep ⊢
  rw [hinit] at hstep ⊢
  cases hstep
  exact ⟨hphase, hphase.sound, rfl, rfl, rfl⟩

/-- The first call. -/
theorem first_good (hnull : a.null = false)
    (h : a.hsp.MapsNothing ∨ a.Succeeds)
    (hstep : lifeStep .start (.init a) = some s') :
    Phase s' ∧ CallRight .start (.init a) s' := by
  unfold lifeStep at hstep
  unfold CallRight
  dsimp only at hstep ⊢
  rcases h with h | h
  · obtain ⟨err, hhsp⟩ := tx2HspInit_nothing (s := .start) h
    have hinit : tx2BpmpInit a .start = (.error err, .start) := by
      unfold tx2BpmpInit
      rw [if_neg (by simp [hnull]), if_neg (by decide), hhsp]
    rw [hinit] at hstep ⊢
    cases hstep
    have hnew : Phase .start := .new rfl
    exact ⟨hnew, hnew.sound, rfl, rfl, rfl⟩
  · obtain ⟨reg, tx, rx, regs, ivc, hregs, htx, hrx, hivctx, hivcrx,
      hinit⟩ := tx2BpmpInit_succeeds hnull h
    rw [hinit] at hstep ⊢
    cases hstep
    have hup := firstUp_inUse h.hsp_reg htx hrx hivctx hivcrx
    refine ⟨.inUse hup, hup.sound, fun _ => ?_⟩
    rw [hregs]
    exact ⟨rfl, rfl⟩

/-- A call that finds the driver initialised. -/
theorem lifeStep_again (hnull : a.null = false)
    (hinitialised : s.bpmpInitialised = true)
    (hstep : lifeStep s (.init a) = some s') :
    (tx2BpmpInit a s).1 = .ok () ∧ s' = { s with
      bpmpRefcount := s.bpmpRefcount + 1, bpmpInitialised := true,
      handles := s.handles + 1 } := by
  have hinit : tx2BpmpInit a s = initSuccess s := by
    unfold tx2BpmpInit
    rw [if_neg (by simp [hnull]), if_pos hinitialised]
  unfold lifeStep at hstep
  dsimp only at hstep
  rw [hinit] at hstep ⊢
  cases hstep
  exact ⟨rfl, rfl⟩

/-- A further initialisation only counts; the count stays below its wrap as
the condition says. -/
theorem InUse.again (h : InUse s) (hnull : a.null = false)
    (hcount : s.bpmpRefcount + 1 ≠ 0)
    (hstep : lifeStep s (.init a) = some s') :
    Phase s' ∧ CallRight s (.init a) s' := by
  obtain ⟨hret, rfl⟩ := lifeStep_again hnull h.initialised hstep
  have hnext : (s.bpmpRefcount + 1).toNat = s.handles + 1 := by
    have hlt := s.bpmpRefcount.toNat_lt
    have hadd := UInt32.toNat_add s.bpmpRefcount 1
    have hne : (s.bpmpRefcount + 1).toNat ≠ 0 := fun h0 =>
      hcount (UInt32.toNat_inj.1 h0)
    rw [← h.refcount]
    change _ = (s.bpmpRefcount.toNat + 1) % _ at hadd
    omega
  have hup : InUse { s with
      bpmpRefcount := s.bpmpRefcount + 1, bpmpInitialised := true,
      handles := s.handles + 1 } :=
    { h with
      initialised := rfl, refcount := hnext, handles := Nat.succ_pos _
      connected := ⟨h.connected.tx, h.connected.rx, h.connected.ivc⟩ }
  refine ⟨.inUse hup, hup.sound, ?_⟩
  dsimp only
  rw [hret]
  intro h0
  exact absurd h0 h.handles.ne'

/-- The last `bpmp_destroy` unmaps everything. -/
theorem bpmpDestroy_last (h : InUse s) (hcount : s.bpmpRefcount = 1) :
    bpmpDestroy s = { s with bpmpRefcount := 0, mapped := ∅ } := by
  unfold bpmpDestroy
  dsimp only
  rw [hcount, if_neg (by decide), if_pos h.hsp]
  unfold hspDestroy Driver.unmap
  dsimp only
  rw [if_neg h.hsp_ne]
  dsimp only
  rw [if_neg h.tx_ne]
  dsimp only
  rw [if_neg h.rx_ne, h.mapped]
  congr 1
  ext x
  simp
  tauto

/-- Destroying one of several handles counts down, and the last one cleans
up. -/
theorem InUse.destroy (h : InUse s)
    (hstep : lifeStep s .destroy = some s') :
    Phase s' ∧ CallRight s .destroy s' := by
  have hpos := h.handles
  have hcount := h.refcount
  unfold lifeStep at hstep
  dsimp only at hstep
  rw [if_neg (by omega)] at hstep
  cases hstep
  by_cases hlast : s.bpmpRefcount = 1
  · rw [bpmpDestroy_last h hlast]
    have hone : s.handles = 1 := by
      rw [← hcount, hlast]
      rfl
    have hleft : LeftBehind { s with
        bpmpRefcount := 0, mapped := ∅, handles := s.handles - 1 } :=
      ⟨h.initialised, rfl, by simp [hone], rfl⟩
    exact ⟨.leftBehind hleft, hleft.sound, trivial⟩
  · have hsub : (s.bpmpRefcount - 1).toNat = s.handles - 1 := by
      rw [UInt32.toNat_sub_of_le _ _ ?_, hcount]
      · rfl
      · rw [UInt32.le_iff_toNat_le]
        change 1 ≤ _
        omega
    have hmore : s.handles ≠ 1 := by
      intro hone
      apply hlast
      rw [← UInt32.toNat_inj, hcount, hone]
      rfl
    have hkeep : bpmpDestroy s
        = { s with bpmpRefcount := s.bpmpRefcount - 1 } := by
      unfold bpmpDestroy
      dsimp only
      rw [if_pos]
      intro h0
      rw [h0] at hsub
      change 0 = _ at hsub
      omega
    rw [hkeep]
    have hup : InUse { s with
        bpmpRefcount := s.bpmpRefcount - 1, handles := s.handles - 1 } :=
      { h with
        refcount := hsub, handles := by
          show 0 < s.handles - 1
          omega
        connected := ⟨h.connected.tx, h.connected.rx, h.connected.ivc⟩ }
    exact ⟨.inUse hup, hup.sound, trivial⟩

/-- A call that meets the condition. -/
theorem call_good {c : Call} (hphase : Phase s) (hmeets : CallMeets s c)
    (hstep : lifeStep s c = some s') : Phase s' ∧ CallRight s c s' := by
  cases c with
  | init a =>
      cases hnull : a.null with
      | true => exact lifeStep_null hnull hphase hstep
      | false =>
          unfold CallMeets at hmeets
          dsimp only at hmeets
          rw [hnull] at hmeets
          replace hmeets := hmeets.resolve_left (by decide)
          cases hphase with
          | new h =>
              subst h
              exact first_good hnull hmeets hstep
          | inUse h =>
              rw [if_pos h.initialised] at hmeets
              exact h.again hnull hmeets.2 hstep
          | leftBehind h =>
              rw [if_pos h.initialised] at hmeets
              exact absurd h.refcount hmeets.1
  | destroy =>
      cases hphase with
      | new h =>
          subst h
          cases hstep
      | inUse h => exact h.destroy hstep
      | leftBehind h =>
          unfold lifeStep at hstep
          dsimp only at hstep
          rw [if_pos h.handles] at hstep
          cases hstep

/-- A call that does not meet the condition. -/
theorem call_breaks {c : Call} (hphase : Phase s)
    (hmeets : ¬CallMeets s c) (hstep : lifeStep s c = some s') :
    ¬CallRight s c s' := by
  cases c with
  | destroy => exact absurd trivial hmeets
  | init a =>
      unfold CallMeets at hmeets
      dsimp only at hmeets
      rw [not_or, Bool.not_eq_true] at hmeets
      obtain ⟨hnull, hmeets⟩ := hmeets
      cases hphase with
      | new h =>
          subst h
          rw [if_neg (by decide), not_or] at hmeets
          exact first_breaks hnull hmeets.1 hmeets.2 hstep
      | inUse h =>
          rintro ⟨hsound, -⟩
          obtain ⟨-, rfl⟩ := lifeStep_again hnull h.initialised hstep
          have hne : s.bpmpRefcount ≠ 0 := by
            intro h0
            have hcount := h.refcount
            rw [h0] at hcount
            exact absurd hcount h.handles.ne
          rw [if_pos h.initialised, not_and_not_right] at hmeets
          have hcount := hsound.refcount
          rw [hmeets hne] at hcount
          cases hcount
      | leftBehind h =>
          -- the channels of the handle are unmapped
          rintro ⟨hsound, -⟩
          obtain ⟨-, rfl⟩ := lifeStep_again hnull h.initialised hstep
          have htx := (hsound.live (Nat.succ_pos _)).tx
          dsimp only at htx
          rw [h.mapped] at htx
          exact Finset.notMem_empty _ htx

-- ================================================================= runs

/-- A run of initialisations and destructions of the driver is as expected
in every state exactly if all of its calls meet the condition when they are
made. -/
theorem lifecycle_iff (calls : List Call) (s : Driver)
    (hrun : Lib.run lifeStep .start calls = some s) :
    AllMoves lifeStep CallRight .start calls
      ↔ AllSteps lifeStep CallMeets .start calls :=
  allMoves_iff_of_good (fun _ _ _ => call_good)
    (fun _ _ _ => call_breaks) (.new rfl) hrun

/-- A call all of whose steps succeed, the handshake at the first
look. -/
def freshInit : InitArgs :=
  { null := false
    hsp := { calloc := true, readPath := true, reg := some 0x10000,
             walk := true, cleanup := true }
    readPath := true
    regs := [0x20000, 0x30000, 0x40000]
    walk := true
    cleanup := true
    looks := fun _ =>
      ({ wCount := 0, state := .sync, rCount := 0,
         frames := fun _ _ => 0 },
       { wCount := 0, state := .ack, rCount := 0,
         frames := fun _ _ => 0 })
    register := 0 }

/-- The driver behind `freshInit`. -/
def freshUp : Driver :=
  { firstUp 0x10000 0x30000 0x40000 ⟨0x40000, 0x30000, 0, 0, 1, 128⟩ with
    handles := 1 }

/-- The step of the sample: a first initialisation in which everything is
there. -/
theorem lifeStep_freshInit :
    lifeStep .start (.init freshInit) = some freshUp := by
  decide +kernel

/-- Its allocations and mappings are granted, and the channel resets at
once. -/
theorem freshInit_succeeds : freshInit.Succeeds where
  calloc := rfl
  hsp_path := rfl
  hsp_reg := by decide
  hsp_walk := rfl
  hsp_cleanup := rfl
  path := rfl
  channels := ⟨_, _, _, _, rfl, by decide, by decide, by decide +kernel,
    by decide +kernel⟩
  walk := rfl
  cleanup := rfl
  register := rfl

/-- Two users come and go. -/
theorem two_users :
    AllMoves lifeStep CallRight .start
      [.init freshInit, .init freshInit, .destroy, .destroy] := by
  refine (lifecycle_iff _ { freshUp with
    bpmpRefcount := 0, mapped := ∅, handles := 0 } (by decide +kernel)).2 ?_
  refine ⟨.inr (.inr freshInit_succeeds), fun s hs => ?_⟩
  rw [lifeStep_freshInit] at hs
  cases hs
  refine ⟨.inr ?_, fun s hs => ⟨trivial, fun t ht => ⟨trivial,
    fun _ _ => trivial⟩⟩⟩
  have hup : freshUp.bpmpInitialised = true := rfl
  rw [if_pos hup]
  decide

/-- The channels of a user behind the last `bpmp_destroy` are
unmapped. -/
theorem later_user_unmapped :
    Lib.run lifeStep .start [.init freshInit, .destroy, .init freshInit]
        = some { freshUp with mapped := ∅ }
      ∧ ¬AllMoves lifeStep CallRight .start
        [.init freshInit, .destroy, .init freshInit] := by
  have hdestroy : lifeStep freshUp .destroy
      = some { freshUp with
        bpmpRefcount := 0, mapped := ∅, handles := 0 } := by
    decide +kernel
  refine ⟨by decide +kernel, fun h => ?_⟩
  have hlast := (((h _ lifeStep_freshInit).2 _ hdestroy).2
    { freshUp with mapped := ∅ } (by decide +kernel)).1.1
  exact Finset.notMem_empty _ (hlast.live Nat.one_pos).tx

end ProjectsLibs.Bpmp
