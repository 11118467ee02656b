/-
The reports of the root ports.

The buffer has a bit for each port rounded up to bytes, but its bit 0 is
the hub itself: with eight ports the last one has no bit in it. With any
other number of ports the bitmap has exactly the ports that have changed.

# The chain of lengths

The length of the buffer has gone through a descriptor and two parsers
before it is used, and the first part follows it there: the hub emulation
puts the size of its bitmap into the packet size, the parser of
configurations calls back with the endpoint, and the hub driver takes the
number from it. So the length is a function of the number of ports,
rounded up without the bit for the hub itself.

The bitmap is made by a loop over the ports and read by one over the
bytes. Within the length both are filters of the list of ports, by the
same test, so they agree; a port without a bit in the buffer is a write
outside of it. The condition is read off the length.
-/
import Mathlib.Data.List.Sort
import ProjectsLibs.Ehci.StatusChange

namespace ProjectsLibs.Ehci

open Lib Usb

variable {σ : Type} {s : RootHub} {len n : Nat}

-- ================================================= the length of the buffer

/-- The configuration of a hub whose endpoint has a maximum packet size. -/
def configBytes (maxPkt len : Nat) : List UInt8 :=
  copyPieces (min 25 len) 0
    [hubConfigDesc, hubIfaceDesc, hubEndpointDesc maxPkt]

/-- What the hub driver reads of it. -/
def readHub (maxPkt : Nat) : HubConfig :=
  readConfig ⟨-1, 0, 0, 0, 0⟩
    (configBytes maxPkt (wordAt (configBytes maxPkt 9) 2))

/-- The configuration that the emulated hub reports; its packet size is the
size of the bitmap. -/
theorem hubemGetDescriptor_config (dev : Hubem σ) (st : HubemState σ)
    (len : Nat) :
    hubemGetDescriptor dev st ⟨reqGetDescriptor, descConfiguration * 256, 0⟩
        len
      = (some (configBytes ((dev.hubemNports + 7) / 8) len),
        { st with wMaxPacketSize := (dev.hubemNports + 7) / 8 }) := by
  unfold hubemGetDescriptor configBytes
  simp [descConfiguration, descDevice, descHub]

/-- The length gets through the descriptor as it is. -/
theorem intLen_eq (dev : Hubem σ) (st : HubemState σ)
    (h : dev.hubemNports < 32) :
    intLen dev st = (dev.hubemNports + 7) / 8 := by
  have hread : ∀ m < 5, (readHub m).intMaxPkt = m := by decide
  have hconfig : usbdevParseConfig dev st
      = readHub ((dev.hubemNports + 7) / 8) := by
    unfold usbdevParseConfig
    simp only [hubemGetDescriptor_config]
    rfl
  unfold intLen
  rw [hconfig]
  apply hread
  omega

-- ============================================================= the bitmap

/-- The bit of a port. -/
def portBit (bm : Nat → BitVec 8) (port : Nat) : Bool :=
  (bm (port / 8)).getLsbD (port % 8)

/-- A write inside of the buffer sets the bit of the port. -/
theorem setPortBit_eq (bm : Nat → BitVec 8) {port : Nat}
    (h : port / 8 < len) :
    ∃ bm', setPortBit len bm port = some bm'
      ∧ ∀ q, portBit bm' q = (portBit bm q || decide (q = port)) := by
  refine ⟨_, if_pos h, fun q => ?_⟩
  unfold portBit
  by_cases hbyte : q / 8 = port / 8
  · rw [hbyte, Function.update_self, BitVec.getLsbD_or,
      BitVec.getLsbD_twoPow]
    congr 1
    have hlt : port % 8 < 8 := Nat.mod_lt _ (by decide)
    rw [decide_eq_true hlt, Bool.true_and, decide_eq_decide]
    omega
  · have hne : q ≠ port := fun he => hbyte (he ▸ rfl)
    rw [Function.update_of_ne hbyte, decide_eq_false hne, Bool.or_false]

/-- A bit behind the buffer cannot be set. -/
theorem setPortBit_none {bm : Nat → BitVec 8} {port : Nat}
    (h : ¬port / 8 < len) : setPortBit len bm port = none := if_neg h

/-- The change of a port is to be reported. -/
def hasChanged (s : RootHub) (port : Nat) : Bool :=
  showsChange s port || showsReset s port

/-- A pass of the loop. -/
theorem markPort_eq (bm : Nat → BitVec 8) {port : Nat}
    (h : hasChanged s port = true → port / 8 < len) :
    ∃ bm', markPort s len bm port = some bm'
      ∧ ∀ q, portBit bm' q
        = (portBit bm q || (decide (q = port) && hasChanged s port)) := by
  unfold hasChanged at h ⊢
  unfold markPort
  cases hchange : showsChange s port with
  | true =>
      have hin := h (by rw [hchange, Bool.true_or])
      obtain ⟨bm₁, hset₁, hbit₁⟩ := setPortBit_eq bm hin
      cases hreset : showsReset s port with
      | true =>
          obtain ⟨bm₂, hset₂, hbit₂⟩ := setPortBit_eq bm₁ hin
          refine ⟨bm₂, by simp [hset₁, hset₂], fun q => ?_⟩
          rw [hbit₂, hbit₁]
          simp
      | false =>
          refine ⟨bm₁, by simp [hset₁], fun q => ?_⟩
          rw [hbit₁]
          simp
  | false =>
      cases hreset : showsReset s port with
      | true =>
          have hin := h (by rw [hreset, Bool.or_true])
          obtain ⟨bm₁, hset₁, hbit₁⟩ := setPortBit_eq bm hin
          refine ⟨bm₁, by simp [hset₁], fun q => ?_⟩
          rw [hbit₁]
          simp
      | false =>
          exact ⟨bm, by simp, fun q => by simp⟩

/-- A pass of the loop for a port without a bit. -/
theorem markPort_none {bm : Nat → BitVec 8} {port : Nat}
    (hport : hasChanged s port = true) (h : ¬port / 8 < len) :
    markPort s len bm port = none := by
  unfold markPort
  unfold hasChanged at hport
  cases hchange : showsChange s port with
  | true => simp [setPortBit_none h]
  | false =>
      rw [hchange, Bool.false_or] at hport
      simp [hport, setPortBit_none h]

/-- The loop over ports that have a bit. -/
theorem markPorts_eq (bm : Nat → BitVec 8) {l : List Nat}
    (h : ∀ port ∈ l, hasChanged s port = true → port / 8 < len) :
    ∃ bm', l.foldlM (markPort s len) bm = some bm'
      ∧ ∀ q, portBit bm' q
        = (portBit bm q || (decide (q ∈ l) && hasChanged s q)) := by
  induction l generalizing bm with
  | nil => exact ⟨bm, rfl, fun q => by simp⟩
  | cons port l ih =>
      obtain ⟨bm₁, hmark, hbit₁⟩ := markPort_eq bm
        (h port (List.mem_cons_self ..))
      obtain ⟨bm₂, hrest, hbit₂⟩ := ih bm₁
        fun q hq => h q (List.mem_cons_of_mem _ hq)
      refine ⟨bm₂, ?_, fun q => ?_⟩
      · rw [List.foldlM_cons, hmark]
        exact hrest
      · rw [hbit₂, hbit₁]
        by_cases hq : q = port
        · subst hq
          cases hasChanged s q <;> simp
        · simp [hq]

/-- The handler goes through the bits in order. -/
theorem hubIrqHandler_eq (len : Nat) (bm : Nat → BitVec 8) :
    hubIrqHandler len bm = (List.range (len * 8)).filter (portBit bm) := by
  unfold hubIrqHandler
  induction len with
  | zero => rfl
  | succ len ih =>
      have hrange : List.range ((len + 1) * 8) = List.range (len * 8)
          ++ (List.range 8).map fun j => len * 8 + j := by
        rw [Nat.succ_mul]
        exact List.range_add ..
      have hone : List.range (len + 1) = List.range len ++ [len] :=
        List.range_succ
      rw [hone, List.flatMap_append, ih, hrange, List.filter_append,
        List.filter_map, List.flatMap_singleton]
      congr 1
      have hbits : ∀ j ∈ List.range 8,
          (portBit bm ∘ fun j => len * 8 + j) j = (bm len).getLsbD j := by
        intro j hj
        have hlt := List.mem_range.1 hj
        have hdiv : (len * 8 + j) / 8 = len := by omega
        have hmod : (len * 8 + j) % 8 = j := by omega
        simp only [Function.comp_apply, portBit, hdiv, hmod]
      rw [List.filter_congr hbits]
      split_ifs with hzero
      · rw [hzero]
        simp
      · rfl

/-- The ports of a bitmap that has a bit for each that has changed. -/
theorem filter_ports {p : Nat → Bool}
    (h : ∀ q ∈ List.range' 1 n, p q = true → q < len * 8) :
    (List.range (len * 8)).filter
        (fun q => decide (q ∈ List.range' 1 n) && p q)
      = (List.range' 1 n).filter p := by
  have hleft : ((List.range (len * 8)).filter
      (fun q => decide (q ∈ List.range' 1 n) && p q)).Pairwise (· < ·) :=
    List.pairwise_lt_range.filter _
  have hright : ((List.range' 1 n).filter p).Pairwise (· < ·) :=
    (List.pairwise_lt_range' 1 (by decide)).filter _
  apply hleft.eq_of_mem_iff hright
  intro q
  simp only [List.mem_filter, List.mem_range, Bool.and_eq_true,
    decide_eq_true_eq]
  constructor
  · rintro ⟨-, hmem, hp⟩
    exact ⟨hmem, hp⟩
  · rintro ⟨hmem, hp⟩
    exact ⟨h q hmem hp, hmem, hp⟩

/-- A buffer of the length that the hub driver takes is as long as there
are ports. -/
theorem ports_le (hn : len = (n + 7) / 8) : n ≤ len * 8 := by omega

/-- The report is complete if and only if the number of ports is no
multiple of eight, or the last port has not changed. -/
theorem reportsAll_iff (hw : Changes) (st : HubemState RootHub)
    (hpos : 0 < s.nports) :
    ReportsAll s (intLen (ehciHubem hw s.nports) st)
      ↔ (s.nports % 8 = 0 → hasChanged s s.nports = false) := by
  have hle : s.nports ≤ 15 := by
    unfold RootHub.nports
    have hand : (s.hcsparams &&& 0xf) ≤ 0xf := UInt32.and_le_right
    exact hand
  have hlt : (ehciHubem hw s.nports).hubemNports < 32 := by
    show s.nports < 32
    omega
  have hlen : intLen (ehciHubem hw s.nports) st = (s.nports + 7) / 8 :=
    intLen_eq _ st hlt
  generalize intLen (ehciHubem hw s.nports) st = len at hlen ⊢
  have hports : (if len * 8 < s.nports then len * 8 else s.nports)
      = s.nports := if_neg (Nat.not_lt.2 (ports_le hlen))
  unfold ReportsAll rootIrq
  simp only [hports]
  constructor
  · intro hreport hmod
    by_contra hchanged
    rw [Bool.not_eq_false] at hchanged
    -- the last port has no bit in the buffer
    have hout : ¬s.nports / 8 < len := by omega
    obtain ⟨n, hn⟩ := Nat.exists_eq_succ_of_ne_zero (Nat.ne_of_gt hpos)
    have hlast : List.range' 1 s.nports
        = List.range' 1 n ++ [s.nports] := by
      rw [hn, Nat.succ_eq_add_one, List.range'_1_concat, Nat.add_comm 1 n]
    have hfail : (List.range' 1 s.nports).foldlM (markPort s len)
        (fun _ => 0) = none := by
      rw [hlast, List.foldlM_append]
      cases hfirst : (List.range' 1 n).foldlM (markPort s len) fun _ => 0 with
      | none => rfl
      | some bm =>
          show markPort s len bm s.nports >>= _ = _
          rw [markPort_none hchanged hout]
          rfl
    rw [hfail] at hreport
    cases hreport
  · intro hcond
    have hin : ∀ q ∈ List.range' 1 s.nports, hasChanged s q = true →
        q < len * 8 := by
      intro q hq hchanged
      have hq := List.mem_range'_1.1 hq
      by_cases hmod : s.nports % 8 = 0
      · have hne : q ≠ s.nports := by
          rintro rfl
          rw [hcond hmod] at hchanged
          cases hchanged
        omega
      · omega
    obtain ⟨bm, hloop, hbits⟩ := markPorts_eq (s := s) (fun _ => 0)
      fun q hq hc => Nat.div_lt_of_lt_mul (by
        rw [Nat.mul_comm]
        exact hin q hq hc)
    rw [hloop, Option.map_some, hubIrqHandler_eq]
    congr 1
    have hfilter : (List.range (len * 8)).filter (portBit bm)
        = (List.range (len * 8)).filter (fun q =>
          decide (q ∈ List.range' 1 s.nports) && hasChanged s q) := by
      apply List.filter_congr
      intro q _
      rw [hbits]
      simp [portBit]
    rw [hfilter, filter_ports hin]
    rfl

/-- A root hub whose ports have changed, all or only those with an odd
number. -/
def changedHub (hcsparams : UInt32) (all : Bool) : RootHub where
  hcsparams := hcsparams
  usbsts := 0
  portsc := fun i => if all || i % 2 = 0 then mask ehciPortConnectC else 0
  bmresetC := 0
  boardPwren := false
  power := []
  cleared := []
  time := 0

/-- Ten ports, of which those with an odd number have changed. -/
theorem reportsAll_iff_sample :
    ReportsAll (changedHub 10 false) (intLen (ehciHubem (fun _ _ => 0) 10)
        ⟨changedHub 10 false, 1⟩)
      ∧ changedPorts (changedHub 10 false) = [1, 3, 5, 7, 9] := by
  refine ⟨?_, by decide⟩
  have hpos : 0 < (changedHub 10 false).nports := by decide
  refine (reportsAll_iff _ _ hpos).2 fun hmod => ?_
  exact absurd hmod (by decide)

/-- Eight ports that have all changed: the bit of the last is outside of
the buffer, which has one byte. -/
theorem last_port_outside :
    intLen (ehciHubem (fun _ _ => 0) 8) ⟨changedHub 8 true, 1⟩ = 1
      ∧ rootIrq (changedHub 8 true) 1 = none
      ∧ ¬ReportsAll (changedHub 8 true)
        (intLen (ehciHubem (fun _ _ => 0) 8) ⟨changedHub 8 true, 1⟩) := by
  have hlen : intLen (ehciHubem (fun _ _ => 0) 8) ⟨changedHub 8 true, 1⟩
      = 1 := by decide
  have hnone : (rootIrq (changedHub 8 true) 1).isNone = true := by decide
  have hnone := Option.isNone_iff_eq_none.1 hnone
  refine ⟨hlen, hnone, ?_⟩
  rw [hlen]
  unfold ReportsAll
  rw [hnone]
  nofun

end ProjectsLibs.Ehci
