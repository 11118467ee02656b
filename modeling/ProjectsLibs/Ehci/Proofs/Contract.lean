/-
When a control request meets the transfer contract (`contract_iff`): on
the root hub hardly ever, unless it asks for no data. On the bus a call
that waits always does; one with a callback does unless the controller
halts on a descriptor in front of its end, or the bytes of a request that
was given up are added to its own.

# Shape of the argument

`root_contract` goes through the answers of the hub emulation, request by
request: what a reply returns and calls is compared with what was carried
out (`carriesOut`), which is a property of the request alone. For a
request for data both come down to the length of the answer
(`data_contract`), for any other to what the functions of the root hub
return (`finish_contract`).

`bus_contract` is in `Requests`.
-/
import ProjectsLibs.Ehci.Proofs.Requests
import ProjectsLibs.Ehci.Proofs.RootHub

namespace ProjectsLibs.Ehci

open Lib Usb

-- ============================================================ root hub

section root

variable {hw : Changes} {s s' : RootHub} {p : Nat} {f : PortFeature}
  {ret : Int}

/-- The features that can be set, and -1 for the others. -/
theorem setPf_ret (h : setPf hw s p f = some (ret, s')) :
    ret = if f ∈ [.enable, .power, .reset, .suspend] then 0 else -1 := by
  unfold setPf at h
  cases hp : getPortsc s p with
  | none =>
      rw [hp] at h
      cases h
  | some reg =>
      simp only [hp, Option.bind_eq_bind, Option.bind_some,
        RootHub.read] at h
      cases f with
      | reset =>
          dsimp only at h
          rw [resetPort_eq] at h
          split_ifs at h
          cases h
          rfl
      | suspend =>
          have h : (if ((s.settle hw).settle hw).portsc reg
              &&& mask ehciPortOwner ≠ 0 then none else some (0, _))
              = some (ret, s') := h
          split_ifs at h
          cases h
          rfl
      | _ =>
          cases h
          rfl

/-- The features that can be cleared, and -1 for the others. -/
theorem clrPf_ret (h : clrPf hw s p f = some (ret, s')) :
    ret = if f ∈ [.enable, .overCurrent, .cEnable, .cConnection,
      .cOverCurrent, .cReset, .power, .suspend] then 0 else -1 := by
  unfold clrPf at h
  cases hp : getPortsc s p with
  | none =>
      rw [hp] at h
      cases h
  | some reg =>
      simp only [hp, Option.bind_eq_bind, Option.bind_some,
        RootHub.read] at h
      cases f with
      | suspend =>
          have h : (if (s.settle hw).portsc reg &&& ~~~ehciPortChange
              &&& mask ehciPortEnable = 0 then none
            else if (s.settle hw).portsc reg &&& ~~~ehciPortChange
              &&& mask ehciPortSuspend = 0 then none
            else some (0, _)) = some (ret, s') := h
          split_ifs at h
          cases h
          rfl
      | _ =>
          cases h
          rfl

variable {st st' : HubemState RootHub} {nports : Nat} {c : Control}
  {cb : Bool}

/-- The length of the data buffer that the emulation finds. -/
theorem dataLen_eq (c : Control) :
    dataLen (c.data.map fun d => (⟨d.type, d.len, c.req⟩ : HubXact)).toList
      = c.len := by
  unfold Control.len
  cases c.data with
  | none => rfl
  | some d => exact if_pos d.notSetup

/-- The data packet is passed over. -/
theorem process_data (dev : Hubem RootHub) (c : Control) :
    hubemProcessXact dev cb st
      (c.data.map fun d => (⟨d.type, d.len, c.req⟩ : HubXact)).toList
        = some (finishXact cb 0 st) := by
  cases c.data with
  | none => rfl
  | some d =>
      show hubemProcessXact dev cb st [_] = _
      rw [hubemProcessXact, if_pos d.notSetup]
      rfl

/-- The three descriptors of the configuration are 25 bytes; a shorter
buffer is filled. -/
theorem copyPieces_length {a : Nat} (ha : a ≤ 25) (maxPkt : Nat) :
    (copyPieces a 0
      [hubConfigDesc, hubIfaceDesc, hubEndpointDesc maxPkt]).length = a := by
  have hconfig : hubConfigDesc.length = 9 := rfl
  have hiface : hubIfaceDesc.length = 9 := rfl
  have hend : (hubEndpointDesc maxPkt).length = 7 := rfl
  simp only [copyPieces, List.length_append, List.length_take, hconfig,
    hiface, hend, List.length_nil]
  omega

/-- The lengths of descriptors. -/
theorem getDescriptor_length {req : Usbreq}
    (hreq : req.bRequest ≠ reqGetStatus)
    (hn : nports ≤ 15) (len : Nat) :
    (hubemGetDescriptor (ehciHubem hw nports) st req len).1.map List.length
      = (replySize nports req).map fun size => min len size := by
  have hdev : hubDeviceDesc.length = 18 := rfl
  have hiface : hubIfaceDesc.length = 9 := rfl
  have hend : (hubEndpointDesc st.wMaxPacketSize).length = 7 := rfl
  have hhub : (hubHubDesc nports 100).length = 71 := rfl
  unfold hubemGetDescriptor replySize
  rw [if_neg hreq]
  dsimp only [ehciHubem]
  split_ifs
  · show some (List.length _) = some (min _ _)
    rw [List.length_take, hdev]
    congr 1
    omega
  · show some (List.length _) = some (min _ _)
    rw [List.length_take, hhub]
    congr 1
    omega
  · show some (List.length _) = some (min _ _)
    rw [copyPieces_length (by omega)]
    congr 1
    omega
  · show some (List.length _) = some (min _ _)
    rw [List.length_take, hiface]
    congr 1
    omega
  · show some (List.length _) = some (min _ _)
    rw [List.length_take, hend]
    congr 1
    omega
  · rfl

/-- A status is cut off at the length of the buffer. -/
theorem getStatus_length {req : Usbreq} (hreq : req.bRequest = reqGetStatus)
    {len : Nat} {data : Option (List UInt8)}
    (h : hubemGetStatus (ehciHubem hw nports) st req len = some (data, st')) :
    data.map List.length
      = (replySize nports req).map fun size => min len size := by
  unfold hubemGetStatus at h
  unfold replySize
  rw [if_pos hreq]
  dsimp only at h
  by_cases hzero : req.wIndex = 0
  · rw [if_pos hzero] at h ⊢
    obtain ⟨rfl, -⟩ := Prod.mk.inj (Option.some.inj h)
    show some (List.length _) = some (min _ _)
    rw [List.length_take, show (le16 0).length = 2 from rfl]
    congr 1
    omega
  · rw [if_neg hzero] at h ⊢
    by_cases hport : req.wIndex ≤ nports
    · rw [if_pos (show req.wIndex ≤ (ehciHubem hw nports).hubemNports
        from hport)] at h
      rw [if_pos hport]
      by_cases hlen : len < 4
      · rw [if_pos hlen] at h
        cases h
      · rw [if_neg hlen] at h
        have hreg : (ehciHubem hw nports).getPstat st.token req.wIndex
            = (getPstat hw st.token req.wIndex).map
              fun r => (0, r.1, r.2) := rfl
        rw [hreg] at h
        cases hget : getPstat hw st.token req.wIndex with
        | none =>
            rw [hget] at h
            cases h
        | some r =>
            rw [hget] at h
            obtain ⟨rfl, -⟩ := Prod.mk.inj (Option.some.inj h)
            show some 4 = some (min _ _)
            congr 1
            omega
    · rw [if_neg (show ¬req.wIndex ≤ (ehciHubem hw nports).hubemNports
        from hport)] at h
      rw [if_neg hport]
      obtain ⟨rfl, -⟩ := Prod.mk.inj (Option.some.inj h)
      rfl

/-- Every request that is answered with data has some. -/
theorem replySize_pos {req : Usbreq} {size : Nat}
    (h : size ∈ replySize nports req) : 0 < size := by
  unfold replySize at h
  dsimp only at h
  split_ifs at h
  all_goals
    first
      | cases h; omega
      | cases h

/-- What the driver above sees of a reply. -/
def replyOutcome (r : HubemReply RootHub) (done : Bool) : Outcome :=
  ⟨r.ret, r.calls, r.data.length, done⟩

/-- A request for data: the number of bytes that were copied is returned,
and the callback is not called. -/
theorem data_contract {data : Option (List UInt8)} {size : Option Nat}
    {len : Nat} (hlen : data.map List.length = size.map fun n => min len n)
    (hpos : ∀ n ∈ size, 0 < n) :
    Contract len cb (replyOutcome (dataReply data st) size.isSome)
      ↔ cb = false
      ∧ ∀ n ∈ size, len = 0 ∨ len = 2 * n := by
  cases cb with
  | true =>
      refine ⟨fun ⟨stat, rbytes, hcalls, _⟩ => ?_, fun h => nomatch h.1⟩
      cases data with
      | none => cases hcalls
      | some bytes => cases hcalls
  | false =>
      show (0 ≤ _ → _) ↔ _
      cases data with
      | none =>
          cases size with
          | none =>
              refine ⟨fun _ => ⟨rfl, nofun⟩, fun _ h => ?_⟩
              exact absurd (show (0 : Int) ≤ -1 from h) (by decide)
          | some n => cases hlen
      | some bytes =>
          cases size with
          | none => cases hlen
          | some n =>
              have hbytes : bytes.length = min len n := Option.some.inj hlen
              have hn : 0 < n := hpos n rfl
              have hret : replyOutcome (dataReply (some bytes) st) true
                  = ⟨bytes.length, [], bytes.length, true⟩ := rfl
              rw [Option.isSome_some, hret]
              constructor
              · intro h
                obtain ⟨-, heq⟩ := h (Int.natCast_nonneg _)
                dsimp only at heq
                refine ⟨rfl, fun m hm => ?_⟩
                obtain rfl : n = m := Option.some.inj hm
                omega
              · rintro ⟨-, h⟩ -
                have hcase := h n rfl
                dsimp only
                refine ⟨rfl, ?_⟩
                omega

/-- A request without data, or whose data packet is passed over: nothing is
transferred, so it asks for no data if it is reported as done, and it is
not reported as done if it was not. -/
theorem finish_contract {len : Nat} {err : Int} {done : Bool}
    (hfail : done = true → 0 ≤ err) :
    Contract len cb (replyOutcome (finishXact cb err st) done)
      ↔ (0 ≤ err → done = true ∧ err = len) := by
  cases cb with
  | true =>
      by_cases herr : 0 ≤ err
      · have hseen : replyOutcome (finishXact true err st) done
            = ⟨err, [(.success, err)], 0, done⟩ := by
          unfold replyOutcome finishXact
          simp [herr]
        rw [hseen]
        constructor
        · rintro ⟨stat, rbytes, hcalls, hstat, hrest⟩ -
          obtain ⟨rfl, rfl⟩ : XactStat.success = stat ∧ err = rbytes := by
            simpa using hcalls
          have hdone : done = true := hstat.1 rfl
          have hret : err = (len : Int) - (0 : Nat) := hrest hdone
          exact ⟨hdone, by omega⟩
        · intro h
          obtain ⟨hdone, hlen⟩ := h herr
          refine ⟨.success, err, rfl, ⟨fun _ => hdone, fun _ => rfl⟩,
            ?_⟩
          intro _
          dsimp only
          omega
      · have hnot : done ≠ true := fun hdone => herr (hfail hdone)
        have hseen : replyOutcome (finishXact true err st) done
            = ⟨err, [(.error, err)], 0, done⟩ := by
          unfold replyOutcome finishXact
          simp [herr]
        rw [hseen]
        refine ⟨fun _ h => absurd h herr, fun _ => ?_⟩
        exact ⟨.error, err, rfl, ⟨nofun, fun h => absurd h hnot⟩,
          fun h => absurd h hnot⟩
  | false =>
      show (0 ≤ err → done = true ∧ err = (len : Int) - (0 : Nat)) ↔ _
      constructor
      · intro h herr
        obtain ⟨hdone, hret⟩ := h herr
        exact ⟨hdone, by omega⟩
      · intro h herr
        obtain ⟨hdone, hret⟩ := h herr
        exact ⟨hdone, by omega⟩

/-- What the functions of the root hub return for a feature. -/
theorem feature_ret {req : Usbreq} {err : Int}
    (hreq : req.bRequest = reqClrFeature ∨ req.bRequest = reqSetFeature)
    (h : hubemFeature (ehciHubem hw nports) st req = some (err, st')) :
    err = if handlesFeature req = true then 0 else -1 := by
  unfold hubemFeature at h
  unfold handlesFeature
  by_cases hset : req.bRequest = reqSetFeature
  · rw [if_pos hset] at h ⊢
    obtain ⟨⟨ret, s'⟩, hpf, heq⟩ := Option.map_eq_some_iff.1 h
    obtain ⟨rfl, -⟩ := Prod.mk.inj heq
    rw [setPf_ret hpf]
    simp only [decide_eq_true_eq]
  · have hclr : req.bRequest = reqClrFeature := hreq.resolve_right hset
    rw [if_neg hset, if_pos hclr] at h
    rw [if_neg hset]
    obtain ⟨⟨ret, s'⟩, hpf, heq⟩ := Option.map_eq_some_iff.1 h
    obtain ⟨rfl, -⟩ := Prod.mk.inj heq
    rw [clrPf_ret hpf]
    simp only [decide_eq_true_eq]

/-- The requests for the root hub. -/
theorem root_contract {i : RootCall} {o : Outcome}
    (h : rootOutcome i = some o) :
    Contract i.control.len i.cb o ↔ (ControlCall.root i).Meets := by
  obtain ⟨r, hr, rfl⟩ := Option.map_eq_some_iff.1 h
  have hn : i.st.token.nports ≤ 15 := by
    show (i.st.token.hcsparams &&& 0xf).toNat ≤ 15
    rw [UInt32.toNat_and]
    exact Nat.and_le_right
  show Contract i.control.len i.cb (replyOutcome r
    (carriesOut i.st.token.nports i.control.req)) ↔ _
  unfold ControlCall.Meets
  dsimp only
  unfold Control.hubXacts at hr
  rw [hubemProcessXact, if_neg (not_not.2 rfl), if_neg (Nat.lt_irrefl 8),
    dataLen_eq] at hr
  dsimp only at hr
  by_cases hget : i.control.req.bRequest = reqGetStatus
  · have hdone : carriesOut i.st.token.nports i.control.req
        = (replySize i.st.token.nports i.control.req).isSome :=
      if_pos (.inl hget)
    rw [if_pos (Or.inl hget), hdone]
    rw [if_pos hget] at hr
    obtain ⟨⟨data, st'⟩, hdata, rfl⟩ := Option.map_eq_some_iff.1 hr
    exact data_contract (getStatus_length hget hdata)
      fun n hn => replySize_pos hn
  · rw [if_neg hget] at hr
    by_cases hdesc : i.control.req.bRequest = reqGetDescriptor
    · have hdone : carriesOut i.st.token.nports i.control.req
          = (replySize i.st.token.nports i.control.req).isSome :=
        if_pos (.inr hdesc)
      rw [if_pos (Or.inr hdesc), hdone]
      rw [if_pos hdesc] at hr
      obtain rfl := Option.some.inj hr
      exact data_contract (getDescriptor_length hget hn _)
        fun n hn => replySize_pos hn
    · have hnot := not_or.2 ⟨hget, hdesc⟩
      rw [if_neg hnot]
      rw [if_neg hdesc] at hr
      by_cases hfeat : i.control.req.bRequest = reqClrFeature
          ∨ i.control.req.bRequest = reqSetFeature
      · have hdone : carriesOut i.st.token.nports i.control.req
            = handlesFeature i.control.req := by
          unfold carriesOut
          rw [if_neg hnot, if_pos hfeat]
        rw [hdone]
        rw [if_pos hfeat] at hr ⊢
        obtain ⟨⟨err, st'⟩, hf, hr⟩ := Option.bind_eq_some_iff.1 hr
        have herr := feature_ret hfeat hf
        dsimp only at hr
        cases hhandles : handlesFeature i.control.req with
        | true =>
            rw [hhandles, if_pos rfl] at herr
            rw [herr, if_neg (not_not.2 rfl), process_data] at hr
            obtain rfl := Option.some.inj hr
            rw [finish_contract fun _ => Int.le_refl 0]
            constructor
            · intro hlen _
              exact Int.natCast_eq_zero.1 (hlen (Int.le_refl 0)).2.symm
            · intro hlen _
              rw [hlen rfl]
              exact ⟨rfl, rfl⟩
        | false =>
            rw [hhandles, if_neg Bool.false_ne_true] at herr
            rw [herr, if_pos (by decide)] at hr
            obtain rfl := Option.some.inj hr
            rw [finish_contract (show false = true →
              (0 : Int) ≤ -1 from nofun)]
            refine ⟨fun _ => nofun, fun _ hle => ?_⟩
            exact absurd hle (by decide)
      · -- the emulation returns 0, whether the code is supported or not
        rw [if_neg hfeat] at hr ⊢
        rw [process_data] at hr
        obtain rfl := Option.some.inj hr
        rw [finish_contract fun _ => Int.le_refl 0]
        constructor
        · intro h
          obtain ⟨hdone, hlen⟩ := h (Int.le_refl 0)
          exact ⟨hdone, Int.natCast_eq_zero.1 hlen.symm⟩
        · rintro ⟨hdone, hlen⟩ -
          rw [hlen]
          exact ⟨hdone, rfl⟩

end root

-- =================================================== what is to be shown

/-- A request for the device descriptor. -/
def getDeviceDescriptor : Control :=
  ⟨⟨reqGetDescriptor, descDevice * 256, 0⟩,
    some ⟨.pidIn, 18, nofun⟩⟩

/-- A host with two queue heads in the ring. -/
def twoHeads : AsyncHost :=
  ((run xferStep emptyXfer [.add 1, .add 2]).getD emptyXfer).xfer.host

/-- The tokens in the end: the device answers both requests, the first with
`left` bytes less than it was asked for and the second with eight. -/
def answered (left : UInt32) (t : TdId) : UInt32 :=
  if t = 2 then tdtokBytes 10
  else if t = 5 then tdtokBytes left
  else if t = 3 ∨ t = 6 then mask tdtokIoc
  else 0

/-- A call that waits for the device descriptor: the host is the one that
it leaves behind when it gives up, with its descriptors on the queue
head. -/
def gaveUp : BusCall where
  host := twoHeads
  q := 1
  front := []
  id := 9
  maxPkt := 64
  speed := .high
  control := getDeviceDescriptor
  offset := 0
  blocks := [(4, 128), (5, 160), (6, 192)]
  cb := false
  hw := {
    passes := []
    last := ⟨answered 0, 192, linkInvalid⟩
    reads := fun t _ => answered 0 t }

/-- A request with a callback behind it. -/
def shortAnswer (left : UInt32) : BusCall where
  host := gaveUp.enqueue.toOption.getD twoHeads
  q := 1
  front := [gaveUp.own]
  id := 10
  maxPkt := 64
  speed := .high
  control := getDeviceDescriptor
  offset := 0
  blocks := [(1, 32), (2, 64), (3, 96)]
  cb := true
  hw := {
    passes := []
    last := ⟨answered left, 96, linkInvalid⟩
    reads := fun t _ => answered left t }

/-- An outcome of `enqueue` is checked where it is evaluated. -/
theorem of_enqueue {i : BusCall} {P : AsyncHost → Prop}
    [DecidablePred P]
    (h : i.enqueue.toOption.all (fun host => decide (P host)) = true) :
    ∀ host, i.enqueue = .ok host → P host := by
  intro host hrun
  rw [hrun] at h
  exact of_decide_eq_true h

/-- The sample call with a request that was given up in front is admitted. -/
theorem gaveUp_ok : gaveUp.Ok where
  queued := ⟨by decide +kernel, nofun, nofun⟩
  others := nofun
  blocks := by decide +kernel
  distinct := by decide +kernel
  fresh := nofun
  completes := of_enqueue (by decide +kernel)
  underway := fun _ _ => nofun
  unfinished := nofun
  waits _ := rfl
  setup := by decide +kernel
  settles _ _ := fun _ => .inr fun _ _ => rfl

theorem shortAnswer_ok : (shortAnswer 0).Ok where
  queued := by
    obtain ⟨host, hrun, hready⟩ := enqueue_ready gaveUp_ok
    have hhost : (shortAnswer 0).host = host := by
      unfold shortAnswer
      rw [hrun]
      rfl
    rw [hhost]
    exact hready.queued
  others := by decide +kernel
  blocks := by decide +kernel
  distinct := by decide +kernel
  fresh := by decide +kernel
  completes := of_enqueue (by decide +kernel)
  underway := fun _ _ => nofun
  unfinished := nofun
  waits := nofun
  setup := by decide +kernel
  settles _ _ := fun _ => .inr fun _ _ => rfl

-- the callback of the second gets the bytes of the first as well
example : (shortAnswer 10).outcome
    = some ⟨0, [(.success, 20)], 8, true⟩ := by decide +kernel

/-- The request for the root hub. -/
def rootDescriptor (cb : Bool) : RootCall where
  hw := fun _ _ => 0
  st := {
    token := {
      hcsparams := 2
      usbsts := 0
      portsc := fun _ => 0
      bmresetC := 0
      boardPwren := false
      power := []
      cleared := []
      time := 0 }
    wMaxPacketSize := 1 }
  control := getDeviceDescriptor
  cb := cb

end ProjectsLibs.Ehci
