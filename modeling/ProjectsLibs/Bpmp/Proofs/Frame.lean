/-
`bpmp_call` stays inside of its frames exactly if the payloads leave room
for the header, which the check of their sizes does not ask for
(`staysInside_iff`).

# Both directions

Every access of the call goes to a frame at an offset, and the memory
lemmas say for each of them what happens if it lies within the frame and
what if it does not. If the header fits beside the payloads, the checked
version of the call therefore does what the version of Basic does, up to
the values it loads, and the polling loop is followed by induction on the
timeout; whatever it sees there, a call that returns the size of the
response has sent the whole message and copied the whole response.

For the other direction one channel is enough, which takes the request
and has an answer without an error in its first look (`answered`). A call
over it runs through all accesses, so if none of them leaves the frame,
the header fits. The check of the code compares the payload alone with
the size of a frame, and `full_frame_overruns` is the message for which
this makes a difference.
-/
import ProjectsLibs.Bpmp.Frame
import ProjectsLibs.Lib.Loop

namespace ProjectsLibs.Bpmp

open Ivc Lib

variable {m : Bytes} {off n : Nat} {vs : List UInt8} {args : Args}
  {ivc : TegraIvc} {looks : Looks}

-- ================================================================ bytes

/-- Stores inside of a frame. -/
theorem storeBytes_eq (h : off + vs.length ≤ bpmpIvcFrameSize) :
    storeBytes m off vs = .ok fun i =>
      if off ≤ i ∧ i < off + vs.length then vs.getD (i - off) 0
      else m i := by
  induction vs generalizing m off with
  | nil =>
      refine congrArg Except.ok (funext fun i => ?_)
      rw [if_neg]
      simp
  | cons v vs ih =>
      rw [List.length_cons] at h
      rw [storeBytes, storeByte, if_pos (by omega)]
      show storeBytes _ (off + 1) vs = _
      rw [ih (by omega)]
      refine congrArg Except.ok (funext fun i => ?_)
      rw [List.length_cons]
      by_cases hi : i = off
      · subst hi
        rw [if_neg (by omega), if_pos (by omega), Function.update_self,
          Nat.sub_self, List.getD_cons_zero]
      · rw [Function.update_of_ne hi]
        by_cases hin : off + 1 ≤ i ∧ i < off + 1 + vs.length
        · rw [if_pos hin, if_pos (by omega)]
          obtain ⟨k, rfl⟩ : ∃ k, i = off + (k + 1) :=
            ⟨i - off - 1, by omega⟩
          rw [Nat.add_sub_cancel_left, List.getD_cons_succ]
          congr 1
          omega
        · rw [if_neg hin, if_neg (by omega)]

/-- Stores that leave a frame. -/
theorem storeBytes_outside (hne : vs ≠ [])
    (h : bpmpIvcFrameSize < off + vs.length) :
    storeBytes m off vs = .error .outside := by
  induction vs generalizing m off with
  | nil => exact absurd rfl hne
  | cons v vs ih =>
      rw [storeBytes, storeByte]
      split
      · next hin =>
          show storeBytes _ (off + 1) vs = _
          rw [List.length_cons] at h
          refine ih ?_ (by omega)
          rintro rfl
          rw [List.length_nil] at h
          omega
      · rfl

/-- Loads inside of a frame. -/
theorem loadBytes_eq (h : off + n ≤ bpmpIvcFrameSize) :
    loadBytes m off n = .ok ((List.range n).map fun i => m (off + i)) := by
  induction n generalizing off with
  | zero => rfl
  | succ n ih =>
      rw [loadBytes, loadByte, if_pos (by omega)]
      show (loadBytes m (off + 1) n >>= fun vs => .ok (m off :: vs)) = _
      rw [ih (by omega), ok_bind, List.range_succ_eq_map, List.map_cons,
        List.map_map]
      refine congrArg (fun l => Except.ok (m off :: l)) ?_
      refine List.map_congr_left fun i _ => congrArg m ?_
      show off + 1 + i = off + (i + 1)
      omega

/-- Loads that leave a frame. -/
theorem loadBytes_outside (hn : n ≠ 0) (h : bpmpIvcFrameSize < off + n) :
    loadBytes m off n = .error .outside := by
  induction n generalizing off with
  | zero => exact absurd rfl hn
  | succ n ih =>
      rw [loadBytes, loadByte]
      split
      · next hin =>
          show (loadBytes m (off + 1) n >>= fun vs => .ok (m off :: vs)) = _
          rw [ih (by rintro rfl; omega) (by omega)]
          rfl
      · rfl

/-- A word of the header is stored within the frame. -/
theorem storeWord_eq (m : Bytes) (w : UInt32)
    (h : off + 4 ≤ bpmpIvcFrameSize) :
    storeBytes m off (wordBytes w) = .ok (storeWord m off w) := by
  have hlen : (wordBytes w).length = 4 := by simp [wordBytes]
  rw [storeBytes_eq (by rw [hlen]; exact h), hlen]
  refine congrArg Except.ok (funext fun i => ?_)
  unfold storeWord
  by_cases hi : off ≤ i ∧ i < off + 4
  · rw [if_pos hi, if_pos hi]
    unfold wordBytes
    rw [List.getD_eq_getElem?_getD, List.getElem?_map,
      List.getElem?_range (by omega)]
    rfl
  · rw [if_neg hi, if_neg hi]

/-- A list that is given by a function, read at an index. -/
theorem getD_range_map (f : Nat → UInt8) (n i : Nat) (d : UInt8) :
    ((List.range n).map f).getD i d = if i < n then f i else d := by
  rw [List.getD_eq_getElem?_getD, List.getElem?_map]
  split
  · next hi =>
      rw [List.getElem?_range hi]
      rfl
  · next hi =>
      rw [List.getElem?_eq_none (by simpa using hi)]
      rfl

-- ============================================== the request, the response

/-- The request of `Basic`, when it fits. -/
theorem storeRequest_eq (frame : Bytes)
    (h : mrqHeaderSize + args.txSize ≤ bpmpIvcFrameSize) :
    storeRequest args frame = .ok (request args frame) := by
  unfold storeRequest
  rw [storeWord_eq frame args.mrq (by decide), ok_bind,
    storeWord_eq _ requestFlags (by decide), ok_bind,
    storeBytes_eq (by simpa using h)]
  refine congrArg Except.ok (funext fun i => ?_)
  unfold request memcpy
  rw [List.length_map, List.length_range]
  split
  · next hi =>
      rw [getD_range_map, if_pos (by omega), Nat.zero_add]
  · rfl

/-- A payload that does not fit behind the header is copied beyond the
frame: the code tests the size of the payload alone. -/
theorem storeRequest_outside (frame : Bytes)
    (h : bpmpIvcFrameSize < mrqHeaderSize + args.txSize) :
    storeRequest args frame = .error .outside := by
  unfold storeRequest
  rw [storeWord_eq frame args.mrq (by decide), ok_bind,
    storeWord_eq _ requestFlags (by decide), ok_bind]
  refine storeBytes_outside ?_ (by simpa using h)
  intro hnil
  have hlen := congrArg List.length hnil
  simp only [List.length_map, List.length_range, List.length_nil] at hlen
  rw [hlen] at h
  exact absurd h (by decide)

/-- The error word of a response is always within the frame. -/
theorem loadErr_eq (resp : Bytes) :
    (loadBytes resp 0 4).map wordOf = .ok (respErr resp) := by
  rw [loadBytes_eq (by decide)]
  rfl

/-- The response of `Basic`, when it fits. -/
theorem loadResponse_eq (resp : Bytes)
    (h : mrqHeaderSize + args.rxSize ≤ bpmpIvcFrameSize) :
    loadResponse args resp = .ok (respErr resp,
      if respErr resp = 0 then args.rxMsg.map fun buf =>
        memcpy buf 0 resp mrqHeaderSize args.rxSize
      else args.rxMsg) := by
  unfold loadResponse
  rw [loadErr_eq, ok_bind]
  cases hmsg : args.rxMsg with
  | none => simp
  | some buf =>
      dsimp only
      by_cases herr : respErr resp = 0
      · by_cases hsize : args.rxSize = 0
        · rw [if_neg (by simp [hsize]), if_pos herr, hsize]
          refine congrArg (fun b => Except.ok (respErr resp, some b)) ?_
          funext i
          exact (if_neg (by omega)).symm
        · rw [if_pos ⟨herr, hsize⟩, loadBytes_eq h, ok_bind, if_pos herr]
          refine congrArg (fun b => Except.ok (respErr resp, some b)) ?_
          funext i
          unfold memcpy
          rw [getD_range_map]
          simp
      · rw [if_neg (fun hand => herr hand.1), if_neg herr]

/-- Likewise for a response that is longer than what the header leaves. -/
theorem loadResponse_outside {resp buf : Bytes}
    (hmsg : args.rxMsg = some buf) (herr : respErr resp = 0)
    (h : bpmpIvcFrameSize < mrqHeaderSize + args.rxSize) :
    loadResponse args resp = .error .outside := by
  have hsize : args.rxSize ≠ 0 := by
    intro hzero
    rw [hzero] at h
    exact absurd h (by decide)
  unfold loadResponse
  rw [loadErr_eq, ok_bind, hmsg]
  dsimp only
  rw [if_pos ⟨herr, hsize⟩, loadBytes_outside hsize h]
  rfl

-- ============================================================= the call

/-- What a call must have done before it returns `rx_size`. -/
def Delivered (args : Args) (r : CallResult) : Prop :=
  r.ret = .size args.rxSize →
    (∃ sent, r.sent = some sent
      ∧ ∀ i < args.txSize, sent (mrqHeaderSize + i) = args.txMsg i)
    ∧ ∃ resp, r.resp = some resp ∧ Copied args resp r.rxMsg

/-- A request carries the whole message. -/
theorem request_payload (frame : Bytes) (i : Nat) (hi : i < args.txSize) :
    request args frame (mrqHeaderSize + i) = args.txMsg i := by
  unfold request memcpy
  rw [if_pos (by omega), Nat.add_sub_cancel_left, Nat.zero_add]

/-- The copy of a response without an error. -/
theorem copied_memcpy (resp : Bytes)
    (hmsg : args.rxMsg = none → args.rxSize = 0) :
    Copied args resp (args.rxMsg.map fun buf =>
      memcpy buf 0 resp mrqHeaderSize args.rxSize) := by
  unfold Copied
  cases h : args.rxMsg with
  | none => exact hmsg h
  | some buf =>
      refine ⟨fun i hi => ?_, fun i hi => ?_⟩
      · exact if_pos ⟨Nat.zero_le i, by omega⟩
      · exact if_neg (by omega)

/-- What an iteration of the loop returns is an error. -/
theorem bpmpCallPoll_error {tx rx : Channel Bytes} {ret : Ret}
    {rest : TegraIvc × Channel Bytes × Channel Bytes}
    (h : bpmpCallPoll ivc tx rx = (.error ret, rest)) (n : Nat) :
    ret ≠ .size n := by
  unfold bpmpCallPoll at h
  split at h
  · injection h with hret
    injection hret with hret
    rw [← hret]
    exact nofun
  · split at h
    · injection h with hret
      exact nomatch hret
    · injection h with hret
      exact nomatch hret

/-- Behind the polling loop. -/
theorem finishCall_ok (hfits : HeaderFits args) (frame : Bytes)
    (tx rx : Channel Bytes) (pos : UInt32) :
    ∃ r, finishCall args (request args frame) ivc tx rx pos = .ok r
      ∧ Delivered args r := by
  unfold finishCall
  dsimp only
  rw [loadResponse_eq _ hfits.rx, ok_bind]
  dsimp only
  cases tegraIvcReadAdvance ivc tx rx with
  | error e => exact ⟨_, rfl, fun hret => nomatch hret⟩
  | ok adv =>
      refine ⟨_, rfl, fun hret => ?_⟩
      by_cases herr : respErr (rx.frames pos.toNat) = 0
      · refine ⟨⟨_, rfl, request_payload frame⟩, _, rfl, ?_⟩
        rw [if_pos herr]
        exact copied_memcpy _ hfits.msg
      · rw [if_pos herr] at hret
        exact nomatch hret

/-- The polling loop, whatever it sees. -/
theorem pollCall_ok (hfits : HeaderFits args) (frame : Bytes)
    (timeout n : Nat) :
    ∃ r, pollCall args (request args frame) looks timeout n ivc = .ok r
      ∧ Delivered args r := by
  induction timeout generalizing n ivc with
  | zero => exact ⟨_, rfl, fun hret => nomatch hret⟩
  | succ timeout ih =>
      unfold pollCall
      split
      · next hpoll =>
          refine ⟨_, rfl, fun hret => ?_⟩
          exact absurd hret (bpmpCallPoll_error hpoll (args.rxSize))
      · exact ih (n + 1)
      · exact finishCall_ok hfits frame _ _ _

/-- A call that fits. -/
theorem bpmpCall_ok (hfits : HeaderFits args) :
    ∃ r, bpmpCall args ivc looks = .ok r ∧ Delivered args r := by
  have hsizes : ¬(bpmpIvcFrameSize < args.txSize
      ∨ bpmpIvcFrameSize < args.rxSize) := by
    have htx := hfits.tx
    have hrx := hfits.rx
    omega
  unfold bpmpCall
  rw [if_neg hsizes]
  dsimp only
  cases tegraIvcWriteGetNextFrame ivc (looks 0).1 with
  | error e => exact ⟨_, rfl, fun hret => nomatch hret⟩
  | ok frame =>
      dsimp only
      rw [storeRequest_eq _ hfits.tx, ok_bind]
      cases tegraIvcWriteAdvance ivc _ with
      | error e => exact ⟨_, rfl, fun hret => nomatch hret⟩
      | ok adv => exact pollCall_ok hfits _ _ _

-- ============================================ the condition is necessary

/-- A frame of zeros. -/
def blank : Bytes := fun _ => 0

/-- An endpoint of a channel of one frame. -/
def endpoint : TegraIvc :=
  { rxBase := 0, txBase := 0x1000, rPos := 0, wPos := 0, nframes := 1,
    frameSize := 128 }

/-- A channel that takes a request and holds a response without an
error. -/
def answered : Looks := fun _ =>
  ({ wCount := 0, state := .established, rCount := 0,
     frames := fun _ => blank },
   { wCount := 1, state := .established, rCount := 0,
     frames := fun _ => blank })

/-- The first look finds the response. -/
theorem pollCall_answered (sent : Bytes) (timeout n : Nat) :
    pollCall args sent answered (timeout + 1) n endpoint = (do
      let (err, rxMsg) ← loadResponse args blank
      .ok ⟨if err ≠ 0 then .eio else .size args.rxSize, some sent,
        some blank, rxMsg⟩) := by
  have hpoll : bpmpCallPoll endpoint (answered n).1 (answered n).2
      = (.ok (some 0), endpoint, answered n) := by
    simp [bpmpCallPoll, tegraIvcChannelNotified, reaction, answered,
      endpoint, tegraIvcReadGetNextFrame, tegraIvcCheckRead,
      tegraIvcChannelEmpty]
  have hadvance : tegraIvcReadAdvance endpoint (answered (n + 1)).1
      (answered (n + 1)).2
      = .ok (endpoint, { (answered n).2 with rCount := 1 }, true) := by
    simp [tegraIvcReadAdvance, answered, endpoint, tegraIvcCheckRead,
      tegraIvcChannelEmpty, tegraIvcAdvanceRx, nextPos,
      tegraIvcChannelAvailCount]
  unfold pollCall
  rw [hpoll]
  dsimp only
  unfold finishCall
  rw [hadvance]
  rfl

/-- The call over `answered`. -/
theorem bpmpCall_answered
    (hsizes : ¬(bpmpIvcFrameSize < args.txSize
      ∨ bpmpIvcFrameSize < args.rxSize)) :
    bpmpCall args endpoint answered = (do
      let sent ← storeRequest args blank
      let (err, rxMsg) ← loadResponse args blank
      .ok ⟨if err ≠ 0 then .eio else .size args.rxSize, some sent,
        some blank, rxMsg⟩) := by
  have hframe : tegraIvcWriteGetNextFrame endpoint (answered 0).1
      = .ok 0 := by
    simp [tegraIvcWriteGetNextFrame, answered, endpoint,
      tegraIvcCheckWrite, tegraIvcChannelFull]
  have hadvance (frames : Nat → Bytes) : tegraIvcWriteAdvance endpoint
      { (answered 0).1 with frames := frames } = .ok (endpoint,
        { (answered 0).1 with wCount := 1, frames := frames }, true) := by
    simp [tegraIvcWriteAdvance, answered, endpoint, tegraIvcCheckWrite,
      tegraIvcChannelFull, tegraIvcAdvanceTx, nextPos,
      tegraIvcChannelAvailCount]
  have htimeout : timeoutThreshold = 1999999 + 1 := rfl
  unfold bpmpCall
  rw [if_neg hsizes]
  dsimp only
  rw [hframe]
  simp only [hadvance, htimeout, pollCall_answered]
  rfl

/-- If a call that is answered stays inside the frame, then the header fits
beside either payload. -/
theorem headerFits_of_answered
    (hsizes : ¬(bpmpIvcFrameSize < args.txSize
      ∨ bpmpIvcFrameSize < args.rxSize))
    (h : StaysInside args endpoint answered) : HeaderFits args := by
  obtain ⟨r, hr, hdelivered⟩ := h
  rw [bpmpCall_answered hsizes] at hr
  have htx : mrqHeaderSize + args.txSize ≤ bpmpIvcFrameSize := by
    by_contra hout
    rw [storeRequest_outside blank (by omega)] at hr
    exact nomatch hr
  rw [storeRequest_eq blank htx, ok_bind] at hr
  have herr : respErr blank = 0 := by decide
  cases hmsg : args.rxMsg with
  | none =>
      -- nothing is copied, and the call returns `rx_size` all the same
      have hload : loadResponse args blank = .ok (0, none) := by
        unfold loadResponse
        rw [loadErr_eq, ok_bind, hmsg, herr]
      rw [hload, ok_bind] at hr
      injection hr with hr
      subst hr
      obtain ⟨-, resp, -, hcopied⟩ := hdelivered rfl
      unfold Copied at hcopied
      rw [hmsg] at hcopied
      have hzero : args.rxSize = 0 := hcopied
      exact ⟨htx, by rw [hzero]; decide, fun _ => hzero⟩
  | some buf =>
      have hrx : mrqHeaderSize + args.rxSize ≤ bpmpIvcFrameSize := by
        by_contra hout
        rw [loadResponse_outside hmsg herr (by omega)] at hr
        exact nomatch hr
      exact ⟨htx, hrx, fun hnone => nomatch hmsg.symm.trans hnone⟩

/-- A call stays inside of its frames and delivers whatever it finds in
the channel, exactly if its arguments are rejected, or the header and the
payloads fit a frame and `rx_msg` is there for a response. -/
theorem staysInside_iff (args : Args) :
    (∀ ivc looks, StaysInside args ivc looks) ↔
      (bpmpIvcFrameSize < args.txSize ∨ bpmpIvcFrameSize < args.rxSize)
        ∨ HeaderFits args := by
  constructor
  · intro h
    by_cases hsizes : bpmpIvcFrameSize < args.txSize
        ∨ bpmpIvcFrameSize < args.rxSize
    · exact .inl hsizes
    · exact .inr (headerFits_of_answered hsizes (h endpoint answered))
  · rintro (hsizes | hfits) ivc looks
    · unfold StaysInside bpmpCall
      rw [if_pos hsizes]
      exact ⟨_, rfl, fun hret => nomatch hret⟩
    · exact bpmpCall_ok hfits

/-- A message of 128 bytes is accepted and its last 8 bytes are stored
behind the frame. -/
theorem full_frame_overruns :
    ¬StaysInside ⟨22, fun _ => 0, 128, none, 0⟩ endpoint answered := by
  intro h
  exact absurd (headerFits_of_answered (by decide) h).tx (by decide)

end ProjectsLibs.Bpmp
