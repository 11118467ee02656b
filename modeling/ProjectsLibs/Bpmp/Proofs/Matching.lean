/-
Which response a call of `bpmp_call` reads.

Responses carry no tag: a call reads whatever response comes next. The
invariant counts: the requests whose response no call has read are those
of the calls that timed out, and that of the running call. The response
to a call that timed out stays in the channel or with the BPMP, and is
read by a later call, so from then on every call that completes reads
the response to an earlier request (`matched_iff`).

# The counts

Requests and responses are counted along the two channels, which are
queues by the theorem about sessions. The BPMP answers in order, so the
number of a response is the number of its request. A call that times out
leaves its response unread, and each later call reads the one that is
next: if `k` calls have timed out so far, a call reads the response to
the request `k` places before its own. `Running` has these counts for a
call in progress, `Served` for those that have completed.

An iteration that finds nothing changes no count, so the run lemma has
few cases: a call starts, goes round, ends with a response or with the
timeout, and the other side takes a request or answers one. The condition
for a match is that the number of timeouts before is zero.
-/
import ProjectsLibs.Ivc.Proofs.Exchange
import ProjectsLibs.Bpmp.System

namespace ProjectsLibs.Bpmp

open Lib Ivc

-- ================================================== what is to be shown

/-- What a call makes of the response `x` it reads. -/
def Outcome (r : Record) (x : Bytes) : Prop :=
  match r.ret with
  | .size n => n = r.args.rxSize ∧ respErr x = 0
      ∧ r.rxMsg = r.args.rxMsg.map
        fun buf => memcpy buf 0 x mrqHeaderSize r.args.rxSize
  | .eio => respErr x ≠ 0
  | _ => False

/-- The call returned the outcome of the response to its own request. -/
def Matched (s : System) (r : Record) : Prop :=
  ∃ k x, r.own = some k ∧ r.used = some k
    ∧ (s.session.ep .b).written[k]? = some x ∧ Outcome r x

/-- The call returned `rx_size` or `-EIO`. -/
def Record.Completed (r : Record) : Prop :=
  (∃ n, r.ret = .size n) ∨ r.ret = .eio

/-- How many of the calls timed out. -/
def timeouts (calls : List Record) : Nat :=
  calls.countP fun r => r.ret = .etimedout

/-- The parameters of the BPMP channel. -/
def bpmpConfig (base : Side → UInt64) : Config where
  base := base
  nframes := 1
  frameSize := 128

/-- The driver's channels have one frame each. -/
theorem bpmpConfig_pos {base : Side → UInt64} :
    0 < (bpmpConfig base).nframes.toNat := by
  show 0 < (1 : UInt32).toNat
  decide

/-- A session just established, and no call made yet. -/
structure Fresh (base : Side → UInt64) (s : System) : Prop where
  reach : CallReachable (bpmpConfig base) s.session
  est : Established s.session
  written : ∀ p, (s.session.ep p).written = []
  read : ∀ p, (s.session.ep p).read = []
  cpu : s.cpu = .idle
  calls : s.calls = []

/-- The states of the CPU and the BPMP in any order of their steps. -/
def BpmpReachable (base : Side → UInt64) : System → Prop :=
  Reachable (Fresh base) step anyStep

-- ======================================================== the invariant

/-- What a completed call read, against all the responses read. -/
def Served (read : List Bytes) (r : Record) : Prop :=
  r.Completed → ∃ own j x, r.own = some own ∧ r.used = some j
    ∧ own = j + r.backlog ∧ read[j]? = some x ∧ Outcome r x

/-- The counts of a running call: its request is the last one written,
and the requests before it lack `backlog` readers. -/
structure Running (written read : List Bytes) (calls : List Record)
    (own backlog : Nat) : Prop where
  own_eq : own = read.length + backlog
  last : written.length = own + 1
  backlog_eq : backlog = timeouts calls

/-- Where the CPU is, against the history. -/
def CpuInv (s : System) : Prop :=
  match s.cpu with
  | .idle => (s.session.ep .a).written.length
      = (s.session.ep .a).read.length + timeouts s.calls
  | .polling _ own backlog _ =>
      Running (s.session.ep .a).written (s.session.ep .a).read s.calls own
        backlog
  | .answered _ own backlog frame =>
      Running (s.session.ep .a).written (s.session.ep .a).read s.calls own
        backlog
      ∧ tegraIvcReadGetNextFrame (s.session.ep .a).ivc (s.session.chan .a)
        (s.session.chan .b) = .ok frame

/-- The invariant of the exchange. -/
structure Inv (base : Side → UInt64) (s : System) : Prop where
  reach : CallReachable (bpmpConfig base) s.session
  est : Established s.session
  cpu : CpuInv s
  backlog_eq : ∀ i r, s.calls[i]? = some r →
    r.backlog = timeouts (s.calls.take i)
  served : ∀ r ∈ s.calls, Served (s.session.ep .a).read r

/-- Reading on does not change what was read. -/
theorem Served.append {read : List Bytes} {r : Record}
    (h : Served read r) (x : Bytes) : Served (read ++ [x]) r := by
  intro hc
  obtain ⟨own, j, y, hown, hused, hbl, hj, hout⟩ := h hc
  refine ⟨own, j, y, hown, hused, hbl, ?_, hout⟩
  rw [List.getElem?_append_left (List.getElem?_eq_some_iff.1 hj).1]
  exact hj

/-- The backlogs of the calls after one more has returned. -/
theorem backlog_append {calls : List Record}
    (h : ∀ i r, calls[i]? = some r → r.backlog = timeouts (calls.take i))
    {r : Record} (hr : r.backlog = timeouts calls) (i : Nat) (r' : Record)
    (hi : (calls ++ [r])[i]? = some r') :
    r'.backlog = timeouts ((calls ++ [r]).take i) := by
  rcases Nat.lt_or_ge i calls.length with hlt | hge
  · rw [List.getElem?_append_left hlt] at hi
    rw [List.take_append_of_le_length (Nat.le_of_lt hlt)]
    exact h i r' hi
  · have hlen := (List.getElem?_eq_some_iff.1 hi).1
    rw [List.length_append, List.length_singleton] at hlen
    have heq : i = calls.length := by omega
    subst heq
    rw [List.getElem?_concat_length, Option.some.injEq] at hi
    subst hi
    rw [List.take_left']
    · exact hr
    · rfl

/-- The number of calls that have timed out, after one more call. -/
theorem timeouts_append (calls : List Record) (r : Record) :
    timeouts (calls ++ [r])
      = timeouts calls + if r.ret = .etimedout then 1 else 0 := by
  unfold timeouts
  rw [List.countP_append, List.countP_singleton]
  simp only [decide_eq_true_eq]

-- ============================================================ the steps

/-- A new call writes its request, or returns at once without any
effect. -/
theorem start_cases (s : System) (args : Args) :
    (∃ ret, (ret = .einval ∨ ∃ e, ret = .ivc e)
      ∧ startStep s args = { s with
        calls := s.calls
          ++ [⟨args, ret, args.rxMsg, none, none, s.backlog⟩] })
    ∨ ∃ frame x,
      tegraIvcWriteGetNextFrame (s.session.ep .a).ivc (s.session.chan .a)
        = .ok frame
      ∧ startStep s args = { s with
        session := sent s.session .a x
        cpu := .polling args (s.session.ep .a).written.length s.backlog
          timeoutThreshold } := by
  unfold startStep bpmpCallSend
  by_cases hsize : bpmpIvcFrameSize < args.txSize
      ∨ bpmpIvcFrameSize < args.rxSize
  · refine Or.inl ⟨.einval, Or.inl rfl, ?_⟩
    rw [if_pos hsize]
    simp only [setTx_self]
    rw [show s.session.setEp .a _ = s.session from setEp_self]
  · cases hget : tegraIvcWriteGetNextFrame (s.session.ep .a).ivc
        (s.session.chan .a) with
    | error e =>
        refine Or.inl ⟨.ivc e, Or.inr ⟨e, rfl⟩, ?_⟩
        rw [if_neg hsize]
        simp only [setTx_self]
        rw [show s.session.setEp .a _ = s.session from setEp_self]
    | ok frame =>
        obtain ⟨hframe, hchk⟩ := writeGet_ok hget
        subst hframe
        obtain ⟨notify, hadv⟩ := writeAdvance_ok (s.session.ep .a).ivc
          { s.session.chan .a with
            frames := Function.update (s.session.chan .a).frames
              (s.session.ep .a).ivc.wPos.toNat
              (request args ((s.session.chan .a).frames
                (s.session.ep .a).ivc.wPos.toNat)) } hchk
        refine Or.inr ⟨_, request args ((s.session.chan .a).frames
          (s.session.ep .a).ivc.wPos.toNat), rfl, ?_⟩
        simp [hsize, hadv, sent]

/-- An iteration of the loop only looks: it finds a frame, or uses up one
iteration. -/
theorem poll_cases (s : System) (hest : Established s.session) (args : Args)
    (own backlog timeout : Nat) :
    (∃ frame,
      tegraIvcReadGetNextFrame (s.session.ep .a).ivc (s.session.chan .a)
        (s.session.chan .b) = .ok frame
      ∧ pollStep s args own backlog timeout
        = { s with cpu := .answered args own backlog frame })
    ∨ (∃ e, tegraIvcReadGetNextFrame (s.session.ep .a).ivc
        (s.session.chan .a) (s.session.chan .b) = .error e)
      ∧ pollStep s args own backlog timeout
        = if timeout - 1 = 0 then
            { s with
              cpu := .idle
              calls := s.calls
                ++ [⟨args, .etimedout, args.rxMsg, some own, none,
                  backlog⟩] }
          else { s with cpu := .polling args own backlog (timeout - 1) } := by
  have hsession : ((s.session.setTx .a (s.session.chan .a)).setRx .a
      (s.session.chan .b)).setEp .a
        { s.session.ep .a with ivc := (s.session.ep .a).ivc }
      = s.session := by
    rw [setTx_self]
    exact (congrArg (fun t => System.setEp t .a _) setRx_self).trans
      setEp_self
  unfold pollStep bpmpCallPoll
  rw [show tegraIvcChannelNotified (s.session.ep .a).ivc (s.session.chan .a)
    (s.session.chan .b) = _ from notified_established hest .a]
  cases hget : tegraIvcReadGetNextFrame (s.session.ep .a).ivc
      (s.session.chan .a) (s.session.chan .b) with
  | ok frame =>
      refine Or.inl ⟨frame, rfl, ?_⟩
      simp only [show Side.a.peer = .b from rfl, hget]
      rw [hsession]
  | error e =>
      refine Or.inr ⟨⟨e, rfl⟩, ?_⟩
      simp only [show Side.a.peer = .b from rfl, hget]
      rw [hsession]

/-- The end of a call reads the next response. -/
theorem finish_eq (s : System) (args : Args) (own backlog : Nat)
    {frame : UInt32}
    (hget : tegraIvcReadGetNextFrame (s.session.ep .a).ivc
      (s.session.chan .a) (s.session.chan .b) = .ok frame) :
    ∃ r : Record, r.Completed ∧ r.own = some own
      ∧ r.used = some (s.session.ep .a).read.length ∧ r.backlog = backlog
      ∧ Outcome r ((s.session.chan .b).frames
          (s.session.ep .a).ivc.rPos.toNat)
      ∧ finishStep s args own backlog frame = { s with
          session := received s.session .a
          cpu := .idle
          calls := s.calls ++ [r] } := by
  obtain ⟨hframe, hchk⟩ := readGet_ok hget
  subst hframe
  obtain ⟨notify, hadv⟩ := readAdvance_ok hchk
  unfold finishStep bpmpCallFinish
  by_cases herr : respErr ((s.session.chan .b).frames
      (s.session.ep .a).ivc.rPos.toNat) = 0
  · refine ⟨⟨args, .size args.rxSize, args.rxMsg.map fun buf =>
        memcpy buf 0 ((s.session.chan .b).frames
          (s.session.ep .a).ivc.rPos.toNat) mrqHeaderSize args.rxSize,
        some own, _, backlog⟩,
      Or.inl ⟨_, rfl⟩, rfl, rfl, rfl, ⟨rfl, herr, rfl⟩, ?_⟩
    simp only [hadv, herr, ne_eq, not_true_eq_false, if_false, if_true]
    rfl
  · refine ⟨⟨args, .eio, args.rxMsg, some own, _, backlog⟩, Or.inr rfl,
      rfl, rfl, rfl, herr, ?_⟩
    simp only [hadv, herr, ne_eq, not_false_eq_true, if_false, if_true]
    rfl

-- ==================================================== the invariant, kept

section Steps

variable {base : Side → UInt64} {s s' : System}

/-- A record that does not count. -/
theorem Inv.return_early (h : Inv base s) (hidle : s.cpu = .idle)
    {r : Record} (hret : r.ret = .einval ∨ ∃ e, r.ret = .ivc e)
    (hbl : r.backlog = s.backlog) :
    Inv base { s with calls := s.calls ++ [r] } := by
  have hcpu := h.cpu
  unfold CpuInv at hcpu
  rw [hidle] at hcpu
  have hcount : timeouts (s.calls ++ [r]) = timeouts s.calls := by
    rw [timeouts_append, if_neg]
    · rfl
    · rcases hret with hr | ⟨e, hr⟩ <;> rw [hr] <;> intro hc <;> cases hc
  refine ⟨h.reach, h.est, ?_, backlog_append h.backlog_eq ?_, ?_⟩
  · unfold CpuInv
    rw [show System.cpu _ = .idle from hidle]
    simpa only [hcount] using hcpu
  · rw [hbl]
    unfold System.backlog
    simp only at hcpu
    omega
  · intro r' hr'
    rcases List.mem_append.1 hr' with hm | hm
    · exact h.served r' hm
    · rw [List.mem_singleton] at hm
      subst hm
      intro hc
      rcases hc with ⟨n, hn⟩ | hn
      · rcases hret with hr | ⟨e, hr⟩
        · cases hr.symm.trans hn
        · cases hr.symm.trans hn
      · rcases hret with hr | ⟨e, hr⟩
        · cases hr.symm.trans hn
        · cases hr.symm.trans hn

/-- A call starts. -/
theorem inv_start (h : Inv base s) (hidle : s.cpu = .idle) (args : Args) :
    Inv base (startStep s args) := by
  rcases start_cases s args with ⟨ret, hret, heq⟩ |
    ⟨frame, x, hget, heq⟩
  · rw [heq]
    exact h.return_early hidle hret rfl
  · have hcpu := h.cpu
    unfold CpuInv at hcpu
    rw [hidle] at hcpu
    simp only at hcpu
    rw [heq]
    refine ⟨h.reach.send h.est x hget, h.est.sent x, ?_, h.backlog_eq, ?_⟩
    · unfold CpuInv
      refine ⟨?_, ?_, ?_⟩
      · simp [sent, System.setEp, System.setTx, System.backlog]
        omega
      · simp [sent, System.setEp, System.setTx]
      · unfold System.backlog
        show _ = timeouts s.calls
        omega
    · intro r hr
      have hread : ((sent s.session .a x).ep .a).read
          = (s.session.ep .a).read := by
        simp [sent, System.setEp, System.setTx]
      rw [hread]
      exact h.served r hr

/-- A call goes round its loop. -/
theorem inv_poll (h : Inv base s) {args : Args} {own backlog timeout : Nat}
    (hcpu : s.cpu = .polling args own backlog timeout) :
    Inv base (pollStep s args own backlog timeout) := by
  have hrun := h.cpu
  unfold CpuInv at hrun
  rw [hcpu] at hrun
  simp only at hrun
  rcases poll_cases s h.est args own backlog timeout with
    ⟨frame, hget, heq⟩ | ⟨-, heq⟩
  · rw [heq]
    exact ⟨h.reach, h.est, ⟨hrun, hget⟩, h.backlog_eq, h.served⟩
  · rw [heq]
    by_cases hlast : timeout - 1 = 0
    · rw [if_pos hlast]
      refine ⟨h.reach, h.est, ?_,
        backlog_append h.backlog_eq hrun.backlog_eq, ?_⟩
      · unfold CpuInv
        show _ = _ + timeouts (s.calls ++ [_])
        rw [timeouts_append, if_pos rfl]
        have hown := hrun.own_eq
        have hw := hrun.last
        have hbl := hrun.backlog_eq
        show (s.session.ep .a).written.length
          = (s.session.ep .a).read.length + (timeouts s.calls + 1)
        omega
      · intro r hr
        rcases List.mem_append.1 hr with hm | hm
        · exact h.served r hm
        · rw [List.mem_singleton] at hm
          subst hm
          intro hc
          rcases hc with ⟨n, hn⟩ | hn
          · cases hn
          · cases hn
    · rw [if_neg hlast]
      exact ⟨h.reach, h.est, hrun, h.backlog_eq, h.served⟩

/-- A call ends with a response. -/
theorem inv_finish (h : Inv base s) {args : Args} {own backlog : Nat}
    {frame : UInt32} (hcpu : s.cpu = .answered args own backlog frame) :
    Inv base (finishStep s args own backlog frame) := by
  have hrun := h.cpu
  unfold CpuInv at hrun
  rw [hcpu] at hrun
  obtain ⟨hrun, hget⟩ := hrun
  obtain ⟨r, hdone, hown, hused, hbl, hout, heq⟩ :=
    finish_eq s args own backlog hget
  have hsession : readAdvanceStep s.session .a = received s.session .a := by
    rw [readAdvanceStep_eq]
    exact if_pos (readGet_ok hget).2
  have hread : ((received s.session .a).ep .a).read
      = (s.session.ep .a).read
        ++ [(s.session.chan .b).frames (s.session.ep .a).ivc.rPos.toNat] := by
    simp [received, System.setEp, System.setRx]
    rfl
  have hwritten : ((received s.session .a).ep .a).written
      = (s.session.ep .a).written := by
    simp [received, System.setEp, System.setRx]
  have hret : r.ret ≠ .etimedout := by
    rcases hdone with ⟨n, hn⟩ | hn <;> rw [hn] <;> intro hc <;> cases hc
  rw [heq]
  refine ⟨?_, h.est.received, ?_, backlog_append h.backlog_eq ?_, ?_⟩
  · show CallReachable _ (received s.session .a)
    rw [← hsession]
    exact h.reach.readAdvance h.est .a
  · unfold CpuInv
    show ((received s.session .a).ep .a).written.length
      = ((received s.session .a).ep .a).read.length
        + timeouts (s.calls ++ [r])
    rw [hread, hwritten, timeouts_append, if_neg hret, List.length_append,
      List.length_singleton]
    have h1 := hrun.own_eq
    have h2 := hrun.last
    have h3 := hrun.backlog_eq
    omega
  · rw [hbl]
    exact hrun.backlog_eq
  · intro r' hr'
    show Served ((received s.session .a).ep .a).read r'
    rw [hread]
    rcases List.mem_append.1 hr' with hm | hm
    · exact (h.served r' hm).append _
    · rw [List.mem_singleton] at hm
      subst hm
      intro _
      refine ⟨own, (s.session.ep .a).read.length, _, hown, hused, ?_, ?_,
        hout⟩
      · rw [hbl]
        exact hrun.own_eq
      · exact List.getElem?_concat_length

/-- What the BPMP does to its own part leaves the counts alone. -/
theorem Inv.peer_step (h : Inv base s) {t : Ivc.System Bytes}
    (hreach : CallReachable (bpmpConfig base) t) (hest : Established t)
    (hep : t.ep .a = s.session.ep .a)
    (hget : ∀ frame, tegraIvcReadGetNextFrame (s.session.ep .a).ivc
        (s.session.chan .a) (s.session.chan .b) = .ok frame →
      tegraIvcReadGetNextFrame (t.ep .a).ivc (t.chan .a) (t.chan .b)
        = .ok frame) :
    Inv base { s with session := t } := by
  refine ⟨hreach, hest, ?_, h.backlog_eq, ?_⟩
  · have hcpu := h.cpu
    unfold CpuInv at hcpu ⊢
    simp only [hep] at hget ⊢
    split at hcpu
    · exact hcpu
    · exact hcpu
    · next frame _ =>
      exact ⟨hcpu.1, hget frame hcpu.2⟩
  · show ∀ r ∈ s.calls, Served (t.ep .a).read r
    rw [hep]
    exact h.served

/-- The BPMP takes a request. -/
theorem inv_take (h : Inv base s) :
    Inv base { s with session := readAdvanceStep s.session .b } := by
  have hep : (readAdvanceStep s.session .b).ep .a = s.session.ep .a := by
    rw [readAdvanceStep_eq]
    split
    · simp [received, System.setEp, System.setRx]
    · rfl
  refine h.peer_step (h.reach.readAdvance h.est .b)
    (h.est.readAdvance .b) hep ?_
  intro frame hget
  rw [hep, readAdvanceStep_eq]
  split
  · -- only the `r_count` of the request channel has changed
    have hb : (received s.session .b).chan .b = s.session.chan .b := by
      simp [received, System.setEp, System.setRx, Side.peer]
    have ha : ((received s.session .b).chan .a).state
        = (s.session.chan .a).state := by
      simp [received, System.setEp, System.setRx, Side.peer]
    unfold tegraIvcReadGetNextFrame tegraIvcCheckRead at hget ⊢
    rw [hb, ha]
    exact hget
  · exact hget

/-- The BPMP answers. -/
theorem inv_respond (h : Inv base s) {x : Bytes}
    (hst : respondStep s x = some s') : Inv base s' := by
  unfold respondStep at hst
  split at hst
  · split at hst
    · cases hst
    · next frame hwget =>
      cases hst
      rw [send_eq x hwget]
      have hep : (sent s.session .b x).ep .a = s.session.ep .a := by
        simp [sent, System.setEp, System.setTx]
      refine h.peer_step (h.reach.send h.est x hwget) (h.est.sent x) hep ?_
      -- with one frame, a response that waits leaves no room for another
      intro frame' hrget
      exfalso
      have hinv := Ivc.inv_reachable bpmpConfig_pos h.reach.steps.2
      have hnf : (s.session.ep .b).ivc.nframes = 1 := by
        refine (hinv.agree .b).left.nframes_eq ?_
        show (s.session.ep .b).boot ≠ .off
        rw [(h.est .b).1]
        decide
      have hd := hinv.session (fun q => (h.est q).1)
        (fun q => (h.est q).2) .b
      have hlt := hd.read_lt (checkRead_ok (readGet_ok hrget).2).2
      have hroom := (checkWrite_ok (writeGet_ok hwget).2).2
      rw [hnf, UInt32.lt_iff_toNat_lt] at hroom
      have havail := hd.avail_eq
      have hone : (1 : UInt32).toNat = 1 := rfl
      simp only [System.party, Side.peer] at havail hlt
      omega
  · cases hst

/-- One step keeps the invariant. -/
theorem inv_step (h : Inv base s) {act : Act} (hst : step s act = some s') :
    Inv base s' := by
  cases act with
  | start args =>
      simp only [step] at hst
      split at hst
      · next hidle =>
        cases hst
        exact inv_start h hidle args
      · cases hst
  | poll =>
      simp only [step] at hst
      split at hst
      · next hcpu =>
        cases hst
        exact inv_poll h hcpu
      · cases hst
  | finish =>
      simp only [step] at hst
      split at hst
      · next hcpu =>
        cases hst
        exact inv_finish h hcpu
      · cases hst
  | take =>
      cases hst
      exact inv_take h
  | respond x => exact inv_respond h hst

/-- The invariant holds in every reachable state. -/
theorem inv_reachable (hs : BpmpReachable base s) : Inv base s := by
  refine Reachable.invariant ?_ ?_ hs
  · intro s hf
    refine ⟨hf.reach, hf.est, ?_, ?_, ?_⟩
    · unfold CpuInv
      rw [hf.cpu, hf.written, hf.read, hf.calls]
      rfl
    · intro i r hi
      rw [hf.calls] at hi
      cases hi
    · intro r hr
      rw [hf.calls] at hr
      cases hr
  · intro s act s' h _ hst
    exact inv_step h hst

end Steps

-- ============================================================= matching

/-- A call that returns `rx_size` or `-EIO` does so for the response to
its own request exactly when every request before it had been answered
to a call when it started, that is when no earlier call timed out. -/
theorem matched_iff {base : Side → UInt64} {s : System}
    (hs : BpmpReachable base s) {i : Nat} {r : Record}
    (hi : s.calls[i]? = some r) (hc : r.Completed) :
    (Matched s r ↔ r.backlog = 0)
      ∧ (r.backlog = 0
        ↔ ∀ r' ∈ s.calls.take i, r'.ret ≠ .etimedout) := by
  have h := inv_reachable hs
  refine ⟨?_, ?_⟩
  · obtain ⟨own, j, x, hown, hused, hbl, hj, hout⟩ :=
      h.served r (List.mem_of_getElem? hi) hc
    constructor
    · intro hm
      obtain ⟨k, -, hk, hk', -⟩ := hm
      rw [hown, Option.some.injEq] at hk
      rw [hused, Option.some.injEq] at hk'
      omega
    · intro hzero
      have hsame : own = j := by omega
      refine ⟨j, x, hsame ▸ hown, hused, ?_, hout⟩
      -- what was read is what the BPMP wrote
      have hd := (Ivc.inv_reachable bpmpConfig_pos h.reach.steps.2).session
        (fun q => (h.est q).1) (fun q => (h.est q).2) .b
      obtain ⟨rest, hrest⟩ := hd.read_prefix
      show (s.session.party .b).tx.log[j]? = some x
      rw [← hrest]
      exact (List.getElem?_append_left
        (List.getElem?_eq_some_iff.1 hj).1).trans hj
  · rw [h.backlog_eq i r hi]
    unfold timeouts
    rw [List.countP_eq_zero]
    simp only [decide_eq_true_eq, ne_eq]

-- ============================================================== samples

/-- Zeroed memory, for the sample runs. -/
def zeroSession : Ivc.System Bytes where
  chan := fun _ => ⟨0, .established, 0, fun _ _ => 0⟩
  ep := fun _ => ⟨.off, ⟨0, 0, 0, 0, 0, 0⟩, .idle, none, [], []⟩

/-- The addresses of the two channels. -/
def sampleBase : Side → UInt64
  | .a => 0x1000
  | .b => 0x2000

/-- Both ends start and shake hands. -/
def bootCalls : List (Side × Ivc.Call Bytes) :=
  [(.a, .op .init), (.a, .op .reset), (.b, .op .init), (.b, .op .reset),
   (.a, .notified), (.b, .notified), (.a, .notified)]

/-- The established session, before any call. -/
def bootSystem : System where
  session := (run (callStep (bpmpConfig sampleBase)) zeroSession
    bootCalls).getD zeroSession
  cpu := .idle
  calls := []

/-- The driver and the firmware after the handshake, with empty channels. -/
theorem bootSystem_fresh : Fresh sampleBase bootSystem where
  reach := by
    have hrun : run (callStep (bpmpConfig sampleBase)) zeroSession bootCalls
        = some bootSystem.session := rfl
    exact Reachable.run (Reachable.init fun _ => ⟨rfl, rfl, rfl⟩) hrun
  est := by
    intro p
    cases p
    · exact ⟨rfl, rfl⟩
    · exact ⟨rfl, rfl⟩
  written := by
    intro p
    cases p
    · rfl
    · rfl
  read := by
    intro p
    cases p
    · rfl
    · rfl
  cpu := rfl
  calls := rfl

/-- A request without a payload, for a response of one byte. -/
def sampleArgs : Args := ⟨0, fun _ => 0, 0, some fun _ => 0, 1⟩

/-- A response without an error and a payload of `n`s. -/
def sampleResponse (n : UInt8) : Bytes :=
  fun i => if i < mrqHeaderSize then 0 else n

/-- A call that is answered in time. -/
def sampleExchange : System :=
  (run step bootSystem [.start sampleArgs, .take,
    .respond (sampleResponse 7), .poll, .finish]).getD bootSystem

theorem sampleExchange_reachable :
    BpmpReachable sampleBase sampleExchange := by
  have hrun : run step bootSystem [.start sampleArgs, .take,
      .respond (sampleResponse 7), .poll, .finish]
      = some sampleExchange := rfl
  exact Reachable.run (Reachable.init bootSystem_fresh) hrun

/-- The response of that call is the one to its own request. -/
theorem matched_iff_sample :
    ∃ r, sampleExchange.calls[0]? = some r ∧ r.ret = .size 1
      ∧ Matched sampleExchange r := by
  refine ⟨_, rfl, rfl, ?_⟩
  exact (matched_iff (i := 0) sampleExchange_reachable rfl
    (Or.inl ⟨1, rfl⟩)).1.2 rfl

-- ======================================================= a late response

/-- An iteration of the loop on an empty channel. -/
theorem poll_empty {s : System} (hest : Established s.session) {e : Errno}
    (hempty : tegraIvcReadGetNextFrame (s.session.ep .a).ivc
      (s.session.chan .a) (s.session.chan .b) = .error e)
    (args : Args) (own backlog n : Nat) :
    pollStep s args own backlog n
      = if n - 1 = 0 then
          { s with
            cpu := .idle
            calls := s.calls
              ++ [⟨args, .etimedout, args.rxMsg, some own, none, backlog⟩] }
        else { s with cpu := .polling args own backlog (n - 1) } := by
  rcases poll_cases s hest args own backlog n with ⟨frame, hget, -⟩ | hno
  · cases hempty.symm.trans hget
  · exact hno.2

/-- A call whose response does not come goes round its loop until it
times out. -/
theorem poll_timeout {s : System} (hest : Established s.session)
    {e : Errno}
    (hempty : tegraIvcReadGetNextFrame (s.session.ep .a).ivc
      (s.session.chan .a) (s.session.chan .b) = .error e)
    (args : Args) (own backlog timeout : Nat)
    (hcpu : s.cpu = .polling args own backlog (timeout + 1)) :
    run step s (List.replicate (timeout + 1) .poll)
      = some { s with
          cpu := .idle
          calls := s.calls
            ++ [⟨args, .etimedout, args.rxMsg, some own, none,
              backlog⟩] } := by
  have hstep : step s .poll
      = some (pollStep s args own backlog (timeout + 1)) := by
    simp only [step, hcpu]
  induction timeout generalizing s with
  | zero =>
      simp only [List.replicate, run, hstep,
        poll_empty hest hempty args own backlog]
      rfl
  | succ timeout ih =>
      have hnext : pollStep s args own backlog (timeout + 1 + 1)
          = { s with cpu := .polling args own backlog (timeout + 1) } := by
        rw [poll_empty hest hempty, if_neg (by omega)]
        rfl
      rw [List.replicate_succ]
      simp only [run, hstep, hnext]
      exact ih (s := { s with
        cpu := .polling args own backlog (timeout + 1) }) hest hempty rfl rfl

/-- The first call, before its first look at the channel. -/
def sampleWaiting : System := startStep bootSystem sampleArgs

/-- A response that comes after its call has timed out is read by the
next call. -/
theorem late_response :
    ¬∀ base s r, BpmpReachable base s → r ∈ s.calls → r.Completed →
      Matched s r := by
  intro hall
  have hstart : BpmpReachable sampleBase sampleWaiting :=
    Reachable.step (.start sampleArgs) (Reachable.init bootSystem_fresh)
      trivial rfl
  have hlost := poll_timeout (s := sampleWaiting)
    (inv_reachable hstart).est (e := .enomem) rfl sampleArgs 0 0
    (timeoutThreshold - 1) rfl
  have hlate : ∃ s r, run step { sampleWaiting with
          cpu := .idle
          calls := [⟨sampleArgs, .etimedout, sampleArgs.rxMsg, some 0, none,
            0⟩] }
        [.take, .respond (sampleResponse 7), .start sampleArgs, .poll,
          .finish] = some s
      ∧ s.calls[1]? = some r ∧ r.ret = .size 1 ∧ r.own = some 1
      ∧ r.used = some 0 :=
    ⟨_, _, rfl, rfl, rfl, rfl, rfl⟩
  obtain ⟨s, r, hrun, hr, hret, hown, hused⟩ := hlate
  have hs : BpmpReachable sampleBase s :=
    (Reachable.run hstart hlost).run hrun
  obtain ⟨k, -, hk, hk', -⟩ := hall sampleBase s r hs
    (List.mem_of_getElem? hr) (Or.inl ⟨1, hret⟩)
  cases hown.symm.trans (hk.trans (hk'.symm.trans hused))

end ProjectsLibs.Bpmp
