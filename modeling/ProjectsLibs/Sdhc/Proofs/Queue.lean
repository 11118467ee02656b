/-
The command list is a queue with each command issued, completed and
called back once (`queue_fifo`).

The handler changes the command at the head only (`Frame`) until the
command leaves the list, and the list is a queue again before the
callback is made, so that the callback can send.

# The invariant

`Fifo` is about the links: from the head they lead through the commands
that have not completed, in the order in which they were sent, and the
tail pointer is at the last link. Sending appends, whether the list is
empty or not, and issues the command if it is the first. An interrupt
changes the command at the head in the fields that `Frame` leaves open
and no link at all, so the list is the same list until the last stage of
the handler takes the head off it and issues the next.

`Called` is about the calls: one for each command that has completed, in
order. The callback may send, and it runs on a queue: at that point the
list has been repaired. `handleIrq_cases` is the one lemma that the steps
use; it says that the command at the head is pending still, or has ended
and what its callback has sent stands at the end.
-/
import ProjectsLibs.Lib.Loop
import ProjectsLibs.Sdhc.System

namespace ProjectsLibs.Sdhc

open Lib

-- ====================================================== sdhc_next_cmd

/-- `sdhc_next_cmd` issues the command at the head and touches nothing
else that is kept about commands. -/
structure Issues (s : Host) (c : CmdId) (s' : Host) : Prop where
  head : s'.cmdListHead = s.cmdListHead
  tail : s'.cmdListTail = s.cmdListTail
  cmds : s'.cmds = s.cmds
  submitted : s'.submitted = s.submitted
  started : s'.started = s.started ++ [c]
  called : s'.called = s.called
  reported : s'.reported = s.reported
  portOut : s'.portOut = s.portOut
  blocks : ∀ d, (s.cmds c).data = some d → s'.blocksRemaining = d.blocks

/-- With a command at the head, `sdhc_next_cmd` always succeeds; it faults
on an empty list only, where the source would dereference NULL. -/
theorem sdhcNextCmd_ok {s : Host} {c : CmdId}
    (hc : s.cmdListHead = some c) :
    ∃ s', sdhcNextCmd s = .ok s' ∧ Issues s c s' := by
  unfold sdhcNextCmd
  rw [hc]
  cases hdata : (s.cmds c).data with
  | none =>
      simp only [hdata]
      refine ⟨_, rfl, hc.symm, rfl, rfl, rfl, rfl, rfl, rfl, rfl, ?_⟩
      intro d hd
      rw [hdata] at hd
      cases hd
  | some d =>
      simp only [hdata]
      refine ⟨_, rfl, hc.symm, rfl, rfl, rfl, rfl, rfl, rfl, rfl, ?_⟩
      intro d' hd
      rw [hdata] at hd
      cases hd
      rfl

-- ================================================ up to the end of a word

/-- What of a command goes to the controller: its argument, and the size
and the number of its blocks. -/
def MmcCmd.wire (cmd : MmcCmd) : UInt32 × Option (Nat × Nat) :=
  (cmd.arg, cmd.data.map fun d => (d.blockSize, d.blocks))

/-- Between two points of the handler only the command at the head has
changed: its response, its buffer and whether it is complete. -/
structure Frame (c : CmdId) (s s' : Host) : Prop where
  head : s'.cmdListHead = s.cmdListHead
  tail : s'.cmdListTail = s.cmdListTail
  submitted : s'.submitted = s.submitted
  started : s'.started = s.started
  called : s'.called = s.called
  reported : s'.reported = s.reported
  regs : s'.regs = s.regs
  other : ∀ d, d ≠ c → s'.cmds d = s.cmds d
  next : (s'.cmds c).next = (s.cmds c).next
  cb : (s'.cmds c).cb = (s.cmds c).cb
  wire : (s'.cmds c).wire = (s.cmds c).wire

namespace Frame

variable {c : CmdId} {s s₁ s₂ : Host}

theorem refl (s : Host) : Frame c s s :=
  ⟨rfl, rfl, rfl, rfl, rfl, rfl, rfl, fun _ _ => rfl, rfl, rfl, rfl⟩

theorem trans (h₁ : Frame c s s₁) (h₂ : Frame c s₁ s₂) :
    Frame c s s₂ where
  head := h₂.head.trans h₁.head
  tail := h₂.tail.trans h₁.tail
  submitted := h₂.submitted.trans h₁.submitted
  started := h₂.started.trans h₁.started
  called := h₂.called.trans h₁.called
  reported := h₂.reported.trans h₁.reported
  regs := h₂.regs.trans h₁.regs
  other := fun d hd => (h₂.other d hd).trans (h₁.other d hd)
  next := h₂.next.trans h₁.next
  cb := h₂.cb.trans h₁.cb
  wire := h₂.wire.trans h₁.wire

/-- Links are not touched. -/
theorem links (h : Frame c s s₁) (d : CmdId) :
    (s₁.cmds d).next = (s.cmds d).next := by
  by_cases hd : d = c
  · rw [hd, h.next]
  · rw [h.other d hd]

/-- Nor are callbacks. -/
theorem callbacks (h : Frame c s s₁) (d : CmdId) :
    (s₁.cmds d).cb = (s.cmds d).cb := by
  by_cases hd : d = c
  · rw [hd, h.cb]
  · rw [h.other d hd]

/-- Nor is what goes to the controller. -/
theorem wires (h : Frame c s s₁) (d : CmdId) :
    (s₁.cmds d).wire = (s.cmds d).wire := by
  by_cases hd : d = c
  · rw [hd, h.wire]
  · rw [h.other d hd]

/-- The handler writes to the command at the head; such a write is within
the frame if the link, the callback and what goes over the wire stay. -/
theorem setCmd {f : MmcCmd → MmcCmd}
    (hnext : (f (s.cmds c)).next = (s.cmds c).next)
    (hcb : (f (s.cmds c)).cb = (s.cmds c).cb)
    (hwire : (f (s.cmds c)).wire = (s.cmds c).wire) :
    Frame c s (s.setCmd c f) := by
  have hself : (s.setCmd c f).cmds c = f (s.cmds c) :=
    Function.update_self ..
  refine ⟨rfl, rfl, rfl, rfl, rfl, rfl, rfl, ?_, ?_, ?_, ?_⟩
  · intro d hd
    exact Function.update_of_ne hd _ _
  · rw [hself, hnext]
  · rw [hself, hcb]
  · rw [hself, hwire]

theorem setComplete (v : Int) : Frame c s (s.setComplete c v) :=
  setCmd rfl rfl rfl

end Frame

/-- Recording an error only changes `complete` of the command at the head. -/
theorem markErrors_frame (s : Host) (c : CmdId) (status : UInt32) :
    Frame c s (markErrors s c status) := by
  unfold markErrors
  induction errorBits generalizing s with
  | nil => exact Frame.refl s
  | cons b bits ih =>
      rw [List.foldl_cons]
      split
      · exact (Frame.setComplete (-1)).trans (ih _)
      · exact ih s

/-- Reading the response registers fills in the response words and nothing
else of the command. -/
theorem readResponse_fields (cmd : MmcCmd) (rsp : Nat → UInt32) :
    (readResponse cmd rsp).next = cmd.next
      ∧ (readResponse cmd rsp).cb = cmd.cb
      ∧ (readResponse cmd rsp).data = cmd.data
      ∧ (readResponse cmd rsp).arg = cmd.arg
      ∧ (readResponse cmd rsp).complete = cmd.complete := by
  unfold readResponse
  split
  · exact ⟨rfl, rfl, rfl, rfl, rfl⟩
  · split
    · exact ⟨rfl, rfl, rfl, rfl, rfl⟩
    · exact ⟨rfl, rfl, rfl, rfl, rfl⟩
  · exact ⟨rfl, rfl, rfl, rfl, rfl⟩
  · exact ⟨rfl, rfl, rfl, rfl, rfl⟩

/-- The branch for the command complete bit stays within the frame of the
command at the head. -/
theorem commandComplete_frame {ndebug : Bool} {s s' : Host} {c : CmdId}
    {i : Input} (h : commandComplete ndebug s c i = .ok s') :
    Frame c s s' := by
  unfold commandComplete at h
  split at h
  · obtain ⟨hnext, hcb, hdata, harg, -⟩ :=
      readResponse_fields (s.cmds c) i.rsp
    have hframe : Frame c s
        (s.setCmd c fun cmd => readResponse cmd i.rsp) :=
      Frame.setCmd hnext hcb (by rw [MmcCmd.wire, hdata, harg]; rfl)
    simp only at h
    split at h
    · cases h
      exact hframe
    · obtain ⟨-, -, h⟩ := bind_eq_ok h
      cases h
      exact hframe.trans (Frame.setComplete 1)
  · cases h
    exact Frame.refl s

/-- Moving one block may change the buffer and the count of remaining
blocks, which the frame leaves open. -/
theorem moveData_frame {s s' : Host} {c : CmdId} {i : Input} {d : MmcData}
    (hdata : (s.cmds c).data = some d) (h : moveData s c i d = .ok s') :
    Frame c s s' := by
  unfold moveData at h
  cases hbuf : d.vbuf with
  | none =>
      simp only [hbuf] at h
      split at h
      · cases h
        exact Frame.refl s
      · cases h
  | some buf =>
      simp only [hbuf] at h
      split at h
      · cases h
        refine Frame.setCmd rfl rfl ?_
        show (_, some (d.blockSize, d.blocks)) = (_, (s.cmds c).data.map _)
        rw [hdata]
        rfl
      · cases h
        exact ⟨rfl, rfl, rfl, rfl, rfl, rfl, rfl, fun _ _ => rfl, rfl, rfl,
          rfl⟩

/-- So does the branch for the buffer ready bits, whether it moves a block
or not. -/
theorem programmedIo_frame {ndebug : Bool} {s s' : Host} {c : CmdId}
    {i : Input} (h : programmedIo ndebug s c i = .ok s') :
    Frame c s s' := by
  unfold programmedIo at h
  split at h
  · obtain ⟨-, -, h⟩ := bind_eq_ok h
    obtain ⟨-, -, h⟩ := bind_eq_ok h
    obtain ⟨-, -, h⟩ := bind_eq_ok h
    split at h
    · cases hdata : (s.cmds c).data with
      | none =>
          rw [hdata] at h
          cases h
      | some d =>
          simp only [hdata] at h
          obtain ⟨s₁, hmove, h⟩ := bind_eq_ok h
          cases h
          have hf := moveData_frame hdata hmove
          exact ⟨hf.head, hf.tail, hf.submitted, hf.started, hf.called,
            hf.reported, hf.regs, hf.other, hf.next, hf.cb, hf.wire⟩
    · cases h
      exact Frame.refl s
  · cases h
    exact Frame.refl s

theorem dataComplete_frame {ndebug : Bool} {s s' : Host} {c : CmdId}
    {i : Input} (h : dataComplete ndebug s c i = .ok s') :
    Frame c s s' := by
  unfold dataComplete at h
  split at h
  · obtain ⟨-, -, h⟩ := bind_eq_ok h
    cases h
    exact Frame.setComplete 1
  · cases h
    exact Frame.refl s

/-- The handler up to its end. -/
theorem handleIrq_inv {ndebug : Bool} {body : Host → Except Fault Host}
    {s s' : Host} {c : CmdId} {i : Input} (hc : s.cmdListHead = some c)
    (h : sdhcHandleIrq ndebug body s i = .ok s') :
    ∃ s₁, Frame c s s₁ ∧ finishCmd body s₁ c = .ok s' := by
  unfold sdhcHandleIrq at h
  rw [hc] at h
  simp only at h
  obtain ⟨s₂, h₂, h⟩ := bind_eq_ok h
  obtain ⟨s₃, h₃, h⟩ := bind_eq_ok h
  obtain ⟨s₄, h₄, h⟩ := bind_eq_ok h
  exact ⟨s₄, (((markErrors_frame s c i.status).trans
    (commandComplete_frame h₂)).trans (programmedIo_frame h₃)).trans
      (dataComplete_frame h₄), h⟩

-- ============================================================== sending

/-- What sending a command leaves as it is. -/
structure Sends (s : Host) (c : CmdId) (cb : Option Callback)
    (s' : Host) : Prop where
  called : s'.called = s.called
  reported : s'.reported = s.reported
  portOut : s'.portOut = s.portOut
  cb_self : (s'.cmds c).cb = cb
  other : ∀ d, d ≠ c → (s'.cmds d).cb = (s.cmds d).cb
    ∧ (s'.cmds d).complete = (s.cmds d).complete
    ∧ (s'.cmds d).data = (s.cmds d).data

/-- Appending to the queue puts the tail pointer at the link of the command
appended. -/
theorem tailOf_concat (queue : List CmdId) (c : CmdId) :
    tailOf (queue ++ [c]) = .next c := by
  unfold tailOf
  rw [List.getLast?_concat]

theorem cmds_setCmd (s : Host) (c : CmdId) (f : MmcCmd → MmcCmd)
    (d : CmdId) :
    (s.setCmd c f).cmds d = if d = c then f (s.cmds c) else s.cmds d :=
  Function.update_apply ..

/-- A command as `sdhc_send_cmd` sets it up. -/
def prepared (cmd : MmcCmd) (cb : Option Callback) : MmcCmd :=
  { cmd with complete := 0, next := none, cb := cb }

/-- The state in which `sdhc_send_cmd` looks whether the host is idle. -/
def appended (s : Host) (c : CmdId) (cb : Option Callback) : Host :=
  { storeTail ({ s with submitted := s.submitted ++ [c] }.setCmd c
      fun cmd => prepared cmd cb) c with
    cmdListTail := .next c }

/-- A command is issued at once only if it finds the list empty, so that it
is the head itself. -/
theorem sdhcSendCmd_eq (s : Host) (c : CmdId) (cb : Option Callback) :
    sdhcSendCmd s c cb
      = if (appended s c cb).cmdListHead = some c then
          sdhcNextCmd (appended s c cb)
        else .ok (appended s c cb) := rfl

/-- Appending to an empty list. -/
theorem appended_first {s : Host} (htail : s.cmdListTail = .head)
    (c : CmdId) (cb : Option Callback) :
    appended s c cb = { s with
      submitted := s.submitted ++ [c]
      cmds := Function.update s.cmds c (prepared (s.cmds c) cb)
      cmdListHead := some c
      cmdListTail := .next c } := by
  unfold appended storeTail
  simp only [Host.setCmd, htail]

/-- Appending behind `p`. -/
theorem appended_behind {s : Host} {p c : CmdId}
    (htail : s.cmdListTail = .next p) (cb : Option Callback) :
    appended s c cb = { s with
      submitted := s.submitted ++ [c]
      cmds := Function.update
        (Function.update s.cmds c (prepared (s.cmds c) cb)) p
        { Function.update s.cmds c (prepared (s.cmds c) cb) p with
          next := some c }
      cmdListTail := .next c } := by
  unfold appended storeTail
  simp only [Host.setCmd, htail]

/-- What an appended command leaves as it is. -/
theorem appended_other {s : Host} {c : CmdId} (cb : Option Callback)
    (hself : s.cmdListTail ≠ .next c) :
    ((appended s c cb).cmds c) = prepared (s.cmds c) cb
      ∧ (appended s c cb).submitted = s.submitted ++ [c]
      ∧ (appended s c cb).started = s.started
      ∧ (appended s c cb).called = s.called
      ∧ (appended s c cb).reported = s.reported
      ∧ (appended s c cb).portOut = s.portOut
      ∧ (appended s c cb).cmdListTail = .next c
      ∧ ∀ d, d ≠ c → ((appended s c cb).cmds d).cb = (s.cmds d).cb
        ∧ ((appended s c cb).cmds d).complete = (s.cmds d).complete
        ∧ ((appended s c cb).cmds d).data = (s.cmds d).data := by
  cases htail : s.cmdListTail with
  | head =>
      rw [appended_first htail]
      refine ⟨Function.update_self .., rfl, rfl, rfl, rfl, rfl, rfl, ?_⟩
      intro d hd
      simp [Function.update_of_ne hd]
  | next p =>
      have hpc : p ≠ c := by
        intro heq
        rw [htail, heq] at hself
        exact hself rfl
      rw [appended_behind htail]
      refine ⟨?_, rfl, rfl, rfl, rfl, rfl, rfl, ?_⟩
      · simp only [Function.update_of_ne hpc.symm, Function.update_self]
      · intro d hd
        by_cases hdp : d = p
        · simp [hdp, Function.update_of_ne hpc]
        · simp [Function.update_of_ne hdp, Function.update_of_ne hd]

/-- An appended command is the last of the list. -/
theorem appended_linked {s : Host} {queue : List CmdId} {c : CmdId}
    (hlinked : Leads (fun d => (s.cmds d).next) s.cmdListHead queue none)
    (htail : s.cmdListTail = tailOf queue) (hnd : queue.Nodup)
    (hc : c ∉ queue) (cb : Option Callback) :
    Leads (fun d => ((appended s c cb).cmds d).next)
        (appended s c cb).cmdListHead (queue ++ [c]) none := by
  cases List.eq_nil_or_concat' queue with
  | inl hnil =>
      rw [hnil] at htail ⊢
      rw [appended_first htail]
      refine ⟨rfl, ?_⟩
      show (Function.update s.cmds c (prepared (s.cmds c) cb) c).next = none
      rw [Function.update_self]
      rfl
  | inr hcat =>
      obtain ⟨q, p, rfl⟩ := hcat
      rw [tailOf_concat] at htail
      rw [List.nodup_append] at hnd
      rw [List.mem_append, not_or, List.mem_singleton] at hc
      rw [appended_behind htail]
      refine Leads.concat_iff.2 ⟨hlinked.relink ?_ ?_, ?_⟩
      · intro y hy
        have hyp : y ≠ p := hnd.2.2 y hy p (List.mem_singleton.2 rfl)
        have hyc : y ≠ c := fun heq => hc.1 (heq ▸ hy)
        simp only [Function.update_of_ne hyp, Function.update_of_ne hyc]
      · simp only [Function.update_self]
      · simp only [Function.update_of_ne hc.2, Function.update_self]
        rfl

/-- `sdhc_send_cmd` puts the command at the end of the queue, and issues
it if the host is idle. -/
theorem sdhcSendCmd_ok {s : Host} {done queue : List CmdId}
    (hF : Fifo s done queue) {c : CmdId} (hc : c ∉ s.submitted)
    (cb : Option Callback) :
    ∃ s', sdhcSendCmd s c cb = .ok s' ∧ Fifo s' done (queue ++ [c])
      ∧ Sends s c cb s' := by
  have hmem := hc
  rw [hF.submitted, List.mem_append, not_or] at hmem
  obtain ⟨hcd, hcq⟩ := hmem
  have hself : s.cmdListTail ≠ .next c := by
    rw [hF.tail]
    intro heq
    unfold tailOf at heq
    split at heq
    · cases heq
    · rename_i x hlast
      cases heq
      exact hcq (List.mem_of_getLast? hlast)
  have hnd := List.nodup_append.1 hF.nodup
  have hlinked := appended_linked hF.linked hF.tail hnd.2.1 hcq cb
  obtain ⟨hprep, hsub, hstart, hcalled, hrep, hport, htail, hother⟩ :=
    appended_other cb hself
  have hnd' : (done ++ (queue ++ [c])).Nodup := by
    rw [← List.append_assoc, List.nodup_append]
    refine ⟨hF.nodup, List.nodup_singleton c, ?_⟩
    intro x hx y hy heq
    rw [List.mem_singleton.1 hy] at heq
    rw [heq, ← hF.submitted] at hx
    exact hc hx
  have hpending : ∀ d ∈ queue ++ [c],
      ((appended s c cb).cmds d).complete = 0 := by
    intro d hd
    by_cases hdc : d = c
    · rw [hdc, hprep]
      rfl
    · rw [(hother d hdc).2.1]
      rw [List.mem_append, List.mem_singleton] at hd
      exact hF.pending d (hd.resolve_right hdc)
  have hcompleted : ∀ d ∈ done,
      ((appended s c cb).cmds d).complete ≠ 0 := by
    intro d hd
    rw [(hother d (fun heq => hcd (heq ▸ hd))).2.1]
    exact hF.completed d hd
  rw [sdhcSendCmd_eq]
  by_cases hidle : (appended s c cb).cmdListHead = some c
  · rw [if_pos hidle]
    obtain ⟨s', hrun, hI⟩ := sdhcNextCmd_ok hidle
    -- only the first command of the list is found at its head
    have hnil : queue = [] := by
      cases queue with
      | nil => rfl
      | cons x l =>
          have hhead := hlinked.head_eq
          rw [hidle] at hhead
          cases hhead
          exact absurd (List.mem_cons_self ..) hcq
    refine ⟨s', hrun, ⟨?_, hnd', ?_, ?_, ?_, ?_, ?_⟩,
      ⟨?_, ?_, ?_, ?_, ?_⟩⟩
    · rw [hI.submitted, hsub, hF.submitted, List.append_assoc]
    · rw [hI.cmds, hI.head]
      exact hlinked
    · rw [hI.tail, htail, tailOf_concat]
    · rw [hI.started, hstart, hF.started, hnil]
      simp
    · rw [hI.cmds]
      exact hpending
    · rw [hI.cmds]
      exact hcompleted
    · rw [hI.called, hcalled]
    · rw [hI.reported, hrep]
    · rw [hI.portOut, hport]
    · rw [hI.cmds, hprep]
      rfl
    · rw [hI.cmds]
      exact hother
  · rw [if_neg hidle]
    have hne : queue ≠ [] := by
      intro hnil
      rw [hnil] at hlinked
      exact hidle hlinked.head_eq
    refine ⟨_, rfl, ⟨?_, hnd', hlinked, ?_, ?_, hpending, hcompleted⟩,
      ⟨hcalled, hrep, hport, by rw [hprep]; rfl, hother⟩⟩
    · rw [hsub, hF.submitted, List.append_assoc]
    · rw [htail, tailOf_concat]
    · rw [hstart, hF.started]
      cases queue with
      | nil => exact absurd rfl hne
      | cons x l => rfl

/-- The command at the head is the first of the queue. -/
theorem Fifo.eq_cons {s : Host} {done queue : List CmdId} {c : CmdId}
    (hF : Fifo s done queue) (hc : s.cmdListHead = some c) :
    ∃ rest, queue = c :: rest := by
  cases queue with
  | nil =>
      have hnone : s.cmdListHead = none := hF.linked
      rw [hnone] at hc
      cases hc
  | cons x rest =>
      have hx := hF.linked.head_eq
      rw [hc] at hx
      cases hx
      exact ⟨rest, rfl⟩

-- =========================================================== completion

/-- What is kept about callbacks: every command in the queue has one, and
those that have completed were called back. -/
structure Called (s : Host) (done queue : List CmdId) : Prop where
  waiting : ∀ c ∈ queue, (s.cmds c).cb ≠ none
  called : s.called.map Prod.fst = done

/-- A queue all of whose commands have callbacks. -/
def Kept (s : Host) : Prop :=
  ∃ done queue, Fifo s done queue ∧ Called s done queue

/-- The fields of the list once a command has left it. -/
theorem advanceList_ok {s : Host} {done rest : List CmdId} {c : CmdId}
    (hsub : s.submitted = done ++ c :: rest)
    (hnd : (done ++ c :: rest).Nodup)
    (hlinked : Leads (fun d => (s.cmds d).next) s.cmdListHead (c :: rest)
      none)
    (htail : s.cmdListTail = tailOf (c :: rest))
    (hstart : s.started = done ++ [c])
    (hpending : ∀ d ∈ rest, (s.cmds d).complete = 0)
    (hcompleted : ∀ d ∈ done, (s.cmds d).complete ≠ 0)
    (hc : (s.cmds c).complete ≠ 0) :
    ∃ s₁, advanceList s c = .ok s₁
      ∧ Fifo (s₁.setCmd c fun cmd => { cmd with next := none })
          (done ++ [c]) rest
      ∧ s₁.cmds = s.cmds ∧ s₁.called = s.called
      ∧ s₁.reported = s.reported ∧ s₁.portOut = s.portOut := by
  -- commands are in the list once, so the head is not in what remains
  have hcr : c ∉ rest := by
    have hnd' := (List.nodup_append.1 hnd).2.1
    exact (List.nodup_cons.1 hnd').1
  have hassoc : done ++ c :: rest = done ++ [c] ++ rest := by simp
  have hcd : ∀ d ∈ done ++ [c], ∀ s₁ : Host, s₁.cmds = s.cmds →
      ((s₁.setCmd c fun cmd => { cmd with next := none }).cmds d).complete
        ≠ 0 := by
    intro d hd s₁ hcmds
    rw [cmds_setCmd, hcmds]
    rw [List.mem_append, List.mem_singleton] at hd
    split
    · exact hc
    · rename_i hne
      exact hcompleted d (hd.resolve_right hne)
  -- clearing the link of `c` does not touch the commands behind it
  have hother : ∀ d ∈ rest, ∀ s₁ : Host, s₁.cmds = s.cmds →
      (s₁.setCmd c fun cmd => { cmd with next := none }).cmds d
        = s.cmds d := by
    intro d hd s₁ hcmds
    rw [cmds_setCmd, hcmds, if_neg]
    intro heq
    exact hcr (heq ▸ hd)
  obtain ⟨-, hrest⟩ := hlinked
  -- `c` was the last one: the tail goes back to the head pointer;
  -- otherwise its successor is issued
  cases rest with
  | nil =>
      have hnext : (s.cmds c).next = none := hrest
      unfold advanceList
      rw [hnext]
      refine ⟨_, rfl, ⟨?_, ?_, ?_, ?_, ?_, ?_, ?_⟩, rfl, rfl, rfl, rfl⟩
      · exact hsub.trans hassoc
      · rw [← hassoc]
        exact hnd
      · exact rfl
      · rfl
      · show s.started = _
        rw [hstart]
        simp
      · intro d hd
        cases hd
      · intro d hd
        exact hcd d hd _ rfl
  | cons n rest =>
      have hnext : (s.cmds c).next = some n := hrest.1
      unfold advanceList
      rw [hnext]
      obtain ⟨s₁, hrun, hI⟩ := sdhcNextCmd_ok
        (s := { s with cmdListHead := some n }) rfl
      refine ⟨s₁, hrun, ⟨?_, ?_, ?_, ?_, ?_, ?_, ?_⟩, hI.cmds,
        hI.called, hI.reported, hI.portOut⟩
      · show s₁.submitted = _
        rw [hI.submitted, ← hassoc]
        exact hsub
      · rw [← hassoc]
        exact hnd
      · show Leads _ s₁.cmdListHead _ _
        rw [hI.head]
        have hold : Leads (fun d => (s.cmds d).next) (some n) (n :: rest)
            none := ⟨rfl, hrest.2⟩
        apply hold.congr
        intro y hy
        show (Host.cmds _ y).next = _
        rw [hother y hy s₁ hI.cmds]
      · show s₁.cmdListTail = _
        rw [hI.tail]
        show s.cmdListTail = _
        rw [htail]
        unfold tailOf
        rw [List.getLast?_cons_cons]
      · show s₁.started = _
        rw [hI.started]
        show s.started ++ [n] = _
        rw [hstart]
        rfl
      · intro d hd
        rw [hother d hd s₁ hI.cmds]
        exact hpending d hd
      · intro d hd
        exact hcd d hd s₁ hI.cmds

/-- Sending several commands. -/
theorem sendAll_ok {s : Host} {done queue : List CmdId}
    (hF : Fifo s done queue) {subs : List (CmdId × Option Callback)}
    (hfresh : ∀ c ∈ subs.map Prod.fst, c ∉ s.submitted)
    (hnd : (subs.map Prod.fst).Nodup) :
    ∃ s', sendAll subs s = .ok s'
      ∧ Fifo s' done (queue ++ subs.map Prod.fst)
      ∧ s'.called = s.called ∧ s'.reported = s.reported
      ∧ s'.portOut = s.portOut
      ∧ (∀ c ∈ subs, (s'.cmds c.1).cb = c.2)
      ∧ ∀ d, d ∉ subs.map Prod.fst → (s'.cmds d).cb = (s.cmds d).cb
        ∧ (s'.cmds d).complete = (s.cmds d).complete
        ∧ (s'.cmds d).data = (s.cmds d).data := by
  -- a callback sends its commands one after the other, each behind the
  -- last
  induction subs generalizing s queue with
  | nil =>
      refine ⟨s, rfl, ?_, rfl, rfl, rfl, ?_, fun d _ => ⟨rfl, rfl, rfl⟩⟩
      · rw [List.map_nil, List.append_nil]
        exact hF
      · intro c hc
        cases hc
  | cons c subs ih =>
      rw [List.map_cons, List.nodup_cons] at hnd
      obtain ⟨s₁, hrun, hF₁, hS⟩ :=
        sdhcSendCmd_ok hF (hfresh c.1 (List.mem_cons_self ..)) c.2
      -- the command just sent is not among those still to be sent
      have hfresh₁ : ∀ d ∈ subs.map Prod.fst, d ∉ s₁.submitted := by
        intro d hd
        rw [hF₁.submitted, ← List.append_assoc, ← hF.submitted,
          List.mem_append, List.mem_singleton, not_or]
        refine ⟨hfresh d (List.mem_cons_of_mem _ hd), ?_⟩
        intro heq
        exact hnd.1 (heq ▸ hd)
      obtain ⟨s', hrun', hF', hcalled, hrep, hport, hcb, hother⟩ :=
        ih hF₁ hfresh₁ hnd.2
      refine ⟨s', ?_, ?_, hcalled.trans hS.called, hrep.trans hS.reported,
        hport.trans hS.portOut, ?_, ?_⟩
      · unfold sendAll
        rw [List.foldlM_cons, hrun, ok_bind]
        exact hrun'
      · rw [List.map_cons, List.append_cons]
        exact hF'
      · intro d hd
        cases List.mem_cons.1 hd with
        | inl heq =>
            rw [heq, (hother c.1 hnd.1).1, hS.cb_self]
        | inr hd => exact hcb d hd
      · intro d hd
        rw [List.map_cons, List.mem_cons, not_or] at hd
        obtain ⟨h₁, h₂, h₃⟩ := hother d hd.2
        obtain ⟨g₁, g₂, g₃⟩ := hS.other d hd.1
        exact ⟨h₁.trans g₁, h₂.trans g₂, h₃.trans g₃⟩

/-- The handler up to its end, on a queue: only the first command can
have completed. -/
theorem Fifo.frame {s s₁ : Host} {done rest : List CmdId} {c : CmdId}
    (hF : Fifo s done (c :: rest)) (hf : Frame c s s₁)
    (hc : (s₁.cmds c).complete = 0) : Fifo s₁ done (c :: rest) := by
  have hnd := List.nodup_append.1 hF.nodup
  have hdone : ∀ d ∈ done, d ≠ c := fun d hd =>
    hnd.2.2 d hd c (List.mem_cons_self ..)
  refine ⟨hf.submitted.trans hF.submitted, hF.nodup, ?_,
    hf.tail.trans hF.tail, hf.started.trans hF.started, ?_, ?_⟩
  · rw [hf.head]
    exact hF.linked.congr (fun y _ => hf.links y)
  · intro d hd
    by_cases hdc : d = c
    · rw [hdc, hc]
    · rw [hf.other d hdc]
      exact hF.pending d hd
  · intro d hd
    rw [hf.other d (hdone d hd)]
    exact hF.completed d hd

/-- A command that has completed leaves the queue. -/
theorem Fifo.advance {s s₁ : Host} {done rest : List CmdId} {c : CmdId}
    (hF : Fifo s done (c :: rest)) (hf : Frame c s s₁)
    (hc : (s₁.cmds c).complete ≠ 0) :
    ∃ s₂, advanceList s₁ c = .ok s₂
      ∧ Fifo (s₂.setCmd c fun cmd => { cmd with next := none })
          (done ++ [c]) rest
      ∧ s₂.cmds = s₁.cmds ∧ s₂.called = s₁.called
      ∧ s₂.reported = s₁.reported ∧ s₂.portOut = s₁.portOut := by
  have hnd := List.nodup_append.1 hF.nodup
  have hdone : ∀ d ∈ done, d ≠ c := fun d hd =>
    hnd.2.2 d hd c (List.mem_cons_self ..)
  have hcr := (List.nodup_cons.1 hnd.2.1).1
  exact advanceList_ok (hf.submitted.trans hF.submitted) hF.nodup
    (by
      rw [hf.head]
      exact hF.linked.congr (fun y _ => hf.links y))
    (hf.tail.trans hF.tail) (hf.started.trans hF.started)
    (by
      intro d hd
      rw [hf.other d (fun heq => hcr (heq ▸ hd))]
      exact hF.pending d (List.mem_cons_of_mem _ hd))
    (by
      intro d hd
      rw [hf.other d (hdone d hd)]
      exact hF.completed d hd)
    hc

-- ================================================================ runs

/-- What is logged for the outside does not matter to the queue. -/
theorem Fifo.log {s : Host} {done queue : List CmdId}
    (hF : Fifo s done queue) (called : List (CmdId × Int))
    (reported : List (CmdId × Int × Nat)) :
    Fifo { s with called := called, reported := reported } done queue :=
  ⟨hF.submitted, hF.nodup, hF.linked, hF.tail, hF.started, hF.pending,
    hF.completed⟩

/-- The call of a callback: it is logged, and then the code of the user
runs. -/
theorem callCb_some (body : Host → Except Fault Host) {s : Host}
    {c : CmdId} {cb : Callback} (hcb : (s.cmds c).cb = some cb)
    (hdata : cb = .blockop → (s.cmds c).data.isSome) :
    ∃ reported, callCb body s c 0 = body { s with
        called := s.called ++ [(c, 0)]
        reported := reported }
      ∧ (cb = .blockop → ∃ n, reported = s.reported ++ [(c, 0, n)]) := by
  unfold callCb
  rw [hcb]
  cases cb with
  | user =>
      refine ⟨s.reported, rfl, ?_⟩
      intro h
      cases h
  | blockop =>
      obtain ⟨d, hd⟩ := Option.isSome_iff_exists.1 (hdata rfl)
      simp only [mmcBlockopCompletionCb, hd]
      exact ⟨_, rfl, fun _ => ⟨_, rfl⟩⟩

/-- What a command that has completed makes the driver send. -/
def sentBy (cb : Option Callback)
    (subs : List (CmdId × Option Callback)) :
    List (CmdId × Option Callback) :=
  match cb with
  | none => []
  | some _ => subs

/-- What is logged and what is kept when a command `c` ends. -/
structure Ends (s : Host) (c : CmdId)
    (subs : List (CmdId × Option Callback)) (s' : Host) : Prop where
  complete : (s'.cmds c).complete = (s.cmds c).complete
  data : (s'.cmds c).data = (s.cmds c).data
  portOut : s'.portOut = s.portOut
  called : (s.cmds c).cb ≠ none → s'.called = s.called ++ [(c, 0)]
  reported : (s.cmds c).cb = some .blockop →
    ∃ n, s'.reported = s.reported ++ [(c, 0, n)]
  cb_sent : ∀ x ∈ sentBy (s.cmds c).cb subs, (s'.cmds x.1).cb = x.2
  cb_other : ∀ d, d ∉ (sentBy (s.cmds c).cb subs).map Prod.fst →
    (s'.cmds d).cb = (s.cmds d).cb

/-- The end of the handler for a command that has completed. -/
theorem finishCmd_done {s s₁ : Host} {done rest : List CmdId}
    {c : CmdId} {subs : List (CmdId × Option Callback)}
    (hF : Fifo s done (c :: rest)) (hf : Frame c s s₁)
    (hc : (s₁.cmds c).complete ≠ 0)
    (hdata : (s₁.cmds c).cb = some .blockop → (s₁.cmds c).data.isSome)
    (hfresh : ∀ d ∈ subs.map Prod.fst, d ∉ s.submitted)
    (hnd : (subs.map Prod.fst).Nodup) :
    ∃ s', finishCmd (sendAll subs) s₁ c = .ok s'
      ∧ Fifo s' (done ++ [c])
          (rest ++ (sentBy (s₁.cmds c).cb subs).map Prod.fst)
      ∧ Ends s₁ c subs s' := by
  obtain ⟨s₂, hrun, hF₂, hcmds, hcalled, hrep, hport⟩ :=
    hF.advance hf hc
  have hsub : s₂.submitted = s.submitted := by
    have hsub₂ : s₂.submitted = done ++ [c] ++ rest := hF₂.submitted
    rw [hsub₂, hF.submitted, List.append_assoc]
    rfl
  unfold finishCmd
  rw [if_pos hc, hrun, ok_bind]
  have hself : (s₂.setCmd c fun cmd => { cmd with next := none }).cmds c
      = { s₁.cmds c with next := none } := by
    rw [cmds_setCmd, if_pos rfl, hcmds]
  have hcbs : ∀ d, ((s₂.setCmd c fun cmd =>
      { cmd with next := none }).cmds d).cb = (s₁.cmds d).cb := by
    intro d
    rw [cmds_setCmd, hcmds]
    split
    · rename_i heq
      rw [heq]
    · rfl
  generalize hs₃ : (s₂.setCmd c fun cmd => { cmd with next := none }) = s₃
    at hF₂ hself hcbs
  have hlog : s₃.called = s₁.called ∧ s₃.reported = s₁.reported
      ∧ s₃.portOut = s₁.portOut ∧ s₃.submitted = s.submitted := by
    rw [← hs₃]
    exact ⟨hcalled, hrep, hport, hsub⟩
  simp only
  cases hcb : (s₁.cmds c).cb with
  | none =>
      have hnone : callCb (sendAll subs) s₃ c 0 = .ok s₃ := by
        unfold callCb
        rw [hself]
        simp only [hcb]
      refine ⟨s₃, hnone, ?_, ?_⟩
      · simp only [sentBy, List.map_nil, List.append_nil]
        exact hF₂
      · refine ⟨by rw [hself], by rw [hself], hlog.2.2.1, ?_, ?_, ?_, ?_⟩
        · intro h
          exact absurd hcb h
        · intro h
          rw [hcb] at h
          cases h
        · intro x hx
          rw [hcb] at hx
          cases hx
        · intro d _
          exact hcbs d
  | some cb =>
      obtain ⟨reported, hcall, hblock⟩ := callCb_some (sendAll subs)
        ((hcbs c).trans hcb) (fun h => by
          rw [hself]
          exact hdata (hcb.trans (congrArg some h)))
      rw [hcall]
      -- the callback finds a queue without the command
      obtain ⟨s', hrun', hF', hcalled', hrep', hport', hsent, hother⟩ :=
        sendAll_ok (hF₂.log (s₃.called ++ [(c, 0)]) reported)
          (fun d hd => by
            show d ∉ s₃.submitted
            rw [hlog.2.2.2]
            exact hfresh d hd) hnd
      have hcs : c ∉ subs.map Prod.fst := by
        intro h
        apply hfresh c h
        rw [hF.submitted]
        simp
      refine ⟨s', hrun', hF', ?_, ?_, hport'.trans hlog.2.2.1, ?_, ?_, ?_,
        ?_⟩
      · rw [(hother c hcs).2.1]
        show (s₃.cmds c).complete = _
        rw [hself]
      · rw [(hother c hcs).2.2]
        show (s₃.cmds c).data = _
        rw [hself]
      · intro _
        rw [hcalled', ← hlog.1]
      · intro h
        rw [hcb] at h
        cases h
        rw [hrep', ← hlog.2.1]
        exact hblock rfl
      · rw [hcb]
        exact hsent
      · intro d hd
        rw [hcb] at hd
        rw [(hother d hd).1]
        exact hcbs d

/-- Taking the head off the list and issuing its successor leaves the
fields of every command alone. -/
theorem advanceList_cmds {s s' : Host} {c : CmdId}
    (h : advanceList s c = .ok s') : s'.cmds = s.cmds := by
  unfold advanceList at h
  split at h
  · cases h
    rfl
  · rename_i n hnext
    obtain ⟨s₁, hrun, hI⟩ := sdhcNextCmd_ok
      (s := { s with cmdListHead := some n }) rfl
    rw [hrun] at h
    cases h
    exact hI.cmds

/-- A block transfer has data when it is reported. -/
theorem finishCmd_data {body : Host → Except Fault Host} {s s' : Host}
    {c : CmdId} (hc : (s.cmds c).complete ≠ 0)
    (h : finishCmd body s c = .ok s')
    (hcb : (s.cmds c).cb = some .blockop) :
    (s.cmds c).data.isSome := by
  unfold finishCmd at h
  rw [if_pos hc] at h
  obtain ⟨s₁, hadv, h⟩ := bind_eq_ok h
  have hself : (s₁.setCmd c fun cmd => { cmd with next := none }).cmds c
      = { s.cmds c with next := none } := by
    rw [cmds_setCmd, if_pos rfl, advanceList_cmds hadv]
  simp only [callCb, hself, hcb] at h
  obtain ⟨s₂, hrep, -⟩ := bind_eq_ok h
  have hself' : ((s₁.setCmd c fun cmd =>
      { cmd with next := none }).cmds c).data = (s.cmds c).data := by
    rw [hself]
  simp only [mmcBlockopCompletionCb, hself'] at hrep
  cases hdata : (s.cmds c).data with
  | none =>
      rw [hdata] at hrep
      cases hrep
  | some d => rfl

/-- The handler on a queue: the command at the head is still pending, or
it has ended. -/
theorem handleIrq_cases {ndebug : Bool} {s s' : Host} {i : Input}
    {done rest : List CmdId} {c : CmdId}
    {subs : List (CmdId × Option Callback)}
    (hF : Fifo s done (c :: rest))
    (hfresh : ∀ d ∈ subs.map Prod.fst, d ∉ s.submitted)
    (hnd : (subs.map Prod.fst).Nodup)
    (h : sdhcHandleIrq ndebug (sendAll subs) s i = .ok s') :
    (Frame c s s' ∧ Fifo s' done (c :: rest)) ∨
      ∃ s₁, Frame c s s₁ ∧ Ends s₁ c subs s' ∧ Fifo s' (done ++ [c])
        (rest ++ (sentBy (s.cmds c).cb subs).map Prod.fst) := by
  obtain ⟨s₁, hf, hfin⟩ := handleIrq_inv hF.linked.head_eq h
  by_cases hc : (s₁.cmds c).complete = 0
  · unfold finishCmd at hfin
    rw [if_neg (not_not.2 hc)] at hfin
    cases hfin
    exact .inl ⟨hf, hF.frame hf hc⟩
  · obtain ⟨s₂, hrun, hF₂, hE⟩ := finishCmd_done hF hf hc
      (finishCmd_data hc hfin) hfresh hnd
    rw [hrun] at hfin
    cases hfin
    rw [hf.callbacks] at hF₂
    exact .inr ⟨s₁, hf, hE, hF₂⟩

/-- What a step can do to a queue: a command is put at its end, the host
is idle, or an interrupt is handled for the command at its head. -/
theorem step_cases {ndebug : Bool} {s s' : Host} {e : Event}
    {done queue : List CmdId} (hF : Fifo s done queue)
    (h : step ndebug s e = some s') :
    (∃ c cb, e = .send c cb ∧ Fifo s' done (queue ++ [c])
        ∧ Sends s c cb s') ∨
      (queue = [] ∧ s' = s) ∨
      ∃ i subs c rest, e = .irq i subs ∧ queue = c :: rest ∧
        ((Frame c s s' ∧ Fifo s' done queue) ∨
          ∃ s₁, Frame c s s₁ ∧ Ends s₁ c subs s'
            ∧ Fifo s' (done ++ [c])
            (rest ++ (sentBy (s.cmds c).cb subs).map Prod.fst)) := by
  unfold step at h
  split at h
  · rename_i hfresh
    cases e with
    | send c cb =>
        obtain ⟨s₁, hrun, hF₁, hS⟩ :=
          sdhcSendCmd_ok hF (hfresh.1 c (List.mem_singleton.2 rfl)) cb
        simp only [hrun] at h
        cases h
        exact .inl ⟨c, cb, rfl, hF₁, hS⟩
    | irq i subs =>
        simp only at h
        split at h
        · rename_i hrun
          cases h
          cases queue with
          | nil =>
              have hnone : s.cmdListHead = none := hF.linked
              unfold sdhcHandleIrq at hrun
              rw [hnone] at hrun
              cases hrun
              exact .inr (.inl ⟨rfl, rfl⟩)
          | cons c rest =>
              exact .inr (.inr ⟨i, subs, c, rest, rfl, rfl,
                handleIrq_cases hF hfresh.1 hfresh.2 hrun⟩)
        · cases h
  · cases h

/-- The list is a queue before anything is sent. -/
theorem Init.fifo {s : Host} (h : Init s) : Fifo s [] [] := by
  refine ⟨h.submitted, List.nodup_nil, h.head, h.tail, h.started, ?_, ?_⟩
  · intro c hc
    cases hc
  · intro c hc
    cases hc

/-- The command list is a queue, whether callers wait or not. -/
theorem reachable_fifo {ndebug : Bool} {s : Host}
    (hs : Reachable Init (step ndebug) anyStep s) :
    ∃ done queue, Fifo s done queue := by
  refine Reachable.invariant (I := fun s => ∃ done queue,
    Fifo s done queue) ?_ ?_ hs
  · intro s h
    exact ⟨[], [], h.fifo⟩
  · intro s e s' hI _ h
    obtain ⟨done, queue, hF⟩ := hI
    rcases step_cases hF h with ⟨c, cb, -, hF', -⟩ | ⟨-, heq⟩ |
      ⟨i, subs, c, rest, -, -, ⟨-, hF'⟩ | ⟨s₁, -, -, hF'⟩⟩
    · exact ⟨_, _, hF'⟩
    · rw [heq]
      exact ⟨_, _, hF⟩
    · exact ⟨_, _, hF'⟩
    · exact ⟨_, _, hF'⟩

/-- A step keeps the queue and what is logged of callbacks. -/
theorem step_kept {ndebug : Bool} {s s' : Host} {e : Event} (hK : Kept s)
    (hcb : WithCallback s e) (h : step ndebug s e = some s') :
    Kept s' := by
  obtain ⟨done, queue, hF, hC⟩ := hK
  rcases step_cases hF h with ⟨c, cb, rfl, hF', hS⟩ | ⟨-, heq⟩ |
    ⟨i, subs, c, rest, rfl, rfl, ⟨hf, hF'⟩ | ⟨s₁, hf, hE, hF'⟩⟩
  · refine ⟨_, _, hF', ?_, hS.called ▸ hC.called⟩
    intro d hd
    by_cases hdc : d = c
    · rw [hdc, hS.cb_self]
      exact hcb
    · rw [(hS.other d hdc).1]
      rw [List.mem_append, List.mem_singleton] at hd
      exact hC.waiting d (hd.resolve_right hdc)
  · rw [heq]
    exact ⟨_, _, hF, hC⟩
  · refine ⟨_, _, hF', ?_, hf.called ▸ hC.called⟩
    intro d hd
    rw [hf.callbacks]
    exact hC.waiting d hd
  -- the head is called back and leaves; what its callback sent stands
  -- behind the others, with a callback by the hypothesis on the event
  · have hself : (s₁.cmds c).cb ≠ none := by
      rw [hf.callbacks]
      exact hC.waiting c (List.mem_cons_self ..)
    refine ⟨_, _, hF', ?_, ?_⟩
    · rw [← hf.callbacks]
      intro d hd
      by_cases hds : d ∈ (sentBy (s₁.cmds c).cb subs).map Prod.fst
      · obtain ⟨x, hx, rfl⟩ := List.mem_map.1 hds
        rw [hE.cb_sent x hx]
        apply hcb
        unfold sentBy at hx
        split at hx
        · cases hx
        · exact hx
      · rw [hE.cb_other d hds, hf.callbacks]
        rw [List.mem_append] at hd
        exact hC.waiting d
          (List.mem_cons_of_mem _ (hd.resolve_right hds))
    · rw [hE.called hself, hf.called, List.map_append, hC.called]
      rfl

/-- A host with an empty list and no command called back yet keeps every
callback. -/
theorem Init.kept {s : Host} (h : Init s) : Kept s := by
  refine ⟨[], [], h.fifo, ?_, ?_⟩
  · intro c hc
    cases hc
  · rw [h.called]
    rfl

/-- The command list is a queue, in every state of every run: the
commands that have not completed, in the order they were sent, with the
tail at the last. The commands that have completed and the first of the
queue have been issued, each once and in that order, and those that have
completed have been called back, each once. No run is cut short by the
list: what `step` leaves out are words that the handler does not get
through for another reason (`step_total`). -/
theorem queue_fifo (ndebug : Bool) {s : Host}
    (hs : Reachable Init (step ndebug) WithCallback s) :
    ∃ done queue, Fifo s done queue ∧ s.called.map Prod.fst = done := by
  have hK : Kept s := by
    refine Reachable.invariant ?_ ?_ hs
    · intro s h
      exact h.kept
    · intro s e s' hK hcb h
      exact step_kept hK hcb h
  obtain ⟨done, queue, hF, hC⟩ := hK
  exact ⟨done, queue, hF, hC.called⟩

-- ============================================================= a sample

/-- A command without data. -/
def statusCmd : MmcCmd where
  index := 13
  arg := 0
  response := fun _ => 0
  data := none
  rspType := .r1
  cb := none
  next := none
  complete := 0

/-- The host after `sdhc_init`, with all commands in memory alike. -/
def idleHost (cmd : MmcCmd) : Host where
  cmdListHead := none
  cmdListTail := .head
  blocksRemaining := 0
  version := 3
  regs := ⟨0, 0, 0, 0, 0, 0, 0, 0⟩
  cmds := fun _ => cmd
  submitted := []
  started := []
  called := []
  reported := []
  portOut := []

theorem idleHost_init (cmd : MmcCmd) : Init (idleHost cmd) :=
  ⟨rfl, rfl, rfl, rfl, rfl, rfl⟩

/-- An interrupt with a status word, and nothing in the registers. -/
def irqOf (status : UInt32) : Input := ⟨status, fun _ => 0, fun _ => 0⟩

/-- Two commands are sent, the first completes and its callback sends a
third. -/
def threeCmds : List Event :=
  [.send 1 (some .user), .send 2 (some .user),
    .irq (irqOf (mask intStatusCc)) [(3, some .user)]]

theorem queue_fifo_sample :
    ∃ s, run (step false) (idleHost statusCmd) threeCmds = some s
      ∧ s.submitted = [1, 2, 3]
      ∧ ∃ done queue, Fifo s done queue
        ∧ s.called.map Prod.fst = done := by
  have hany : (run (step false) (idleHost statusCmd) threeCmds).any
      (fun s => decide (s.submitted = [1, 2, 3])) = true := by
    decide +kernel
  obtain ⟨s, hrun, hsub⟩ := (Option.any_eq_true ..).1 hany
  have hall : AllSteps (step false) WithCallback (idleHost statusCmd)
      threeCmds := by
    apply allSteps_of_forall
    intro e he s
    simp only [threeCmds, List.mem_cons, List.not_mem_nil, or_false] at he
    rcases he with rfl | rfl | rfl
    · simp [WithCallback]
    · simp [WithCallback]
    · simp [WithCallback]
  have hs : Reachable Init (step false) WithCallback s :=
    (Reachable.init (idleHost_init statusCmd)).run_allSteps hrun hall
  exact ⟨s, hrun, of_decide_eq_true hsub, queue_fifo false hs⟩

end ProjectsLibs.Sdhc
