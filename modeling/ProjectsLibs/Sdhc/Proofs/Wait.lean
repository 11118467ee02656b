/-
The wait of a caller: `waitComplete` handles one status word after the
other until the command that it waits for has ended.

While it waits the list of commands is a queue with that command in it
(`wait_reach`), so the wait goes on exactly as long as the handler accepts
the words (`waitComplete_ok_iff`), and it ends with a word that is handled
when the command is at the head (`waitComplete_served`).

# Induction over the words

A wait is a loop over the status words that come, each with what the
callback sends if one is made. The invariant is `Waiting`: the list is a
queue that has the command in it, pending, and what is still to be sent
is new. One word either ends the command, and then it is the head, or
leaves a state of the same kind with one word less, in which others may
have completed and new ones may stand behind. The three statements about
the whole wait are inductions with this one step.
-/
import ProjectsLibs.Sdhc.Transfer
import ProjectsLibs.Sdhc.Proofs.Handler

namespace ProjectsLibs.Sdhc

open Lib

variable {ndebug : Bool} {s s' s₁ s₂ : Host} {c : CmdId}

-- ============================================================= one word

/-- Waiting over some inputs and then over more. -/
theorem waitComplete_append
    {before rest : List (Input × (Host → Except Fault Host))}
    {s₀ : Host} (h : waitComplete ndebug c before s₀ = .ok (none, s)) :
    waitComplete ndebug c (before ++ rest) s₀
      = waitComplete ndebug c rest s := by
  induction before generalizing s₀ with
  | nil =>
      unfold waitComplete at h
      split at h
      · cases h
        rfl
      · split at h
        · cases h
        · cases h
  | cons x before ih =>
      unfold waitComplete at h
      split at h
      · rename_i hzero
        obtain ⟨s₁, hrun, h⟩ := bind_eq_ok h
        rw [List.cons_append]
        conv_lhs => unfold waitComplete
        rw [if_pos hzero]
        simp only [hrun, ok_bind]
        exact ih h
      · split at h
        · cases h
        · cases h

/-- What a wait returns of a command that has ended. -/
def waitResult (v : Int) : Int := if v < 0 then v else 0

/-- A command that has ended is not polled for again. -/
theorem waitComplete_stop {inputs : List (Input ×
      (Host → Except Fault Host))} (hended : (s.cmds c).complete ≠ 0) :
    waitComplete ndebug c inputs s
      = .ok (some (waitResult (s.cmds c).complete), s) := by
  unfold waitComplete waitResult
  rw [if_neg hended]
  split
  · rfl
  · rfl

/-- A pending command is polled for after the next interrupt. -/
theorem waitComplete_cons {i : Input} {body : Host → Except Fault Host}
    {inputs : List (Input × (Host → Except Fault Host))}
    (hzero : (s.cmds c).complete = 0)
    (hrun : sdhcHandleIrq ndebug body s i = .ok s₁) :
    waitComplete ndebug c ((i, body) :: inputs) s
      = waitComplete ndebug c inputs s₁ := by
  conv_lhs => unfold waitComplete
  rw [if_pos hzero]
  simp only [hrun, ok_bind]

-- ============================================================= the wait

/-- The commands that callbacks send while a caller waits. -/
def Waits.sent (waits : Waits) : List CmdId :=
  waits.flatMap fun w => w.2.map Prod.fst

/-- What a caller waits for: its command is in a queue, and the commands
that callbacks are still to send are new. -/
structure Waiting (c : CmdId) (waits : Waits) (s : Host) : Prop where
  queued : ∃ done queue, Fifo s done queue ∧ c ∈ queue
  nodup : waits.sent.Nodup
  fresh : ∀ d ∈ waits.sent, d ∉ s.submitted

section word

variable {w : Input × List (CmdId × Option Callback)} {waits : Waits}

/-- What is sent while waiting is what the callback of the first interrupt
sends, followed by what the later ones send. -/
theorem Waits.sent_cons : Waits.sent (w :: waits)
    = w.2.map Prod.fst ++ waits.sent := List.flatMap_cons ..

/-- What is handled while a caller waits: a command of the queue, and what
its callback sends is new. -/
theorem Waiting.head (hW : Waiting c (w :: waits) s) :
    ∃ d done rest, s.cmdListHead = some d ∧ Fifo s done (d :: rest)
      ∧ c ∈ d :: rest ∧ (∀ x ∈ w.2.map Prod.fst, x ∉ s.submitted)
      ∧ (w.2.map Prod.fst).Nodup := by
  obtain ⟨done, queue, hF, hc⟩ := hW.queued
  have hnd := hW.nodup
  rw [Waits.sent_cons, List.nodup_append] at hnd
  have hfresh : ∀ x ∈ w.2.map Prod.fst, x ∉ s.submitted := fun x hx =>
    hW.fresh x (by
      rw [Waits.sent_cons]
      exact List.mem_append_left _ hx)
  cases queue with
  | nil => cases hc
  | cons d rest =>
      exact ⟨d, done, rest, hF.linked.head_eq, hF, hc, hfresh, hnd.1⟩

/-- One word of a wait: it ends the command, which is at the head then, or
the caller waits on. -/
theorem Waiting.word (hW : Waiting c (w :: waits) s)
    (hrun : sdhcHandleIrq ndebug (sendAll w.2) s w.1 = .ok s₁) :
    (s.cmdListHead = some c
        ∧ (s₁.cmds c).complete = endValue s c w.1
        ∧ endValue s c w.1 ≠ 0)
      ∨ Waiting c waits s₁ ∧ (s₁.cmds c).complete = 0
        ∧ (s.cmdListHead = some c → endValue s c w.1 = 0) := by
  obtain ⟨d, done, rest, hhead, hF, hc, hfresh, hnd⟩ := hW.head
  have hsent := hW.nodup
  rw [Waits.sent_cons, List.nodup_append] at hsent
  have hvalue := handleIrq_value hF hfresh hnd hrun
  -- what this word's callback sends is not among what is still to come
  have hlater : ∀ x ∈ waits.sent, x ∉ s.submitted
      ∧ x ∉ w.2.map Prod.fst := by
    intro x hx
    refine ⟨hW.fresh x ?_, fun hmem => hsent.2.2 x hmem x hx rfl⟩
    rw [Waits.sent_cons]
    exact List.mem_append_right _ hx
  rcases handleIrq_cases hF hfresh hnd hrun with
    ⟨hf, hF'⟩ | ⟨s₂, hf, hE, hF'⟩
  · refine .inr ⟨⟨⟨done, d :: rest, hF', hc⟩, hsent.2.1, ?_⟩,
      hF'.pending c hc, ?_⟩
    · intro x hx
      rw [hf.submitted]
      exact (hlater x hx).1
    · intro hself
      rw [hhead, Option.some.injEq] at hself
      rw [hself] at hvalue
      rw [← hvalue]
      exact hF'.pending c hc
  · by_cases hself : d = c
    · left
      rw [hself] at hvalue hhead hF'
      refine ⟨hhead, hvalue, ?_⟩
      rw [← hvalue]
      exact hF'.completed c (by simp)
    · right
      have hrest : c ∈ rest :=
        (List.mem_cons.1 hc).resolve_left (Ne.symm hself)
      have hc' := List.mem_append_left
        ((sentBy (s.cmds d).cb w.2).map Prod.fst) hrest
      refine ⟨⟨⟨_, _, hF', hc'⟩, hsent.2.1, ?_⟩, hF'.pending c hc',
        ?_⟩
      · intro x hx hmem
        obtain ⟨hold, hnew⟩ := hlater x hx
        rw [hF'.submitted] at hmem
        rw [hF.submitted] at hold
        simp only [List.mem_append, List.mem_cons, List.not_mem_nil,
          or_false, not_or] at hmem hold
        rcases hmem with (hmem | hmem) | hmem | hmem
        · exact hold.1 hmem
        · exact hold.2.1 hmem
        · exact hold.2.2 hmem
        · refine hnew ?_
          unfold sentBy at hmem
          split at hmem
          · cases hmem
          · exact hmem
      · intro hhead'
        rw [hhead, Option.some.injEq] at hhead'
        exact absurd hhead' hself

end word

variable {waits before after : Waits}

/-- The command that is waited for has not ended. -/
theorem Waiting.pending (hW : Waiting c waits s) :
    (s.cmds c).complete = 0 := by
  obtain ⟨done, queue, hF, hc⟩ := hW.queued
  exact hF.pending c hc

/-- A caller that still waits after some words waits for the others as it
did at first. -/
theorem wait_reach (hW : Waiting c (before ++ after) s)
    (h : waitComplete ndebug c (Waits.inputs before) s = .ok (none, s₁)) :
    Waiting c after s₁ := by
  induction before generalizing s with
  | nil =>
      unfold Waits.inputs waitComplete at h
      rw [if_pos hW.pending] at h
      cases h
      exact hW
  | cons w before ih =>
      unfold Waits.inputs waitComplete at h
      rw [if_pos hW.pending] at h
      obtain ⟨s₂, hrun, h⟩ := bind_eq_ok h
      rcases Waiting.word hW hrun with ⟨-, hvalue, hne⟩ | ⟨hW₂, -, -⟩
      · rw [waitComplete_stop (hvalue.symm ▸ hne)] at h
        cases h
      · exact ih hW₂ h

/-- The words of a wait are accepted: each by the handler as it is when
the word comes. -/
def AllAccepted (ndebug : Bool) (c : CmdId) (waits : Waits) (s : Host) :
    Prop :=
  ∀ before w after s₁, waits = before ++ w :: after →
    waitComplete ndebug c (Waits.inputs before) s = .ok (none, s₁) →
    ∀ d, s₁.cmdListHead = some d → Accepts ndebug s₁ d w.1

/-- If the handler accepts every interrupt, it accepts those that come
after the first. -/
theorem AllAccepted.tail {w : Input × List (CmdId × Option Callback)}
    (hA : AllAccepted ndebug c (w :: waits) s)
    (hzero : (s.cmds c).complete = 0)
    (hrun : sdhcHandleIrq ndebug (sendAll w.2) s w.1 = .ok s₁) :
    AllAccepted ndebug c waits s₁ := by
  intro before x after s₂ hsplit hwait
  refine hA (w :: before) x after s₂ (by rw [hsplit]; rfl) ?_
  exact (waitComplete_cons hzero hrun).trans hwait

/-- A wait has no fault exactly if its words are accepted. -/
theorem waitComplete_ok_iff (hW : Waiting c waits s) :
    (∃ r, waitComplete ndebug c waits.inputs s = .ok r)
      ↔ AllAccepted ndebug c waits s := by
  constructor
  · rintro ⟨r, h⟩ before w after s₁ rfl hwait d hd
    have hW₁ := wait_reach hW hwait
    rw [Waits.inputs, List.map_append,
      waitComplete_append (show waitComplete ndebug c (List.map _ before) s
        = _ from hwait)] at h
    unfold waitComplete at h
    rw [if_pos hW₁.pending] at h
    obtain ⟨s₂, hrun, -⟩ := bind_eq_ok h
    obtain ⟨d', done, rest, hhead, hF, -, hfresh, hnd⟩ := hW₁.head
    rw [hd, Option.some.injEq] at hhead
    rw [hhead]
    exact (handleIrq_ok_iff hF hfresh hnd).1 ⟨s₂, hrun⟩
  · intro hA
    induction waits generalizing s with
    | nil =>
        refine ⟨(none, s), ?_⟩
        unfold Waits.inputs waitComplete
        rw [if_pos hW.pending]
        rfl
    | cons w waits ih =>
        obtain ⟨d, done, rest, hhead, hF, -, hfresh, hnd⟩ := hW.head
        obtain ⟨s₁, hrun⟩ := (handleIrq_ok_iff hF hfresh hnd).2
          (hA [] w waits s rfl
            (by
              unfold Waits.inputs waitComplete
              rw [if_pos hW.pending]
              rfl) d hhead)
        show ∃ r, waitComplete ndebug c
          ((w.1, sendAll w.2) :: Waits.inputs waits) s = .ok r
        rw [waitComplete_cons hW.pending hrun]
        rcases Waiting.word hW hrun with ⟨-, hvalue, hne⟩ |
          ⟨hW₁, -, -⟩
        · exact ⟨_, waitComplete_stop (hvalue.symm ▸ hne)⟩
        · exact ih hW₁ (hA.tail hW.pending hrun)

/-- A wait that ends has a word that ends its command, which is at the head
then, and returns what the command is after it. -/
theorem waitComplete_served (hW : Waiting c waits s) {v : Int}
    (h : waitComplete ndebug c waits.inputs s = .ok (some v, s')) :
    ∃ before w after s₁, waits = before ++ w :: after
      ∧ waitComplete ndebug c (Waits.inputs before) s = .ok (none, s₁)
      ∧ s₁.cmdListHead = some c ∧ endValue s₁ c w.1 ≠ 0
      ∧ v = waitResult (endValue s₁ c w.1) := by
  induction waits generalizing s with
  | nil =>
      unfold Waits.inputs waitComplete at h
      rw [if_pos hW.pending] at h
      cases h
  | cons w waits ih =>
      have hzero := hW.pending
      unfold Waits.inputs waitComplete at h
      rw [if_pos hzero] at h
      obtain ⟨s₂, hrun, h⟩ := bind_eq_ok h
      rcases Waiting.word hW hrun with ⟨hhead, hvalue, hne⟩ |
        ⟨hW₂, -, -⟩
      · rw [waitComplete_stop (hvalue.symm ▸ hne)] at h
        cases h
        refine ⟨[], w, waits, s, rfl, ?_, hhead, hne, by rw [hvalue]⟩
        unfold Waits.inputs waitComplete
        rw [if_pos hzero]
        rfl
      · obtain ⟨before, x, after, s₁, hsplit, hwait, hrest⟩ := ih hW₂ h
        exact ⟨w :: before, x, after, s₁, by rw [hsplit]; rfl,
          (waitComplete_cons hzero hrun).trans hwait, hrest⟩

/-- And a word that ends it ends the wait. -/
theorem waitComplete_ends {w : Input × List (CmdId × Option Callback)}
    (hW : Waiting c (before ++ w :: after) s)
    (hok : ∃ r, waitComplete ndebug c
      (Waits.inputs (before ++ w :: after)) s = .ok r)
    (hwait : waitComplete ndebug c (Waits.inputs before) s = .ok (none, s₁))
    (hhead : s₁.cmdListHead = some c) (hne : endValue s₁ c w.1 ≠ 0) :
    ∃ s', waitComplete ndebug c (Waits.inputs (before ++ w :: after)) s
      = .ok (some (waitResult (endValue s₁ c w.1)), s') := by
  have hW₁ := wait_reach hW hwait
  have hsplit : waitComplete ndebug c
      (Waits.inputs (before ++ w :: after)) s
        = waitComplete ndebug c
          ((w.1, sendAll w.2) :: Waits.inputs after) s₁ := by
    rw [Waits.inputs, List.map_append]
    exact waitComplete_append hwait
  rw [hsplit] at hok ⊢
  obtain ⟨r, h⟩ := hok
  unfold waitComplete at h
  rw [if_pos hW₁.pending] at h
  obtain ⟨s₂, hrun, -⟩ := bind_eq_ok h
  rw [waitComplete_cons hW₁.pending hrun]
  rcases Waiting.word hW₁ hrun with ⟨-, hvalue, -⟩ | ⟨-, -, hzero⟩
  · rw [waitComplete_stop (hvalue.symm ▸ hne), hvalue]
    exact ⟨s₂, rfl⟩
  · exact absurd (hzero hhead) hne

end ProjectsLibs.Sdhc
