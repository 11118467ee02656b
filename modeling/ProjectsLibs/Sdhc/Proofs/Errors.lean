/-
What a status word with an error bit leads to (`errors_reported`).

An error marks the command with -1 first, and the later stages of the
handler look at the same word: a word that also says that the command or
the transfer is complete makes it 1 again, or stops at an assertion. The
callback is given the status 0 whatever the command ended with. So the
condition (`KeepsError`) is that the handler accepts the word and leaves
the command failed (`keepsError_iff`), and that no block transfer is told.
-/
import ProjectsLibs.Sdhc.Proofs.Wait

namespace ProjectsLibs.Sdhc

open Lib

variable {ndebug : Bool} {s s' : Host} {c : CmdId} {i : Input}
  {subs : List (CmdId × Option Callback)}

-- ========================================================= what is meant

/-- The error in the word `i` is reported: the handler returns with the
command ended by -1, a caller that waits for it gets a negative value,
and a block transfer is reported as failed with no bytes moved. -/
structure Reported (ndebug : Bool)
    (subs : List (CmdId × Option Callback)) (s : Host) (c : CmdId)
    (i : Input) : Prop where
  complete : ∃ s', sdhcHandleIrq ndebug (sendAll subs) s i = .ok s'
    ∧ (s'.cmds c).complete = -1
  waiting : ∀ s₀ before rest,
    sdhcSendCmdWait ndebug s₀ c before = .ok (none, s) →
      ∃ v s', sdhcSendCmdWait ndebug s₀ c
        (before ++ (i, sendAll subs) :: rest) = .ok (some v, s') ∧ v < 0
  blockop : (s.cmds c).cb = some .blockop →
    ∀ s', sdhcHandleIrq ndebug (sendAll subs) s i = .ok s' →
      ∃ stat, stat ≠ 0 ∧ s'.reported = s.reported ++ [(c, stat, 0)]

/-- The handler keeps the error: no block transfer is to be told of it,
the word says of nothing that it is complete, and it asks for no
programmed IO, or for one that gets past the assertions. -/
structure KeepsError (ndebug : Bool) (s : Host) (c : CmdId)
    (i : Input) : Prop where
  cb : (s.cmds c).cb ≠ some .blockop
  tc : has i.status intStatusTc = false
  cc : has i.status intStatusCc = true → (s.cmds c).data ≠ none
  pio : wantsPio i → ndebug = true ∧ HasBuffer s c

-- ============================================================= the wait

/-- A wait that sees the command end with -1 returns that. -/
theorem waitComplete_failed
    {rest : List (Input × (Host → Except Fault Host))}
    {body : Host → Except Fault Host} (hzero : (s.cmds c).complete = 0)
    (hrun : sdhcHandleIrq ndebug body s i = .ok s')
    (hfailed : (s'.cmds c).complete = -1) :
    waitComplete ndebug c ((i, body) :: rest) s = .ok (some (-1), s') := by
  unfold waitComplete
  rw [if_pos hzero]
  simp only [hrun, ok_bind]
  unfold waitComplete
  rw [hfailed]
  rfl

-- ======================================================== both directions

/-- For a command that is not a block transfer, the handler keeps an error
exactly if it accepts the word and leaves the command failed. -/
theorem keepsError_iff (herr : hasError i.status)
    (hcb : (s.cmds c).cb ≠ some .blockop) :
    KeepsError ndebug s c i
      ↔ Accepts ndebug s c i ∧ endValue s c i = -1 := by
  constructor
  · intro hK
    have hends : ¬endsByResponse s c i := fun h => hK.cc h.1 h.2
    have htc : ¬has i.status intStatusTc = true := by
      rw [hK.tc]
      decide
    refine ⟨⟨fun h => absurd h hends, fun hpio => ?_, fun h => absurd h htc,
      fun _ h => absurd h hcb⟩, ?_⟩
    · obtain ⟨hnd, hbuf⟩ := hK.pio hpio
      exact ⟨.inl hnd, hbuf⟩
    · unfold endValue
      rw [if_neg (not_or.2 ⟨htc, hends⟩), if_pos herr]
  · rintro ⟨hA, hvalue⟩
    have hnot : ¬(has i.status intStatusTc = true
        ∨ endsByResponse s c i) := by
      intro h
      unfold endValue at hvalue
      rw [if_pos h] at hvalue
      exact absurd hvalue (by decide)
    obtain ⟨htc, hends⟩ := not_or.1 hnot
    refine ⟨hcb, Bool.not_eq_true _ ▸ htc, fun hcc hnone =>
      hends ⟨hcc, hnone⟩, fun hpio => ?_⟩
    obtain ⟨hasserts, hbuf⟩ := hA.pio hpio
    exact ⟨hasserts.resolve_right fun h => h.2 herr, hbuf⟩

/-- An error that the controller signals is reported to the caller exactly
when the handler keeps it: no branch behind the tests for errors may
overwrite it or end the run. -/
theorem errors_reported
    (hs : Reachable Init (step ndebug) anyStep s)
    (hc : s.cmdListHead = some c) (herr : hasError i.status)
    (hfresh : ∀ d ∈ subs.map Prod.fst, d ∉ s.submitted)
    (hnd : (subs.map Prod.fst).Nodup) :
    Reported ndebug subs s c i ↔ KeepsError ndebug s c i := by
  obtain ⟨done, queue, hF⟩ := reachable_fifo hs
  obtain ⟨rest, rfl⟩ := hF.eq_cons hc
  constructor
  · intro hR
    obtain ⟨s', hrun, hfailed⟩ := hR.complete
    have hvalue := handleIrq_value hF hfresh hnd hrun
    rw [hfailed] at hvalue
    have hcb : (s.cmds c).cb ≠ some .blockop := by
      intro hcb
      obtain ⟨stat, hstat, hrep⟩ := hR.blockop hcb s' hrun
      rcases handleIrq_cases hF hfresh hnd hrun with
        ⟨-, hF'⟩ | ⟨s₁, hf, hE, -⟩
      · rw [hF'.pending c (List.mem_cons_self ..)] at hfailed
        cases hfailed
      · obtain ⟨n, hn⟩ := hE.reported (hf.cb.trans hcb)
        rw [hrep, hf.reported] at hn
        simp only [List.append_cancel_left_eq, List.cons.injEq,
          Prod.mk.injEq] at hn
        exact hstat hn.1.2.1
    exact (keepsError_iff herr hcb).2
      ⟨(handleIrq_ok_iff hF hfresh hnd).1 ⟨s', hrun⟩, hvalue.symm⟩
  · intro hK
    obtain ⟨hA, hvalue⟩ := (keepsError_iff herr hK.cb).1 hK
    obtain ⟨s', hrun⟩ := (handleIrq_ok_iff hF hfresh hnd).2 hA
    have hfailed := (handleIrq_value hF hfresh hnd hrun).trans hvalue
    refine ⟨⟨s', hrun, hfailed⟩, ?_, ?_⟩
    · intro s₀ before rest hwait
      unfold sdhcSendCmdWait at hwait ⊢
      obtain ⟨s₁, hsend, hwait⟩ := bind_eq_ok hwait
      refine ⟨-1, s', ?_, by decide⟩
      rw [hsend, ok_bind, waitComplete_append hwait]
      exact waitComplete_failed
        (hF.pending c (List.mem_cons_self ..)) hrun hfailed
    · intro hcb
      exact absurd hcb hK.cb

-- ============================================================== samples

/-- A command that times out while its caller waits. -/
theorem errors_reported_sample :
    ∃ s, run (step false) (idleHost statusCmd) [.send 1 none] = some s
      ∧ Reported false [] s 1 (irqOf (mask intStatusCtoe)) := by
  have hany : (run (step false) (idleHost statusCmd)
      [.send 1 none]).any (fun s => decide (s.cmdListHead = some 1
        ∧ (s.cmds 1).cb = none)) = true := by decide +kernel
  obtain ⟨s, hrun, hbool⟩ := (Option.any_eq_true ..).1 hany
  obtain ⟨hhead, hcb⟩ := of_decide_eq_true hbool
  have hs : Reachable Init (step false) anyStep s :=
    (Reachable.init (idleHost_init statusCmd)).run hrun
  refine ⟨s, hrun,
    (errors_reported hs hhead ?_ ?_ ?_).2 ⟨?_, ?_, ?_, ?_⟩⟩
  · exact ⟨intStatusCtoe, by decide, by decide⟩
  · intro d hd
    cases hd
  · exact List.nodup_nil
  · rw [hcb]
    decide
  · decide
  · intro hcc
    exact absurd hcc (by decide)
  · intro hpio
    exact absurd hpio (by
      unfold wantsPio
      decide)

/-- A read of one block. -/
def blockCmd : MmcCmd :=
  { statusCmd with
    index := mmcReadSingleBlock
    data := some ⟨0, some fun _ => 0, 512, 1⟩ }

/-- The transfer times out, and it is reported as done with all its 512
bytes. -/
theorem failed_read_reported_done :
    ∃ s s', run (step false) (idleHost blockCmd) [.send 1 (some .blockop)]
        = some s
      ∧ s.cmdListHead = some 1 ∧ hasError (mask intStatusDtoe)
      ∧ step false s (.irq (irqOf (mask intStatusDtoe)) []) = some s'
      ∧ s'.reported = [(1, 0, 512)]
      ∧ ¬Reported false [] s 1 (irqOf (mask intStatusDtoe)) := by
  have hany : (run (step false) (idleHost blockCmd)
      [.send 1 (some .blockop)]).any (fun s =>
        decide (s.cmdListHead = some 1
          ∧ (s.cmds 1).cb = some .blockop ∧ s.reported = [])
        && (step false s (.irq (irqOf (mask intStatusDtoe)) [])).any
          fun s' => decide (s'.reported = [(1, 0, 512)])) = true := by
    decide +kernel
  obtain ⟨s, hrun, hbool⟩ := (Option.any_eq_true ..).1 hany
  rw [Bool.and_eq_true, decide_eq_true_eq] at hbool
  obtain ⟨⟨hhead, hcb, hnil⟩, hany'⟩ := hbool
  obtain ⟨s', hstep, hrep⟩ := (Option.any_eq_true ..).1 hany'
  rw [decide_eq_true_eq] at hrep
  refine ⟨s, s', hrun, hhead, ⟨intStatusDtoe, by decide, by decide⟩,
    hstep, hrep, ?_⟩
  intro hR
  have hirq : sdhcHandleIrq false (sendAll []) s
      (irqOf (mask intStatusDtoe)) = .ok s' := by
    simp only [step, Event.sends, List.map_nil, List.not_mem_nil,
      false_implies, implies_true, List.nodup_nil, and_self, if_true]
      at hstep
    split at hstep
    · rename_i hok
      rw [hok]
      cases hstep
      rfl
    · cases hstep
  obtain ⟨stat, hstat, heq⟩ := hR.blockop hcb s' hirq
  rw [hrep, hnil] at heq
  cases heq

end ProjectsLibs.Sdhc
