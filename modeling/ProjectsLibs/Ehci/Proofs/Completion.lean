/-
Every transaction of the asynchronous schedule is completed once, in runs
that meet the condition `XferOk`: each step keeps the invariant
`XferInv`, and it gives `CompletedOnce`.

# The run

The steps are enqueueing, the controller finishing a descriptor, a pass
of the interrupt handler over the queue heads, cancelling, and adding and
removing queue heads. `XferInv.step` has one case for each of them. The
cases are short: each takes the guard of the step apart and hands its
parts to the lemma about that operation, which Enqueue, Pass, Traffic and
Cancel prove. The invariant has three parts, the layout of the lists, the
history of calls and the progress of the controller, and the lemmas keep
to this order.

Behind the run lemma stand two runs. In the first a request succeeds and
one is cancelled, with freed memory that is not zero. The second is the
one that breaks the condition: the link of a freed descriptor does not
survive, the next packet is freed with it, its memory reads zero, and the
removal of the queue head stops at a NULL before anything calls back for
that packet.
-/
import ProjectsLibs.Ehci.Proofs.Cancel

namespace ProjectsLibs.Ehci

open Lib

variable {s s' : XferHost} {gs : QhId → List Grp} {q : QhId}

-- ================================================================== runs

/-- With no request there is nothing to be shown. -/
theorem XferInit.inv (h : XferInit s) : XferInv s fun _ => [] := by
  have hring : RingInit (xferRing s fun _ => []) :=
    ⟨h.alistTail, h.dbPending, h.linked, h.waiting, h.crashed⟩
  refine ⟨h.crashed, ?_, ?_, ?_⟩
  · constructor
    · exact ⟨[], hring.ringed⟩
    · rw [h.waiting]
      nofun
    · rw [h.waiting]
      exact List.Pairwise.nil
    · rw [h.waiting]
      nofun
    · exact fun _ _ _ => rfl
    · nofun
    · nofun
    · nofun
  · constructor
    · rw [h.destroyed]
      nofun
    · intro q
      rw [h.enqueued q]
      exact List.nodup_nil
    · intro q m _ r hr
      rw [h.enqueued q] at hr
      cases hr
    · intro q r hr
      rw [h.enqueued q] at hr
      cases hr
    · intro id _
      rw [bytesOf, h.finished]
      rfl
    · intro q
      refine ⟨[], [], h.enqueued q, fun _ => rfl, ?_, nofun⟩
      rw [callsOf, h.log]
      simp
  · constructor
    · nofun
    · nofun
    · nofun
    · exact fun _ _ => List.Pairwise.nil

/-- Every step that meets the condition keeps the invariant. -/
theorem XferInv.step (h : XferInv s gs) {op : XferOp} (hok : XferOk s op)
    (hstep : xferStep s op = some s') : ∃ gs', XferInv s' gs' := by
  -- one lemma for each step; the guards of the step give its hypotheses
  cases op with
  | add q =>
      unfold xferStep at hstep
      dsimp only at hstep
      split at hstep
      · next hguard =>
          obtain ⟨-, hl, hw, hd, hfirst⟩ := hguard
          cases hstep
          exact ⟨gs, h.add hl hw hd hfirst⟩
      · cases hstep
  | enqueue q id ep speed xact blocks =>
      unfold xferStep at hstep
      dsimp only at hstep
      split at hstep
      · next hguard =>
          obtain ⟨host', hrun, hG, -⟩ := h.layout.allocEnqueue_eq hguard.2
          obtain ⟨hq, hid, -, -, -, hnew⟩ := hguard.2
          rw [hrun] at hstep
          cases hstep
          refine ⟨addGroup gs q (id, blocks.map Prod.fst), h.running, ?_,
            ?_, ?_⟩
          · exact h.layout.enqueue h.running hq hnew hG
          · exact h.enqueue_history (g := (id, _)) hq hid
          · exact h.enqueue_progress hid hnew hG
      · cases hstep
  | finish q token tdCur overlayNext =>
      unfold xferStep at hstep
      dsimp only at hstep
      cases hcur : current s q with
      | none =>
          rw [hcur] at hstep
          cases hstep
      | some t =>
          rw [hcur] at hstep
          dsimp only at hstep
          split at hstep
          · next hguard =>
              cases hstep
              exact ⟨gs, h.finish hguard.2.1 hcur hguard.2.2 (hok t hcur)⟩
          · cases hstep
  | complete junk =>
      unfold xferStep at hstep
      dsimp only at hstep
      split at hstep
      · obtain ⟨x', gs', hrun, hI, -⟩ :=
          h.complete fun m hm => h.linksStay hok hm
        rw [hrun] at hstep
        cases hstep
        exact ⟨gs', hI⟩
      · cases hstep
  | del q =>
      unfold xferStep at hstep
      dsimp only at hstep
      split at hstep
      · next hguard =>
          obtain ⟨host', hrun, hI⟩ := h.del hguard.2 hok
          rw [hrun] at hstep
          cases hstep
          exact ⟨gs, hI⟩
      · cases hstep
  | doorbell junk =>
      unfold xferStep at hstep
      dsimp only at hstep
      split at hstep
      · rw [h.layout.doorbell_run] at hstep
        cases hstep
        exact ⟨dropGroups gs (dueNow s), h.doorbell⟩
      · cases hstep

/-- What a pass leaves at the front of a queue head is not finished. -/
theorem XferInv.swept_front (h : XferInv s gs) (hq : q ∈ s.linked)
    (hswept : Swept s.xfer gs q) : ∃ done rest, s.enqueued q = done ++ rest
      ∧ callsOf s q = done.map (completed s q)
      ∧ ∀ r ∈ rest.head?, (bytesOf s r.id).length < r.size := by
  have hd : q ∉ s.xfer.destroyed := fun hd => (h.history.gone q hd).1 hq
  obtain ⟨done, henq, hcalls, -⟩ := h.split_enqueued hd
  refine ⟨done, asked (gs q), henq, hcalls, fun r hr => ?_⟩
  rw [asked, List.head?_map, Option.mem_def, Option.map_eq_some_iff] at hr
  obtain ⟨g, hg, rfl⟩ := hr
  show (bytesOf s g.1).length < g.2.length
  rw [h.progress.bytes q hq g (List.mem_of_mem_head? hg)]
  exact doneBytes_of_open (hswept g hg)

/-- What the invariant says about callbacks: one for each request, with the
right status and count. -/
theorem XferInv.completedOnce (h : XferInv s gs) : CompletedOnce s := by
  constructor
  · exact h.running
  · exact h.history.distinct
  · exact h.history.apart
  · intro q
    obtain ⟨done, rest, henq, -, hcalls, hlen⟩ := h.history.calls q
    exact ⟨done, rest, henq, hcalls, hlen⟩
  · intro junk s' hok hstep
    obtain ⟨x', gs', hrun, hI, hswept⟩ :=
      h.complete fun m hm => h.linksStay hok hm
    unfold xferStep at hstep
    dsimp only at hstep
    rw [if_pos h.running, hrun] at hstep
    cases hstep
    exact fun q hq => hI.swept_front hq (hswept q hq)
  · intro junk s' hstep q hq
    unfold xferStep at hstep
    dsimp only at hstep
    rw [if_pos h.running, h.layout.doorbell_run] at hstep
    cases hstep
    by_cases hdue : 1 < countOf s q
    · exact .inl (List.mem_append_right _ (mem_dueNow.2 ⟨hq, hdue⟩))
    · have hkept : q ∈ keptNow s := mem_keptNow.2 ⟨hq, Nat.not_lt.1 hdue⟩
      have hone : countOf s q = 1 := by
        rcases h.layout.counts q hq with hone | htwo
        · exact hone
        · omega
      refine .inr ⟨hkept, hone, ?_⟩
      show ((rungXfer junk s gs).host.qhns q).wasCancelled = 2
      rw [rungXfer_kept hkept]
      exact congrArg (· + 1) hone

/-- The invariant holds in every reachable state. -/
theorem xferInv_of_reachable (h : Reachable XferInit xferStep XferOk s) :
    ∃ gs, XferInv s gs := by
  apply h.invariant
  · exact fun s hs => ⟨_, hs.inv⟩
  · rintro s op s' ⟨gs, hI⟩ hok hstep
    exact hI.step hok hstep

/-- In every run that meets the condition, each transaction is completed
once: when all of its descriptors are finished, in the order of the
transactions, or, if its queue head is destroyed first, as cancelled. -/
theorem completed_once (h : Reachable XferInit xferStep XferOk s) :
    CompletedOnce s := by
  obtain ⟨gs, hI⟩ := xferInv_of_reachable h
  exact hI.completedOnce

/-- A host without queue heads. -/
def emptyXfer : XferHost where
  xfer := ⟨emptyRing.host, [], []⟩
  linked := []
  waiting := []
  enqueued := fun _ => []
  requests := []
  used := []
  owner := fun _ => 0
  finished := []
  crashed := false

theorem emptyXfer_init : XferInit emptyXfer :=
  ⟨rfl, rfl, rfl, rfl, rfl, rfl, fun _ => rfl, rfl, rfl, rfl, rfl⟩

/-- Freed memory of zeros, but for the links of descriptors. -/
def zerosBut (link : TdId → Option TdId) : Junk where
  td := fun t => ⟨false, 0, 0, 0, none, link t⟩
  qh := fun _ => ⟨0, 0, 0, 0, 0, none, 0, 0, none⟩

/-- Two transactions on the first of two queue heads: a control request
with three descriptors, and a packet. The first is finished and completed
and the second is cancelled. -/
def completionRun : List XferOp :=
  [.add 1, .add 2,
    .enqueue 1 10 ⟨.control, 64⟩ .high [⟨.pidSetup, 8⟩,
      ⟨.pidIn, 18⟩]
      [(1, 32), (2, 64), (3, 96)],
    .finish 1 0 32 64,
    .enqueue 1 11 ⟨.bulk, 64⟩ .high [⟨.pidIn, 512⟩] [(4, 128)],
    .complete (zerosBut fun t => if t = 3 then some 4 else none),
    .finish 1 (tdtokBytes 4) 64 96, .finish 1 (mask tdtokIoc) 96 128,
    .complete (zerosBut fun t => if t = 3 then some 4 else none),
    .del 1, .doorbell (zerosBut fun _ => none),
    .doorbell (zerosBut fun _ => none)]

/-- A request that succeeds, and one that is cancelled. -/
theorem completed_once_sample :
    ∃ s, run xferStep emptyXfer completionRun = some s
      ∧ AllSteps xferStep XferOk emptyXfer completionRun
      ∧ callsOf s 1 = [⟨1, 10, .success, 4⟩, ⟨1, 11, .cancelled, 0⟩]
      ∧ CompletedOnce s := by
  have hall : AllSteps xferStep XferOk emptyXfer completionRun := by
    decide +kernel
  have hany : (run xferStep emptyXfer completionRun).any (fun s => decide
      (callsOf s 1 = [⟨1, 10, .success, 4⟩, ⟨1, 11, .cancelled, 0⟩]))
        = true := by
    decide +kernel
  obtain ⟨s, hrun, hcalls⟩ := (Option.any_eq_true _ _).1 hany
  refine ⟨s, hrun, hall, of_decide_eq_true hcalls, ?_⟩
  exact completed_once
    ((Reachable.init emptyXfer_init).run_allSteps hrun hall)

/-- Two packets on the first of two queue heads. The first is finished and
freed, its link does not survive, and the second is freed with it. The
queue head still has the second, whose memory reads as zero: the loop of
`ehci_del_qhn_async` that halts the descriptors reads through its `td`, a
null pointer. -/
def lostRun : List XferOp :=
  [.add 1, .add 2,
    .enqueue 1 10 ⟨.bulk, 64⟩ .high [⟨.pidIn, 512⟩] [(1, 32)],
    .enqueue 1 11 ⟨.bulk, 64⟩ .high [⟨.pidIn, 512⟩] [(2, 64)],
    .finish 1 (mask tdtokIoc) 32 64,
    .complete (zerosBut fun _ => none), .del 1]

/-- The driver stops in the last step of `lostRun`, and the callback of the
second packet was never called. -/
theorem second_transaction_lost :
    ∃ s, Reachable XferInit xferStep anyStep s
      ∧ run xferStep emptyXfer lostRun = some s
      ∧ s.enqueued 1 = [⟨10, 1⟩, ⟨11, 1⟩] ∧ s.crashed = true
      ∧ callsOf s 1 = [⟨1, 10, .success, 0⟩] ∧ ¬CompletedOnce s := by
  have hany : (run xferStep emptyXfer lostRun).any (fun s => decide
      (s.enqueued 1 = [⟨10, 1⟩, ⟨11, 1⟩] ∧ s.crashed = true
        ∧ callsOf s 1 = [⟨1, 10, .success, 0⟩])) = true := by
    decide +kernel
  obtain ⟨s, hrun, hend⟩ := (Option.any_eq_true _ _).1 hany
  obtain ⟨henq, hcrashed, hcalls⟩ := of_decide_eq_true hend
  refine ⟨s, (Reachable.init emptyXfer_init).run hrun, hrun, henq, hcrashed,
    hcalls, fun honce => ?_⟩
  have hrunning := honce.running
  rw [hcrashed] at hrunning
  cases hrunning

end ProjectsLibs.Ehci
