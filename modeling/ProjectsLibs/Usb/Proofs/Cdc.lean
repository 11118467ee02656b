/-
What the reads of the CDC driver return (`reads_stored`): the bytes of
the completions in their order, each completion cut to what the buffer
had room for. `overrun_skips` is a run in which a completion finds the
buffer full.

# The interleavings

A read has parts that a completion can come between: it schedules a
transfer if none is under way, it counts the transfer, and it copies what
the buffer has, one byte at a time. The reader is therefore a state of
its own, and the step relation has the callback as a step that is
possible in any of them.

The invariant is the equation of a queue: what has been returned,
followed by what the buffer holds, is what has been stored. A completion
appends to both sides, a round of the loop moves a byte from the buffer
to what was returned, and nothing else changes either. That
`read_in_progress` counts the transfers is carried along, since it is
what keeps a second transfer from being scheduled. The ring buffer is a
parameter, with the rules of a bounded queue (`Fifo`); the run at the end
uses a list.
-/
import ProjectsLibs.Usb.Cdc

namespace ProjectsLibs.Usb

open Lib
open Ehci (XactStat)

variable {β : Type} {C : CircBuf β} {cap : Nat} {view : β → List UInt8}
  {s s' : Cdc β}

-- ============================================================ the buffer

/-- The callback stores the bytes that there is room for. -/
theorem view_fillBuf (hfifo : Fifo C cap view) (b : β)
    (bytes : List UInt8) :
    view (fillBuf C b bytes)
      = view b ++ bytes.take (cap - (view b).length) := by
  induction bytes generalizing b with
  | nil => simp [fillBuf]
  | cons c cs ih =>
      rw [fillBuf]
      cases hfull : C.isFull b with
      | true =>
          have hle := (hfifo.isFull b).1 hfull
          have hnone : cap - (view b).length = 0 := by omega
          simp [hnone]
      | false =>
          have hlt : (view b).length < cap := by
            by_contra hle
            rw [(hfifo.isFull b).2 (by omega)] at hfull
            cases hfull
          have hroom : cap - (view b).length
              = cap - ((view b).length + 1) + 1 := by
            omega
          have hput := hfifo.put b c hfull
          show view (fillBuf C (C.put b c) cs) = _
          rw [ih, hput, hroom]
          simp

/-- The callback appends what was delivered and drops what the buffer has
no room for. -/
theorem view_usbCdcReadCb (hfifo : Fifo C cap view) (stat : XactStat)
    (buf : Nat → UInt8) (rbytes : Nat) (s : Cdc β) :
    view (usbCdcReadCb C stat buf rbytes s).readBuf
      = view s.readBuf ++ (deliveredBytes stat buf rbytes).take
        (cap - (view s.readBuf).length) := by
  unfold usbCdcReadCb deliveredBytes
  by_cases hstat : stat = .success
  · simp only [if_pos hstat]
    exact view_fillBuf hfifo _ _
  · simp only [if_neg hstat]
    simp

-- ========================================================= the invariant

/-- How far `read_in_progress` is behind the transfers. -/
def Reader.behind : Reader → Int
  | .scheduled _ => 1
  | _ => 0

/-- What is stored is returned or waits in the buffer, and
`read_in_progress` counts the transfers. -/
structure CdcInv (view : β → List UInt8) (s : Cdc β) : Prop where
  queue : s.returned ++ view s.readBuf = s.stored
  progress : s.readInProgress + s.reader.behind = s.outstanding
  one : s.outstanding ≤ 1

/-- Nothing has been delivered and the buffer is empty. -/
theorem CdcInv.start (hfifo : Fifo C cap view) :
    CdcInv view (Cdc.start C) where
  queue := hfifo.new
  progress := rfl
  one := Nat.zero_le 1

/-- A read that begins asks for more bytes and changes nothing else. -/
theorem CdcInv.call (h : CdcInv view s) (len : UInt32)
    (hidle : s.reader = .idle) : CdcInv view (readCall len s) := by
  have hprogress := h.progress
  rw [hidle] at hprogress
  have hbehind : (Reader.idle).behind = 0 := rfl
  unfold readCall
  split
  · next hzero =>
      have hnone : s.outstanding = 0 := by omega
      refine ⟨h.queue, ?_, ?_⟩
      · show s.readInProgress + 1 = ((s.outstanding + 1 : Nat) : Int)
        omega
      · show s.outstanding + 1 ≤ 1
        omega
  · exact ⟨h.queue, hprogress, h.one⟩

/-- The increment counts the transfer that was scheduled; a completion may
have come before it. -/
theorem CdcInv.mark (h : CdcInv view s) {len : Nat}
    (hreader : s.reader = .scheduled len) :
    CdcInv view (readMark len s) := by
  have hprogress := h.progress
  rw [hreader] at hprogress
  exact ⟨h.queue, (add_zero _).trans hprogress, h.one⟩

/-- Each round of the loop moves one byte from the buffer to the caller, in
order. -/
theorem CdcInv.round (hfifo : Fifo C cap view) (h : CdcInv view s)
    {len : Nat} (hreader : s.reader = .draining len) :
    CdcInv view (readRound C len s) := by
  have hprogress := h.progress
  rw [hreader] at hprogress
  unfold readRound
  cases len with
  | zero => exact ⟨h.queue, hprogress, h.one⟩
  | succ len =>
      cases hempty : C.isEmpty s.readBuf with
      | true => exact ⟨h.queue, hprogress, h.one⟩
      | false =>
          refine ⟨?_, hprogress, h.one⟩
          have hqueue := h.queue
          rw [hfifo.get s.readBuf hempty] at hqueue
          show (s.returned ++ [(C.get s.readBuf).1])
            ++ view (C.get s.readBuf).2 = s.stored
          rw [List.append_assoc]
          exact hqueue

/-- A transfer that completes appends its bytes to the queue. -/
theorem CdcInv.complete (hfifo : Fifo C cap view) (h : CdcInv view s)
    (stat : XactStat) (buf : Nat → UInt8) (rbytes : Nat)
    (hout : 0 < s.outstanding) :
    CdcInv view { usbCdcReadCb C stat buf rbytes s with
      outstanding := s.outstanding - 1
      completed := s.completed ++ [⟨deliveredBytes stat buf rbytes,
        cap - (view s.readBuf).length⟩] } := by
  have hone := h.one
  have hprogress := h.progress
  have hcb : (usbCdcReadCb C stat buf rbytes s).returned = s.returned
      ∧ (usbCdcReadCb C stat buf rbytes s).reader = s.reader
      ∧ (usbCdcReadCb C stat buf rbytes s).readInProgress
        = s.readInProgress - 1 := by
    unfold usbCdcReadCb
    split <;> exact ⟨rfl, rfl, rfl⟩
  obtain ⟨hreturned, hreader, hcount⟩ := hcb
  refine ⟨?_, ?_, ?_⟩
  · show (usbCdcReadCb C stat buf rbytes s).returned
      ++ view (usbCdcReadCb C stat buf rbytes s).readBuf
        = (s.completed ++ [_]).flatMap _
    rw [hreturned, view_usbCdcReadCb hfifo, ← List.append_assoc, h.queue,
      List.flatMap_append, List.flatMap_singleton]
    rfl
  · show (usbCdcReadCb C stat buf rbytes s).readInProgress
      + (usbCdcReadCb C stat buf rbytes s).reader.behind
        = ((s.outstanding - 1 : Nat) : Int)
    rw [hcount, hreader]
    omega
  · show s.outstanding - 1 ≤ 1
    omega

/-- Each step of the reader or of the callback keeps the bytes in order. -/
theorem CdcInv.step (hfifo : Fifo C cap view) (h : CdcInv view s)
    {a : CdcAct} (hstep : cdcStep C cap view s a = some s') :
    CdcInv view s' := by
  cases a with
  | call len =>
      unfold cdcStep at hstep
      dsimp only at hstep
      split at hstep
      · next hidle =>
          cases hstep
          exact h.call len hidle
      · cases hstep
  | resume =>
      unfold cdcStep at hstep
      dsimp only at hstep
      split at hstep
      · cases hstep
      · next hreader =>
          cases hstep
          exact h.mark hreader
      · next hreader =>
          cases hstep
          exact h.round hfifo hreader
  | complete stat buf rbytes =>
      unfold cdcStep at hstep
      dsimp only at hstep
      split at hstep
      · next hout =>
          cases hstep
          exact h.complete hfifo stat buf rbytes hout.1
      · cases hstep

/-- The runs of the driver. -/
abbrev CdcReachable (C : CircBuf β) (cap : Nat) (view : β → List UInt8) :
    Cdc β → Prop :=
  Reachable (· = Cdc.start C) (cdcStep C cap view) anyStep

theorem CdcReachable.inv (hfifo : Fifo C cap view)
    (hs : CdcReachable C cap view s) : CdcInv view s := by
  refine Reachable.invariant ?_ ?_ hs
  · rintro _ rfl
    exact .start hfifo
  · intro _ _ _ hinv _ hstep
    exact hinv.step hfifo hstep

/-- Without an overrun everything is stored. -/
theorem stored_eq_delivered
    (h : ∀ c ∈ s.completed, c.bytes.length ≤ c.room) :
    s.stored = s.delivered := by
  unfold Cdc.stored Cdc.delivered
  refine List.flatMap_congr fun c hc => ?_
  exact List.take_of_length_le (h c hc)

/-- The reads return the stored bytes in their order, and those that are
not returned yet wait in the buffer; they are the bytes that the device
delivered when no completion had more than there was room for. There is
at most one transfer at a time. -/
theorem reads_stored (hfifo : Fifo C cap view)
    (hs : CdcReachable C cap view s) :
    s.returned <+: s.stored
      ∧ s.returned ++ view s.readBuf = s.stored
      ∧ ((∀ c ∈ s.completed, c.bytes.length ≤ c.room) →
        s.returned <+: s.delivered)
      ∧ s.outstanding ≤ 1 := by
  have hinv := CdcReachable.inv hfifo hs
  have hpre : s.returned <+: s.stored := ⟨_, hinv.queue⟩
  refine ⟨hpre, hinv.queue, fun hroom => ?_, hinv.one⟩
  rw [← stored_eq_delivered hroom]
  exact hpre

-- ============================================================ an overrun

/-- A buffer of `cap` bytes as a list. -/
def listBuf (cap : Nat) : CircBuf (List UInt8) where
  new := []
  isFull b := decide (cap ≤ b.length)
  isEmpty b := b.isEmpty
  put b c := b ++ [c]
  get b := (b.headD 0, b.tail)

theorem fifo_listBuf (cap : Nat) : Fifo (listBuf cap) cap id where
  new := rfl
  isFull b := decide_eq_true_iff
  isEmpty b := List.isEmpty_iff
  put b c _ := rfl
  get b hempty := by
    cases b with
    | nil => cases hempty
    | cons c cs => rfl

/-- The driver over a list of the size of its buffer. -/
abbrev ListReachable : Cdc (List UInt8) → Prop :=
  CdcReachable (listBuf cdcReadBufferSize) cdcReadBufferSize id

/-- A run from a reachable state ends in one. -/
theorem ListReachable.after {s s' : Cdc (List UInt8)}
    (hs : ListReachable s) (acts : List CdcAct)
    (hrun : Lib.run (cdcStep (listBuf cdcReadBufferSize)
      cdcReadBufferSize id) s acts = some s') : ListReachable s' :=
  Reachable.run hs hrun

/-- A read of 100 bytes behind a completion with one byte. -/
theorem one_byte_read :
    ∃ s, ListReachable s ∧ s.returned = [7] ∧ s.outstanding ≤ 1 := by
  have hs : ListReachable ⟨[], 0, .draining 99, 0, [⟨[7], 4096⟩],
      [7]⟩ :=
    ListReachable.after (.init rfl) [.call 100, .resume,
      .complete .success (fun _ => 7) 127, .resume] rfl
  exact ⟨_, hs, rfl, (reads_stored (fifo_listBuf _) hs).2.2.2⟩

variable {l : List UInt8} {done : List Completed} {out : List UInt8}

/-- A completion with 128 times the byte `c`. -/
theorem reach_complete (c : UInt8)
    (hs : ListReachable ⟨l, 1, .idle, 1, done, out⟩) :
    ListReachable ⟨l ++ (List.replicate 128 c).take (4096 - l.length), 0,
      .idle, 0, done ++ [⟨List.replicate 128 c, 4096 - l.length⟩],
      out⟩ := by
  have hfill := view_fillBuf (fifo_listBuf cdcReadBufferSize) l
    (List.replicate 128 c)
  rw [id, id] at hfill
  rw [← show cdcReadBufferSize = 4096 from rfl, ← hfill]
  exact hs.after [.complete .success (fun _ => c) 0] rfl

/-- The same behind a read of no bytes. -/
theorem reach_fill (c : UInt8)
    (hs : ListReachable ⟨l, 0, .idle, 0, done, out⟩) :
    ListReachable ⟨l ++ (List.replicate 128 c).take (4096 - l.length), 0,
      .idle, 0, done ++ [⟨List.replicate 128 c, 4096 - l.length⟩],
      out⟩ :=
  reach_complete c (hs.after [.call 0, .resume, .resume] rfl)

/-- The loop of a read that asks for more than there is. -/
theorem reach_drain {p : Int} {n o : Nat} (hn : l.length < n)
    (hs : ListReachable ⟨l, p, .draining n, o, done, out⟩) :
    ListReachable ⟨[], p, .idle, o, done, out ++ l⟩ := by
  induction l generalizing n out with
  | nil =>
      obtain ⟨n, rfl⟩ : ∃ m, n = m + 1 := ⟨n - 1, by omega⟩
      rw [List.append_nil]
      exact hs.after [.resume] rfl
  | cons c l ih =>
      rw [List.length_cons] at hn
      obtain ⟨n, rfl⟩ : ∃ m, n = m + 1 := ⟨n - 1, by omega⟩
      rw [← List.singleton_append, ← List.append_assoc]
      refine ih (n := n) (by omega) ?_
      exact hs.after [.resume] rfl

/-- Up to 32 reads of no bytes fill the buffer. -/
theorem reach_fills (k : Nat) (hk : k ≤ 32) :
    ∃ done, ListReachable
        ⟨List.replicate (128 * k) 0, 0, .idle, 0, done, []⟩
      ∧ done.flatMap Completed.bytes = List.replicate (128 * k) 0 := by
  induction k with
  | zero => exact ⟨[], .init rfl, rfl⟩
  | succ k ih =>
      obtain ⟨done, hs, hdone⟩ := ih (by omega)
      have hfill := reach_fill 0 hs
      rw [List.take_of_length_le (by simp; omega),
        List.replicate_append_replicate] at hfill
      refine ⟨_, hfill, ?_⟩
      rw [List.flatMap_append, hdone, List.flatMap_singleton,
        List.replicate_append_replicate]
      rfl

/-- A completion that finds the buffer full, a read of everything, and
the next completion. -/
theorem reach_skip (hl : l.length = 4096)
    (hs : ListReachable ⟨l, 0, .idle, 0, done, []⟩) :
    ∃ buf next, ListReachable ⟨buf, 1, .idle, 1, done ++
        [⟨List.replicate 128 1, 0⟩] ++ [⟨List.replicate 128 2, next⟩],
      l ++ [2]⟩ := by
  have hover := reach_fill 1 hs
  rw [hl, Nat.sub_self, List.take_zero, List.append_nil] at hover
  have hread : ListReachable ⟨l, 1, .draining 4097, 1,
      done ++ [⟨List.replicate 128 1, 0⟩], []⟩ :=
    hover.after [.call 4097, .resume] rfl
  have hnext := reach_complete 2 (reach_drain (by omega) hread)
  have htwos : [] ++ (List.replicate 128 2).take
      (4096 - ([] : List UInt8).length)
      = (2 : UInt8) :: List.replicate 127 2 := rfl
  rw [htwos] at hnext
  exact ⟨_, _, hnext.after [.call 1, .resume, .resume, .resume] rfl⟩

/-- 33 reads of no bytes, then one of everything: the bytes of the last
completion are gone when the next ones are returned. -/
theorem overrun_skips :
    Fifo (listBuf cdcReadBufferSize) cdcReadBufferSize id
      ∧ ∃ s, ListReachable s ∧ ¬s.returned <+: s.delivered := by
  refine ⟨fifo_listBuf _, ?_⟩
  obtain ⟨done, hfull, hdone⟩ := reach_fills 32 le_rfl
  obtain ⟨buf, next, hs⟩ := reach_skip List.length_replicate hfull
  refine ⟨_, hs, ?_⟩
  unfold Cdc.delivered
  dsimp only
  rw [List.flatMap_append, List.flatMap_append, hdone,
    List.append_assoc, List.prefix_append_right_inj,
    List.flatMap_singleton, List.replicate_succ, List.cons_append,
    List.cons_prefix_cons]
  exact fun h => absurd h.1 (by decide)

end ProjectsLibs.Usb
