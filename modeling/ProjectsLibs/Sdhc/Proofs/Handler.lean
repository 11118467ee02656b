/-
The stages of the interrupt handler, each with what it leaves of the
command at the head: when it returns (`_ok`), and what its return says
about the status word (`_inv`). Put together they say when the handler
returns at all (`handleIrq_ok_iff`), and with it which events are steps
(`step_total`).

# Equivalences

For each stage there is one lemma that says when it gets through,
as an equivalence, with the condition in terms of the status word, of the
command and of `NDEBUG`. A stage is only reached by what the stages in
front of it let through, so the conditions speak of the state behind
those; `midValue` and the congruence lemmas bring them back to the
command as it was when the interrupt came. `Accepts` collects them.

An assertion is compiled out under `NDEBUG`, and the run goes on with
whatever the state is then. The lemmas cover both cases with the same
statement, a disjunction in its hypothesis. What the handler follows
besides its assertions are the command at the head, which a queue has,
and the data and buffer of a transfer; these are in `HasBuffer`.
-/
import ProjectsLibs.Sdhc.Proofs.Queue

namespace ProjectsLibs.Sdhc

open Lib

variable {ndebug : Bool} {s s' : Host} {c : CmdId} {i : Input}

/-- A command and its transfer are as they were, the response apart. -/
structure Holds (c : CmdId) (s s' : Host) : Prop where
  complete : (s'.cmds c).complete = (s.cmds c).complete
  data : (s'.cmds c).data = (s.cmds c).data
  blocks : s'.blocksRemaining = s.blocksRemaining
  portOut : s'.portOut = s.portOut

theorem Holds.refl (s : Host) : Holds c s s := ⟨rfl, rfl, rfl, rfl⟩

/-- An assertion that holds, or is compiled out, lets the run go on. -/
theorem assert_pass {p : Prop} [Decidable p] (h : ndebug = true ∨ p) :
    assert ndebug p = .ok () := by
  unfold assert
  rw [if_pos h]

/-- Behind an assertion one may rely on it, except under `NDEBUG`. -/
theorem assert_inv {p : Prop} [Decidable p] {u : Unit}
    (h : assert ndebug p = .ok u) : ndebug = true ∨ p := by
  unfold assert at h
  split at h
  · assumption
  · cases h

-- =============================================================== errors

/-- Some error bit is set. -/
def hasError (status : UInt32) : Prop := ∃ b ∈ errorBits, has status b

instance (status : UInt32) : Decidable (hasError status) :=
  inferInstanceAs (Decidable (∃ b ∈ errorBits, has status b))

theorem cmds_setComplete (s : Host) (c : CmdId) (v : Int) :
    (s.setComplete c v).cmds c = { s.cmds c with complete := v } :=
  Function.update_self ..

/-- The later of two writes to `complete` counts. -/
theorem setComplete_setComplete (s : Host) (c : CmdId) (v w : Int) :
    (s.setComplete c v).setComplete c w = s.setComplete c w := by
  simp [Host.setComplete, Host.setCmd]

/-- The error bits are tested one after the other; the outcome is that of
one test whether any of them is set. -/
theorem foldl_mark (status : UInt32) (c : CmdId) (bits : List Nat)
    (s : Host) :
    bits.foldl (fun s b => if has status b then s.setComplete c (-1)
        else s) s
      = if ∃ b ∈ bits, has status b = true then s.setComplete c (-1)
        else s := by
  induction bits generalizing s with
  | nil => simp
  | cons b bits ih =>
      rw [List.foldl_cons]
      by_cases hb : has status b = true
      · rw [if_pos hb, ih, setComplete_setComplete, ite_self, if_pos]
        exact ⟨b, List.mem_cons_self .., hb⟩
      · rw [if_neg hb, ih]
        simp [hb]

/-- Any error bit marks the command. -/
theorem markErrors_error (h : hasError i.status) :
    markErrors s c i.status = s.setComplete c (-1) := by
  unfold hasError at h
  unfold markErrors
  rw [foldl_mark, if_pos h]

/-- Without error bits nothing is marked. -/
theorem markErrors_quiet (h : ¬hasError i.status) :
    markErrors s c i.status = s := by
  unfold hasError at h
  unfold markErrors
  rw [foldl_mark, if_neg h]

/-- The mark of a word on a command that was pending. -/
theorem markErrors_complete (hzero : (s.cmds c).complete = 0) :
    ((markErrors s c i.status).cmds c).complete
      = if hasError i.status then -1 else 0 := by
  split
  · next herr => rw [markErrors_error herr, cmds_setComplete]
  · next hquiet => rw [markErrors_quiet hquiet, hzero]

/-- Marking errors leaves the data of the command and the count of
remaining blocks alone. -/
theorem markErrors_same (s : Host) (c : CmdId) (i : Input) :
    ((markErrors s c i.status).cmds c).data = (s.cmds c).data
      ∧ (markErrors s c i.status).blocksRemaining = s.blocksRemaining := by
  by_cases herr : hasError i.status
  · rw [markErrors_error herr, cmds_setComplete]
    exact ⟨rfl, rfl⟩
  · rw [markErrors_quiet herr]
    exact ⟨rfl, rfl⟩

-- ===================================================== command complete

/-- Neither `complete` nor the data is touched by reading a response. -/
theorem readResponse_holds (s : Host) (c : CmdId) (rsp : Nat → UInt32) :
    Holds c s (s.setCmd c fun cmd => readResponse cmd rsp) := by
  have hself : (s.setCmd c fun cmd => readResponse cmd rsp).cmds c
      = readResponse (s.cmds c) rsp := Function.update_self ..
  obtain ⟨-, -, hdata, -, hcomplete⟩ := readResponse_fields (s.cmds c) rsp
  refine ⟨?_, ?_, rfl, rfl⟩
  · rw [hself, hcomplete]
  · rw [hself, hdata]

/-- The transfer of a data command goes on. -/
theorem commandComplete_ok
    (h : has i.status intStatusCc = true → (s.cmds c).data ≠ none) :
    ∃ s', commandComplete ndebug s c i = .ok s' ∧ Holds c s s' := by
  unfold commandComplete
  split
  · rename_i hcc
    have hH := readResponse_holds s c i.rsp
    simp only
    split
    · exact ⟨_, rfl, hH⟩
    · rename_i hnone
      rw [hH.data] at hnone
      exact absurd hnone (h hcc)
  · exact ⟨s, rfl, Holds.refl s⟩

/-- A command without data is complete; any other is as it was. -/
theorem commandComplete_inv (h : commandComplete ndebug s c i = .ok s') :
    (has i.status intStatusCc = true ∧ (s.cmds c).data = none
      ∧ (s'.cmds c).complete = 1) ∨
    ((has i.status intStatusCc = true → (s.cmds c).data ≠ none)
      ∧ Holds c s s') := by
  by_cases hcc : has i.status intStatusCc = true ∧ (s.cmds c).data = none
  · left
    refine ⟨hcc.1, hcc.2, ?_⟩
    unfold commandComplete at h
    rw [if_pos hcc.1] at h
    simp only at h
    split at h
    · rename_i d hd
      rw [(readResponse_holds s c i.rsp).data, hcc.2] at hd
      cases hd
    · obtain ⟨-, -, h⟩ := bind_eq_ok h
      cases h
      rw [cmds_setComplete]
  · right
    have hdata : has i.status intStatusCc = true →
        (s.cmds c).data ≠ none := fun h₁ h₂ => hcc ⟨h₁, h₂⟩
    obtain ⟨s₁, hrun, hH⟩ : ∃ s₁,
        commandComplete ndebug s c i = .ok s₁
        ∧ Holds c s s₁ := commandComplete_ok hdata
    rw [hrun] at h
    cases h
    exact ⟨hdata, hH⟩

/-- The response completes a command without data. -/
def endsByResponse (s : Host) (c : CmdId) (i : Input) : Prop :=
  has i.status intStatusCc = true ∧ (s.cmds c).data = none

instance (s : Host) (c : CmdId) (i : Input) :
    Decidable (endsByResponse s c i) :=
  match h : (s.cmds c).data with
  | none => decidable_of_iff (has i.status intStatusCc = true)
      (by rw [endsByResponse, h]; simp)
  | some _ => isFalse (by rw [endsByResponse, h]; simp)

/-- The stage gets through exactly if a command that it completes is not
marked, or nobody looks. -/
theorem commandComplete_ok_iff :
    (∃ s', commandComplete ndebug s c i = .ok s')
      ↔ (endsByResponse s c i →
        ndebug = true ∨ (s.cmds c).complete = 0) := by
  by_cases hends : endsByResponse s c i
  · obtain ⟨hcc, hnone⟩ := hends
    have hH := readResponse_holds s c i.rsp
    have hzero : ∀ {p : Int → Prop}, p (s.cmds c).complete →
        p ((s.setCmd c fun cmd => readResponse cmd i.rsp).cmds
          c).complete := fun h => hH.complete.symm ▸ h
    unfold commandComplete
    rw [if_pos hcc]
    simp only [hH.data, hnone]
    constructor
    · rintro ⟨s', h⟩ -
      obtain ⟨_, hpass, -⟩ := bind_eq_ok h
      rw [hH.complete] at hpass
      exact assert_inv hpass
    · intro h
      rw [assert_pass ((h ⟨hcc, hnone⟩).imp_right
        (hzero (p := fun v => v = 0))), ok_bind]
      exact ⟨_, rfl⟩
  · refine iff_of_true ?_ fun h => absurd h hends
    obtain ⟨s', h, -⟩ : ∃ s', commandComplete ndebug s c i = .ok s'
        ∧ Holds c s s' :=
      commandComplete_ok fun hcc hnone => hends ⟨hcc, hnone⟩
    exact ⟨s', h⟩

/-- What the stage leaves. -/
theorem commandComplete_same (h : commandComplete ndebug s c i = .ok s') :
    (s'.cmds c).complete
        = (if endsByResponse s c i then 1 else (s.cmds c).complete)
      ∧ (s'.cmds c).data = (s.cmds c).data
      ∧ s'.blocksRemaining = s.blocksRemaining := by
  by_cases hends : endsByResponse s c i
  · have hH := readResponse_holds s c i.rsp
    unfold commandComplete at h
    rw [if_pos hends.1] at h
    simp only [hH.data, hends.2] at h
    obtain ⟨_, -, h⟩ := bind_eq_ok h
    cases h
    rw [if_pos hends, cmds_setComplete]
    exact ⟨rfl, hH.data, hH.blocks⟩
  · rcases commandComplete_inv h with ⟨hcc, hnone, -⟩ | ⟨-, hH⟩
    · exact absurd ⟨hcc, hnone⟩ hends
    · rw [if_neg hends]
      exact ⟨hH.complete, hH.data, hH.blocks⟩

-- ======================================================== programmed IO

/-- A block can be moved, if blocks remain: the command has data, with a
buffer unless the blocks are empty. -/
def HasBuffer (s : Host) (c : CmdId) : Prop :=
  s.blocksRemaining ≠ 0 → ∃ d, (s.cmds c).data = some d
    ∧ (d.blockSize ≠ 0 → d.vbuf.isSome)

/-- The assertions in front of programmed IO hold. -/
def PioAsserts (s : Host) (c : CmdId) : Prop :=
  (∃ d, (s.cmds c).data = some d ∧ d.vbuf.isSome)
    ∧ (s.cmds c).complete = 0

/-- The word asks for programmed IO. -/
def wantsPio (i : Input) : Prop :=
  has i.status intStatusBrr = true ∨ has i.status intStatusBwr = true

/-- Nothing is moved if neither buffer ready bit is set. -/
theorem programmedIo_skip (h : ¬wantsPio i) :
    programmedIo ndebug s c i = .ok s := by
  unfold programmedIo
  rw [if_neg]
  rw [Bool.or_eq_true]
  exact h

/-- The three assertions, one after the other. -/
theorem pioAsserts_pass {α : Type} {x : Except Fault α}
    (h : ndebug = true ∨ PioAsserts s c) :
    (do
      assert ndebug ((s.cmds c).data.isSome)
      assert ndebug ((s.cmds c).data.any fun d => d.vbuf.isSome)
      assert ndebug ((s.cmds c).complete = 0)
      x) = x := by
  have hsome : ndebug = true ∨ (s.cmds c).data.isSome = true :=
    h.imp_right fun h => by
      obtain ⟨⟨d, hd, -⟩, -⟩ := h
      rw [hd]
      rfl
  have hbuf : ndebug = true
      ∨ ((s.cmds c).data.any fun d => d.vbuf.isSome) = true :=
    h.imp_right fun h => by
      obtain ⟨⟨d, hd, hvbuf⟩, -⟩ := h
      rw [hd]
      exact hvbuf
  rw [assert_pass hsome, ok_bind, assert_pass hbuf, ok_bind,
    assert_pass (h.imp_right And.right), ok_bind]

/-- Moving a block does not complete a command. -/
theorem moveData_complete {d : MmcData} (h : moveData s c i d = .ok s') :
    (s'.cmds c).complete = (s.cmds c).complete := by
  unfold moveData at h
  cases hbuf : d.vbuf with
  | none =>
      simp only [hbuf] at h
      split at h
      · cases h
        rfl
      · cases h
  | some buf =>
      simp only [hbuf] at h
      split at h
      · cases h
        rw [cmds_setCmd, if_pos rfl]
      · cases h
        rfl

/-- A block can be moved exactly if there is a buffer for it. -/
theorem moveData_ok_iff (d : MmcData) :
    (∃ s', moveData s c i d = .ok s')
      ↔ (d.blockSize ≠ 0 → d.vbuf.isSome = true) := by
  unfold moveData
  cases hbuf : d.vbuf with
  | none =>
      by_cases hsize : d.blockSize = 0
      · simp [hsize]
      · simp [hsize]
  | some buf =>
      refine iff_of_true ?_ fun _ => rfl
      by_cases hbrr : has i.status intStatusBrr = true
      · simp only [if_pos hbrr]
        exact ⟨_, rfl⟩
      · simp only [if_neg hbrr]
        exact ⟨_, rfl⟩

/-- Programmed IO gets through exactly if its assertions hold or are
compiled out, and the block that is moved has a buffer. -/
theorem programmedIo_ok_iff :
    (∃ s', programmedIo ndebug s c i = .ok s')
      ↔ (wantsPio i → (ndebug = true ∨ PioAsserts s c)
        ∧ HasBuffer s c) := by
  by_cases hpio : wantsPio i
  · unfold programmedIo
    rw [if_pos (by rw [Bool.or_eq_true]; exact hpio)]
    constructor
    · rintro ⟨s', h⟩ -
      obtain ⟨-, -, h⟩ := bind_eq_ok h
      obtain ⟨_, hbuf, h⟩ := bind_eq_ok h
      obtain ⟨_, hzero, h⟩ := bind_eq_ok h
      refine ⟨?_, fun hblocks => ?_⟩
      · by_cases hnd : ndebug = true
        · exact .inl hnd
        · refine .inr ⟨?_, (assert_inv hzero).resolve_left hnd⟩
          have hany := (assert_inv hbuf).resolve_left hnd
          rw [Option.any_eq_true] at hany
          exact hany
      · rw [if_pos hblocks] at h
        cases hdata : (s.cmds c).data with
        | none =>
            rw [hdata] at h
            cases h
        | some d =>
            simp only [hdata] at h
            obtain ⟨s₁, hmove, -⟩ := bind_eq_ok h
            exact ⟨d, rfl, (moveData_ok_iff d).1 ⟨s₁, hmove⟩⟩
    · intro h
      obtain ⟨hasserts, hbuf⟩ := h hpio
      rw [pioAsserts_pass hasserts]
      by_cases hblocks : s.blocksRemaining ≠ 0
      · obtain ⟨d, hdata, hvbuf⟩ := hbuf hblocks
        obtain ⟨s₁, hmove⟩ := (moveData_ok_iff (s := s) (c := c) (i := i)
          d).2 hvbuf
        rw [if_pos hblocks]
        simp only [hdata, hmove, ok_bind]
        exact ⟨_, rfl⟩
      · rw [if_neg hblocks]
        exact ⟨s, rfl⟩
  · rw [programmedIo_skip hpio]
    exact iff_of_true ⟨s, rfl⟩ fun h => absurd h hpio

/-- Nor does programmed IO. -/
theorem programmedIo_complete (h : programmedIo ndebug s c i = .ok s') :
    (s'.cmds c).complete = (s.cmds c).complete := by
  unfold programmedIo at h
  split at h
  · obtain ⟨-, -, h⟩ := bind_eq_ok h
    obtain ⟨-, -, h⟩ := bind_eq_ok h
    obtain ⟨-, -, h⟩ := bind_eq_ok h
    split at h
    · cases hdata : (s.cmds c).data with
      | none =>
          rw [hdata] at h
          cases h
      | some d =>
          simp only [hdata] at h
          obtain ⟨s₁, hmove, h⟩ := bind_eq_ok h
          cases h
          show (s₁.cmds c).complete = _
          exact moveData_complete hmove
    · cases h
      rfl
  · cases h
    rfl

/-- How far a transfer has got: the buffer, the blocks that remain, and
the words written to the data port. -/
structure Progress where
  buf : Nat → UInt32
  blocks : Nat
  out : List UInt32

/-- The block that a word moves. -/
def moveBlock (blockSize : Nat) (t : Progress) (i : Input) : Progress :=
  if t.blocks = 0 then t
  else if has i.status intStatusBrr then
    { t with
      buf := readBlock t.buf i.port blockSize
      blocks := t.blocks - 1 }
  else if has i.status intStatusBwr then
    { t with
      blocks := t.blocks - 1
      out := t.out ++ writeBlock t.buf blockSize }
  else t

/-- The transfer `d` of a command has got to `t`. -/
structure At (s : Host) (c : CmdId) (d : MmcData) (t : Progress) :
    Prop where
  data : (s.cmds c).data = some { d with vbuf := some t.buf }
  blocks : s.blocksRemaining = t.blocks
  portOut : s.portOut = t.out

theorem Holds.at {d : MmcData} {t : Progress} (hH : Holds c s s')
    (hA : At s c d t) : At s' c d t :=
  ⟨hH.data.trans hA.data, hH.blocks.trans hA.blocks,
    hH.portOut.trans hA.portOut⟩

/-- Programmed IO for a command that is not complete. -/
theorem programmedIo_ok {d : MmcData} {t : Progress} (hA : At s c d t)
    (hzero : (s.cmds c).complete = 0) :
    ∃ s', programmedIo ndebug s c i = .ok s'
      ∧ At s' c d (moveBlock d.blockSize t i) := by
  by_cases hpio : wantsPio i
  · unfold programmedIo moveBlock
    rw [if_pos (by rw [Bool.or_eq_true]; exact hpio),
      pioAsserts_pass (.inr ⟨⟨_, hA.data, rfl⟩, hzero⟩), hA.blocks]
    by_cases hblocks : t.blocks = 0
    · rw [if_neg (not_not.2 hblocks), if_pos hblocks]
      exact ⟨s, rfl, hA⟩
    · rw [if_pos hblocks, if_neg hblocks]
      simp only [hA.data, moveData]
      by_cases hbrr : has i.status intStatusBrr = true
      · rw [if_pos hbrr, if_pos hbrr, ok_bind]
        refine ⟨_, rfl, ?_, ?_, hA.portOut⟩
        · simp only [cmds_setCmd, if_true]
        · show s.blocksRemaining - 1 = t.blocks - 1
          rw [hA.blocks]
      · rw [if_neg hbrr, if_neg hbrr, if_pos (hpio.resolve_left hbrr),
          ok_bind]
        refine ⟨_, rfl, hA.data, ?_, ?_⟩
        · show s.blocksRemaining - 1 = t.blocks - 1
          rw [hA.blocks]
        · show s.portOut ++ _ = t.out ++ _
          rw [hA.portOut]
  · have hmove : moveBlock d.blockSize t i = t := by
      unfold moveBlock
      unfold wantsPio at hpio
      rw [not_or] at hpio
      rw [if_neg hpio.1, if_neg hpio.2, ite_self]
    rw [hmove]
    exact ⟨s, programmedIo_skip hpio, hA⟩

-- ======================================================== data complete

/-- Without the transfer complete bit the branch does nothing. -/
theorem dataComplete_skip (h : has i.status intStatusTc = false) :
    dataComplete ndebug s c i = .ok s := by
  unfold dataComplete
  rw [if_neg]
  rw [h]
  decide

/-- With the bit, a command that is still pending is complete. -/
theorem dataComplete_ok (htc : has i.status intStatusTc = true)
    (hzero : (s.cmds c).complete = 0) :
    dataComplete ndebug s c i = .ok (s.setComplete c 1) := by
  unfold dataComplete
  rw [if_pos htc, assert_pass (.inr hzero), ok_bind]

/-- The stage gets through exactly if the command is still pending, or
nobody looks. -/
theorem dataComplete_ok_iff :
    (∃ s', dataComplete ndebug s c i = .ok s')
      ↔ (has i.status intStatusTc = true →
        ndebug = true ∨ (s.cmds c).complete = 0) := by
  cases htc : has i.status intStatusTc with
  | false =>
      rw [dataComplete_skip htc]
      exact iff_of_true ⟨s, rfl⟩ nofun
  | true =>
      unfold dataComplete
      rw [if_pos htc]
      constructor
      · rintro ⟨s', h⟩ -
        obtain ⟨_, hpass, -⟩ := bind_eq_ok h
        exact assert_inv hpass
      · intro h
        rw [assert_pass (h rfl), ok_bind]
        exact ⟨_, rfl⟩

/-- With the bit, `complete` is 1 whatever it was, if the assertion is
passed or compiled out. -/
theorem dataComplete_inv (htc : has i.status intStatusTc = true)
    (h : dataComplete ndebug s c i = .ok s') :
    (s'.cmds c).complete = 1 := by
  unfold dataComplete at h
  rw [if_pos htc] at h
  obtain ⟨-, -, h⟩ := bind_eq_ok h
  cases h
  rw [cmds_setComplete]

-- ============================================================ the handler

/-- What a command that was pending is after a word: complete, failed, or
pending still. The later of the stages decides. -/
def endValue (s : Host) (c : CmdId) (i : Input) : Int :=
  if has i.status intStatusTc = true ∨ endsByResponse s c i then 1
  else if hasError i.status then -1
  else 0

/-- The handler gets through a word, for the command `c` at the head: no
stage completes a command that is marked already, unless the assertions
are compiled out; a block that is to be moved has a buffer; and a block
transfer that is reported has its data. -/
structure Accepts (ndebug : Bool) (s : Host) (c : CmdId) (i : Input) :
    Prop where
  command : endsByResponse s c i → ndebug = true ∨ ¬hasError i.status
  pio : wantsPio i → (ndebug = true
      ∨ (∃ d, (s.cmds c).data = some d ∧ d.vbuf.isSome)
        ∧ ¬hasError i.status)
    ∧ HasBuffer s c
  transfer : has i.status intStatusTc = true → ndebug = true
    ∨ ¬hasError i.status ∧ ¬endsByResponse s c i
  report : endValue s c i ≠ 0 → (s.cmds c).cb = some .blockop →
    (s.cmds c).data.isSome

/-- The state of a command in front of the last stage. -/
def midValue (s : Host) (c : CmdId) (i : Input) : Int :=
  if endsByResponse s c i then 1
  else if hasError i.status then -1
  else 0

/-- Behind the command complete branch a command is pending exactly if
there was no error and the response did not end it. -/
theorem midValue_eq_zero :
    midValue s c i = 0 ↔ ¬hasError i.status ∧ ¬endsByResponse s c i := by
  unfold midValue
  split
  · next hends => simp [hends]
  · next hends =>
      split
      · next herr => simp [herr]
      · next herr => simp [herr, hends]

/-- Whether a response ends a command is decided by its data pointer alone. -/
theorem endsByResponse_congr (h : (s'.cmds c).data = (s.cmds c).data) :
    endsByResponse s' c i ↔ endsByResponse s c i := by
  unfold endsByResponse
  rw [h]

/-- What the buffer ready branch relies on is decided by the data of the
command and the count of remaining blocks. -/
theorem HasBuffer.congr (hdata : (s'.cmds c).data = (s.cmds c).data)
    (hblocks : s'.blocksRemaining = s.blocksRemaining) :
    HasBuffer s' c ↔ HasBuffer s c := by
  unfold HasBuffer
  rw [hdata, hblocks]

/-- The state behind the first two stages. -/
theorem commandComplete_mid (hzero : (s.cmds c).complete = 0)
    (h : commandComplete ndebug (markErrors s c i.status) c i = .ok s') :
    (s'.cmds c).complete = midValue s c i
      ∧ (s'.cmds c).data = (s.cmds c).data
      ∧ s'.blocksRemaining = s.blocksRemaining := by
  obtain ⟨hdata, hblocks⟩ := markErrors_same s c i
  obtain ⟨hcomplete, hdata', hblocks'⟩ := commandComplete_same h
  refine ⟨?_, hdata'.trans hdata, hblocks'.trans hblocks⟩
  rw [hcomplete, markErrors_complete hzero]
  unfold midValue
  simp only [endsByResponse_congr hdata]

/-- The end of the handler gets through exactly if a block transfer that
is reported has its data. -/
theorem finishCmd_ok_iff {s₁ : Host} {done rest : List CmdId}
    {subs : List (CmdId × Option Callback)}
    (hF : Fifo s done (c :: rest)) (hf : Frame c s s₁)
    (hfresh : ∀ d ∈ subs.map Prod.fst, d ∉ s.submitted)
    (hnd : (subs.map Prod.fst).Nodup) :
    (∃ s', finishCmd (sendAll subs) s₁ c = .ok s')
      ↔ ((s₁.cmds c).complete ≠ 0 → (s₁.cmds c).cb = some .blockop →
        (s₁.cmds c).data.isSome) := by
  constructor
  · rintro ⟨s', h⟩ hc hcb
    exact finishCmd_data hc h hcb
  · intro h
    by_cases hc : (s₁.cmds c).complete = 0
    · unfold finishCmd
      rw [if_neg (not_not.2 hc)]
      exact ⟨s₁, rfl⟩
    · obtain ⟨s', hrun, -⟩ := finishCmd_done hF hf hc (h hc) hfresh hnd
      exact ⟨s', hrun⟩

/-- A command does not gain or lose its data in the handler. -/
theorem isSome_data (hf : Frame c s s') :
    (s'.cmds c).data.isSome = (s.cmds c).data.isSome := by
  have hwire := congrArg (fun w => w.2.isSome) hf.wire
  simpa only [MmcCmd.wire, Option.isSome_map] using hwire

/-- The value of `complete` behind the last branch of the handler. -/
theorem dataComplete_complete (h : dataComplete ndebug s c i = .ok s') :
    (s'.cmds c).complete
      = if has i.status intStatusTc = true then 1
        else (s.cmds c).complete := by
  split
  · next htc => exact dataComplete_inv htc h
  · next htc =>
      rw [dataComplete_skip (Bool.not_eq_true _ ▸ htc)] at h
      cases h
      rfl

section queue

variable {done rest : List CmdId} {subs : List (CmdId × Option Callback)}
  (hF : Fifo s done (c :: rest))
  (hfresh : ∀ d ∈ subs.map Prod.fst, d ∉ s.submitted)
  (hnd : (subs.map Prod.fst).Nodup)
include hF hfresh hnd

/-- The handler returns exactly for the words that it accepts. In a queue
nothing else can fail: not the list, and not what a callback sends. -/
theorem handleIrq_ok_iff :
    (∃ s', sdhcHandleIrq ndebug (sendAll subs) s i = .ok s')
      ↔ Accepts ndebug s c i := by
  have hzero := hF.pending c (List.mem_cons_self ..)
  have hdata := (markErrors_same s c i).1
  have hmark := markErrors_complete (i := i) hzero
  have hpend : ((markErrors s c i.status).cmds c).complete = 0
      ↔ ¬hasError i.status := by
    rw [hmark]
    split
    · next herr => simp [herr]
    · next herr => simp [herr]
  unfold sdhcHandleIrq
  rw [hF.linked.head_eq]
  simp only
  constructor
  -- the handler has gone through, so each of its stages has; read off what
  -- each one relied on
  · rintro ⟨s', h⟩
    obtain ⟨s₂, h₂, h⟩ := bind_eq_ok h
    obtain ⟨s₃, h₃, h⟩ := bind_eq_ok h
    obtain ⟨s₄, h₄, h⟩ := bind_eq_ok h
    obtain ⟨hmid, hdata₂, hblocks₂⟩ := commandComplete_mid hzero h₂
    have hmid₃ := (programmedIo_complete h₃).trans hmid
    have hend := dataComplete_complete h₄
    have hframe : Frame c s s₄ := (((markErrors_frame s c i.status).trans
      (commandComplete_frame h₂)).trans (programmedIo_frame h₃)).trans
        (dataComplete_frame h₄)
    constructor
    · intro hends
      exact (commandComplete_ok_iff.1 ⟨s₂, h₂⟩
        ((endsByResponse_congr hdata).2 hends)).imp_right hpend.1
    · intro hpio
      obtain ⟨hasserts, hbuf⟩ := programmedIo_ok_iff.1 ⟨s₃, h₃⟩ hpio
      refine ⟨hasserts.imp_right fun ⟨hbuf, hcomplete⟩ => ⟨?_, ?_⟩,
        (HasBuffer.congr hdata₂ hblocks₂).1 hbuf⟩
      · rwa [hdata₂] at hbuf
      · exact (midValue_eq_zero.1 (hmid ▸ hcomplete)).1
    · intro htc
      exact (dataComplete_ok_iff.1 ⟨s₄, h₄⟩ htc).imp_right
        fun hcomplete =>
        midValue_eq_zero.1 (hmid₃ ▸ hcomplete)
    · intro hend' hcb
      rw [← isSome_data hframe]
      refine (finishCmd_ok_iff hF hframe hfresh hnd).1 ⟨s', h⟩ ?_
        (hframe.cb.trans hcb)
      rw [hend, hmid₃]
      unfold midValue
      unfold endValue at hend'
      split_ifs at hend' ⊢ <;> simp_all
  -- the other way, build the run stage by stage, carrying the value that
  -- `complete` has in between
  · intro hA
    obtain ⟨s₂, h₂⟩ : ∃ s₂, commandComplete ndebug
        (markErrors s c i.status) c i = .ok s₂ :=
      commandComplete_ok_iff.2 fun hends =>
        (hA.command ((endsByResponse_congr hdata).1 hends)).imp_right
          hpend.2
    obtain ⟨hmid, hdata₂, hblocks₂⟩ := commandComplete_mid hzero h₂
    obtain ⟨s₃, h₃⟩ : ∃ s₃,
        programmedIo ndebug s₂ c i = .ok s₃ := by
      refine programmedIo_ok_iff.2 fun hpio => ?_
      obtain ⟨hasserts, hbuf⟩ := hA.pio hpio
      refine ⟨hasserts.imp_right fun ⟨⟨d, hd, hvbuf⟩, herr⟩ =>
        ⟨?_, ?_⟩, (HasBuffer.congr hdata₂ hblocks₂).2 hbuf⟩
      · exact ⟨d, hdata₂.trans hd, hvbuf⟩
      · rw [hmid]
        refine midValue_eq_zero.2 ⟨herr, fun hends => ?_⟩
        rw [hends.2] at hd
        cases hd
    have hmid₃ := (programmedIo_complete h₃).trans hmid
    obtain ⟨s₄, h₄⟩ : ∃ s₄,
        dataComplete ndebug s₃ c i = .ok s₄ :=
      dataComplete_ok_iff.2 fun htc => (hA.transfer htc).imp_right fun h =>
        hmid₃.trans (midValue_eq_zero.2 h)
    have hend := dataComplete_complete h₄
    have hframe : Frame c s s₄ := (((markErrors_frame s c i.status).trans
      (commandComplete_frame h₂)).trans (programmedIo_frame h₃)).trans
        (dataComplete_frame h₄)
    rw [h₂, ok_bind, h₃, ok_bind, h₄, ok_bind]
    refine (finishCmd_ok_iff hF hframe hfresh hnd).2 fun hc hcb => ?_
    rw [isSome_data hframe]
    refine hA.report ?_ (hframe.cb.symm.trans hcb)
    rw [hend, hmid₃] at hc
    unfold midValue at hc
    unfold endValue
    split_ifs at hc ⊢ <;> simp_all

/-- What the command at the head is after a word that is accepted. -/
theorem handleIrq_value
    (h : sdhcHandleIrq ndebug (sendAll subs) s i = .ok s') :
    (s'.cmds c).complete = endValue s c i := by
  have hzero := hF.pending c (List.mem_cons_self ..)
  unfold sdhcHandleIrq at h
  rw [hF.linked.head_eq] at h
  simp only at h
  obtain ⟨s₂, h₂, h⟩ := bind_eq_ok h
  obtain ⟨s₃, h₃, h⟩ := bind_eq_ok h
  obtain ⟨s₄, h₄, h⟩ := bind_eq_ok h
  have hmid := (commandComplete_mid hzero h₂).1
  have hvalue : (s₄.cmds c).complete = endValue s c i := by
    rw [dataComplete_complete h₄, programmedIo_complete h₃, hmid]
    unfold midValue endValue
    split_ifs <;> simp_all
  have hframe : Frame c s s₄ := (((markErrors_frame s c i.status).trans
    (commandComplete_frame h₂)).trans (programmedIo_frame h₃)).trans
      (dataComplete_frame h₄)
  by_cases hc : (s₄.cmds c).complete = 0
  · unfold finishCmd at h
    rw [if_neg (not_not.2 hc)] at h
    cases h
    exact hvalue
  · obtain ⟨s₅, hrun, -, hE⟩ := finishCmd_done hF hframe hc
      (finishCmd_data hc h) hfresh hnd
    rw [hrun] at h
    cases h
    exact hE.complete.trans hvalue

end queue

/-- Commands that are new can be sent in every state of every run, and an
interrupt can be handled unless the command at the head refuses the word
(`Accepts`): no step on the list itself ever fails, and the only NULL
that is ever followed is a missing data segment or buffer. -/
theorem step_total {e : Event}
    (hs : Reachable Init (step ndebug) anyStep s)
    (hfresh : ∀ c ∈ e.sends, c ∉ s.submitted) (hnd : e.sends.Nodup) :
    (∃ s', step ndebug s e = some s')
      ↔ ∀ i subs c, e = .irq i subs → s.cmdListHead = some c →
        Accepts ndebug s c i := by
  obtain ⟨done, queue, hF⟩ := reachable_fifo hs
  unfold step
  rw [if_pos ⟨hfresh, hnd⟩]
  cases e with
  | send c cb =>
      obtain ⟨s', hrun, -⟩ :=
        sdhcSendCmd_ok hF (hfresh c (List.mem_singleton_self c)) cb
      refine iff_of_true ⟨s', ?_⟩ ?_
      · simp only [hrun]
      · intro i subs d he
        cases he
  | irq i subs =>
      -- an interrupt with no command in the list does nothing, so that
      -- only a head can make the handler fail
      cases queue with
      | nil =>
          have hnone : s.cmdListHead = none := hF.linked
          refine iff_of_true ⟨s, ?_⟩ ?_
          · unfold sdhcHandleIrq
            simp only [hnone]
          · intro i subs c _ hc
            rw [hnone] at hc
            cases hc
      | cons c rest =>
          have hhead : s.cmdListHead = some c := hF.linked.head_eq
          have hirq : (∃ s', sdhcHandleIrq ndebug (sendAll subs) s i
              = .ok s') ↔ Accepts ndebug s c i :=
            handleIrq_ok_iff hF hfresh hnd
          constructor
          · rintro ⟨s', h⟩ j subs' d he hd
            cases he
            cases hhead.symm.trans hd
            apply hirq.1
            simp only at h
            split at h
            · next s₁ hrun => exact ⟨s₁, hrun⟩
            · cases h
          · intro hA
            obtain ⟨s', hrun⟩ := hirq.2 (hA i subs c rfl hhead)
            exact ⟨s', by simp only [hrun]⟩

end ProjectsLibs.Sdhc
