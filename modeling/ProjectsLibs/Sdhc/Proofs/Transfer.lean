/-
What the controller is told of a block transfer (`transfer_addressed`).

The registers hold the argument and the block count of the command that is
being served, in every state of every run (`Matched`), and neither changes
while the command is in the list. What they are cut off to on the way to
the registers then decides whether the right blocks are transferred.

Whether a call returns at all is a matter of the status words that it polls
(`AllAccepted`, `EndsWell`): there is no timeout, and the handler asserts
what it expects of a word. Both together are the condition (`Orderly`), and
they are needed call by call, not only for some call with these arguments.

# From the argument to the register

A call writes a command, which is sent and waits in the list; when it
gets to the head, its argument and its block count go to the registers.
`Keeps` is the relation between two states in which registers and
commands stay in step, and every operation has it, by its frame. So
between the call and the end of its command the registers hold what the
call has computed, cut off to 32 and to 16 bits.

A block number beyond these bits is therefore another block on the card.
In the other direction the values come out right exactly if they fit, and
the result is the number of bytes if it is an `int`. What a wait returns
is taken from Wait.
-/
import ProjectsLibs.Lib.Words
import ProjectsLibs.Sdhc.Proofs.Blocks
import ProjectsLibs.Sdhc.Proofs.Wait

namespace ProjectsLibs.Sdhc

open Lib

variable {ndebug : Bool} {s s' s₁ : Host} {c : CmdId}

-- ======================================================== the registers

/-- The registers hold what a command asks for. -/
structure Loaded (r : Regs) (wire : UInt32 × Option (Nat × Nat)) :
    Prop where
  arg : r.cmdArg = wire.1
  blkAtt : ∀ size n, wire.2 = some (size, n) →
    r.blkAtt = (UInt32.ofNat size &&& (0xfff : UInt32))
      ||| (UInt32.ofNat n <<< (16 : UInt32))

/-- The registers are those of the command at the head. -/
def Matched (s : Host) : Prop :=
  ∀ c, s.cmdListHead = some c → Loaded s.regs (s.cmds c).wire

/-- The registers go on to match, and what the commands ask for is as it
was. -/
structure Keeps (s s' : Host) : Prop where
  matched : Matched s → Matched s'
  wires : ∀ d, (s'.cmds d).wire = (s.cmds d).wire

namespace Keeps

theorem refl (s : Host) : Keeps s s := ⟨id, fun _ => rfl⟩

theorem trans (h : Keeps s s₁) (h' : Keeps s₁ s') : Keeps s s' :=
  ⟨fun hM => h'.matched (h.matched hM),
    fun d => (h'.wires d).trans (h.wires d)⟩

/-- Neither the head nor the registers have changed. -/
theorem of_same (hhead : s'.cmdListHead = s.cmdListHead)
    (hregs : s'.regs = s.regs)
    (hwires : ∀ d, (s'.cmds d).wire = (s.cmds d).wire) : Keeps s s' := by
  refine ⟨?_, hwires⟩
  intro hM d hd
  rw [hhead] at hd
  rw [hregs, hwires]
  exact hM d hd

/-- What stays within the frame of one command changes nothing about what
goes over the wire. -/
theorem of_frame (h : Frame c s s') : Keeps s s' :=
  of_same h.head h.regs h.wires

/-- A write to one command keeps the wires if that command's wire stays. -/
theorem setCmd {f : MmcCmd → MmcCmd}
    (hf : (f (s.cmds c)).wire = (s.cmds c).wire) :
    Keeps s (s.setCmd c f) := by
  refine of_same rfl rfl ?_
  intro d
  rw [cmds_setCmd]
  split
  · rename_i heq
    rw [heq, hf]
  · rfl

end Keeps

/-- Issuing a command loads the registers. -/
theorem sdhcNextCmd_keeps (h : sdhcNextCmd s = .ok s') :
    Matched s' ∧ s'.cmds = s.cmds := by
  unfold sdhcNextCmd at h
  cases hc : s.cmdListHead with
  | none =>
      rw [hc] at h
      cases h
  | some c =>
      rw [hc] at h
      cases hdata : (s.cmds c).data with
      | none =>
          simp only [hdata] at h
          cases h
          refine ⟨?_, rfl⟩
          intro d hd
          cases hd
          refine ⟨rfl, ?_⟩
          intro size n hn
          simp only [MmcCmd.wire, hdata, Option.map_none] at hn
          cases hn
      | some x =>
          simp only [hdata] at h
          cases h
          refine ⟨?_, rfl⟩
          intro d hd
          cases hd
          refine ⟨?_, ?_⟩
          -- the versions of the controller differ in where the mixer bits
          -- go, not in the argument or the counts
          · by_cases hversion : s.version = 2
            · simp only [if_pos hversion]
              rfl
            · simp only [if_neg hversion]
              rfl
          · intro size n hn
            simp only [MmcCmd.wire, hdata, Option.map_some,
              Option.some.injEq, Prod.mk.injEq] at hn
            rw [← hn.1, ← hn.2]
            by_cases hversion : s.version = 2
            · simp only [if_pos hversion]
              rfl
            · simp only [if_neg hversion]
              rfl

-- ============================================================== sending

/-- Appending a command links it into the list, which no wire depends on. -/
theorem appended_wires (s : Host) (c : CmdId) (cb : Option Callback)
    (d : CmdId) :
    ((appended s c cb).cmds d).wire = (s.cmds d).wire := by
  have hprep : (Function.update s.cmds c (prepared (s.cmds c) cb) d).wire
      = (s.cmds d).wire := by
    rw [Function.update_apply]
    split
    · rename_i heq
      rw [heq]
      rfl
    · rfl
  cases htail : s.cmdListTail with
  | head =>
      rw [appended_first htail]
      exact hprep
  | next p =>
      rw [appended_behind htail]
      rw [← hprep]
      simp only [Function.update_apply]
      by_cases hdp : d = p
      · rw [hdp, if_pos rfl]
        rfl
      · rw [if_neg hdp]

/-- Sending keeps the registers in step with the commands issued. -/
theorem sdhcSendCmd_keeps {cb : Option Callback}
    (h : sdhcSendCmd s c cb = .ok s') : Keeps s s' := by
  rw [sdhcSendCmd_eq] at h
  split at h
  · obtain ⟨hM, hcmds⟩ := sdhcNextCmd_keeps h
    refine ⟨fun _ => hM, ?_⟩
    intro d
    rw [hcmds]
    exact appended_wires s c cb d
  · rename_i hne
    cases h
    cases htail : s.cmdListTail with
    | head =>
        rw [appended_first htail] at hne
        exact absurd rfl hne
    | next p =>
        refine Keeps.of_same ?_ ?_ (appended_wires s c cb)
        · rw [appended_behind htail]
        · rw [appended_behind htail]

theorem sendAll_keeps {subs : List (CmdId × Option Callback)}
    (h : sendAll subs s = .ok s') : Keeps s s' := by
  induction subs generalizing s with
  | nil =>
      cases h
      exact Keeps.refl _
  | cons c subs ih =>
      unfold sendAll at h
      rw [List.foldlM_cons] at h
      obtain ⟨s₁, hrun, h⟩ := bind_eq_ok h
      exact (sdhcSendCmd_keeps hrun).trans (ih h)

-- ========================================================== the handler

/-- Advancing the list issues the next command, with its own registers. -/
theorem advanceList_keeps (h : advanceList s c = .ok s') :
    Keeps s s' := by
  unfold advanceList at h
  split at h
  · cases h
    refine ⟨?_, fun _ => rfl⟩
    intro _ d hd
    cases hd
  · obtain ⟨hM, hcmds⟩ := sdhcNextCmd_keeps h
    refine ⟨fun _ => hM, ?_⟩
    intro d
    rw [hcmds]

/-- A callback changes the host only by what it sends. -/
theorem callCb_keeps {subs : List (CmdId × Option Callback)} {stat : Int}
    (h : callCb (sendAll subs) s c stat = .ok s') : Keeps s s' := by
  unfold callCb at h
  split at h
  · cases h
    exact Keeps.refl _
  · have hlog : Keeps s { s with called := s.called ++ [(c, stat)] } :=
      Keeps.of_same rfl rfl fun _ => rfl
    exact hlog.trans (sendAll_keeps h)
  · obtain ⟨s₁, hrep, h⟩ := bind_eq_ok h
    refine Keeps.trans ?_ (sendAll_keeps h)
    unfold mmcBlockopCompletionCb at hrep
    split at hrep
    · split at hrep
      · cases hrep
      · cases hrep
        exact Keeps.of_same rfl rfl fun _ => rfl
    · cases hrep
      exact Keeps.of_same rfl rfl fun _ => rfl

/-- The whole interrupt handler keeps them in step. -/
theorem sdhcHandleIrq_keeps {subs : List (CmdId × Option Callback)}
    {i : Input} (h : sdhcHandleIrq ndebug (sendAll subs) s i = .ok s') :
    Keeps s s' := by
  cases hc : s.cmdListHead with
  | none =>
      unfold sdhcHandleIrq at h
      rw [hc] at h
      cases h
      exact Keeps.refl _
  | some c =>
      obtain ⟨s₁, hf, hfin⟩ := handleIrq_inv hc h
      refine (Keeps.of_frame hf).trans ?_
      unfold finishCmd at hfin
      split at hfin
      · obtain ⟨s₂, hadv, hfin⟩ := bind_eq_ok hfin
        exact ((advanceList_keeps hadv).trans
          (Keeps.setCmd rfl)).trans (callCb_keeps hfin)
      · cases hfin
        exact Keeps.refl _

/-- One event keeps the registers in step with the commands issued. -/
theorem step_keeps {e : Event} (h : step ndebug s e = some s') :
    Keeps s s' := by
  unfold step at h
  split at h
  · cases e with
    | send c cb =>
        simp only at h
        split at h
        · rename_i hrun
          cases h
          exact sdhcSendCmd_keeps hrun
        · cases h
    | irq i subs =>
        simp only at h
        split at h
        · rename_i hrun
          cases h
          exact sdhcHandleIrq_keeps hrun
        · cases h
  · cases h

/-- The registers match in every reachable state. -/
theorem reachable_matched (hs : Reachable Init (step ndebug) anyStep s) :
    Matched s := by
  refine Reachable.invariant ?_ ?_ hs
  · intro s h c hc
    rw [h.head] at hc
    cases hc
  · intro s e s' hM _ h
    exact (step_keeps h).matched hM

theorem waitComplete_keeps {waits : Waits} {r : Option Int}
    (h : waitComplete ndebug c waits.inputs s = .ok (r, s')) :
    Keeps s s' := by
  induction waits generalizing s with
  | nil =>
      unfold Waits.inputs waitComplete at h
      split at h
      · cases h
        exact Keeps.refl _
      · split at h
        · cases h
          exact Keeps.refl _
        · cases h
          exact Keeps.refl _
  | cons w waits ih =>
      unfold Waits.inputs waitComplete at h
      split at h
      · obtain ⟨s₁, hrun, h⟩ := bind_eq_ok h
        exact (sdhcHandleIrq_keeps hrun).trans (ih h)
      · split at h
        · cases h
          exact Keeps.refl _
        · cases h
          exact Keeps.refl _

-- ============================================================= the call

/-- What a transfer asks for. -/
def transferWire (card : MmcCard) (start : UInt64) (nblocks : Int) :
    UInt32 × Option (Nat × Nat) :=
  (transferArg card start,
    some (mmcBlockSize, (UInt32.ofNat (nblocks % 2 ^ 32).toNat).toNat))

/-- Memory that is not in use is written before a command is sent. -/
theorem Fifo.setFresh {done queue : List CmdId} (hF : Fifo s done queue)
    (hc : c ∉ s.submitted) (f : MmcCmd → MmcCmd) :
    Fifo (s.setCmd c f) done queue := by
  have hother : ∀ d ∈ done ++ queue, (s.setCmd c f).cmds d = s.cmds d := by
    intro d hd
    rw [cmds_setCmd, if_neg]
    intro heq
    rw [heq, ← hF.submitted] at hd
    exact hc hd
  refine ⟨hF.submitted, hF.nodup, ?_, hF.tail, hF.started, ?_, ?_⟩
  · exact hF.linked.congr fun d hd => by
      rw [hother d (List.mem_append_right _ hd)]
  · intro d hd
    rw [hother d (List.mem_append_right _ hd)]
    exact hF.pending d hd
  · intro d hd
    rw [hother d (List.mem_append_left _ hd)]
    exact hF.completed d hd

/-- A command that was never submitted can be filled in freely, since no
register is about it. -/
theorem Matched.setFresh {done queue : List CmdId} (hM : Matched s)
    (hF : Fifo s done queue) (hc : c ∉ s.submitted)
    (f : MmcCmd → MmcCmd) : Matched (s.setCmd c f) := by
  intro d hd
  have hhead : s.cmdListHead = some d := hd
  obtain ⟨rest, hqueue⟩ := hF.eq_cons hhead
  have hne : d ≠ c := by
    intro heq
    apply hc
    rw [← heq, hF.submitted, hqueue]
    simp
  rw [cmds_setCmd, if_neg hne]
  exact hM d hhead

/-- A call has sent its command, and waits from `sent` on. -/
structure Sent (ndebug : Bool) (c : CmdId)
    (wire : UInt32 × Option (Nat × Nat)) (nblocks : Int) (waits : Waits)
    (call : Waits → Except Fault (Return × Host)) (sent : Host) :
    Prop where
  waiting : Waiting c waits sent
  matched : Matched sent
  wire : (sent.cmds c).wire = wire
  call : ∀ w, call w = (do
    match ← waitComplete ndebug c w.inputs sent with
    | (none, s) => .ok (.waits, s)
    | (some ret, s) => .ok (transferResult false nblocks ret, s))

/-- A blocking call whose memory is there. -/
theorem transferData_sent {mem : Allocs} {waits : Waits} (card : MmcCard)
    (start : UInt64) (nblocks : Int) (vbuf : Option (Nat → UInt32))
    (pbuf command : Nat) (hs : Reachable Init (step ndebug) anyStep s)
    (hcmd : mem.cmd = some c) (hdata : mem.data = true)
    (hnew : New s c waits) :
    ∃ sent, sendTransfer card start nblocks vbuf pbuf command s c = .ok sent
      ∧ Sent ndebug c (transferWire card start nblocks) nblocks waits
        (fun w => transferData ndebug mem w card start nblocks vbuf pbuf
          false command s) sent := by
  obtain ⟨done, queue, hF⟩ := reachable_fifo hs
  have hM := reachable_matched hs
  have hc := hnew.self
  obtain ⟨hself, hnd⟩ := List.nodup_cons.1 hnew.nodup
  have hF₁ := hF.setFresh hc
    (mmcCmdNew command (transferArg card start) .r1)
  have hM₁ := hM.setFresh hF hc
    (mmcCmdNew command (transferArg card start) .r1)
  have hF₂ := hF₁.setFresh hc (mmcCmdAddData vbuf pbuf
    (UInt32.ofNat mmcBlockSize) (UInt32.ofNat (nblocks % 2 ^ 32).toNat))
  have hM₂ := hM₁.setFresh hF₁ hc (mmcCmdAddData vbuf pbuf
    (UInt32.ofNat mmcBlockSize) (UInt32.ofNat (nblocks % 2 ^ 32).toNat))
  obtain ⟨sent, hrun, hsent, -⟩ := sdhcSendCmd_ok hF₂ hc none
  have hK := sdhcSendCmd_keeps hrun
  have hmem : c ∈ queue ++ [c] :=
    List.mem_append_right _ (List.mem_singleton.2 rfl)
  refine ⟨sent, hrun, ⟨⟨done, queue ++ [c], hsent, hmem⟩, hnd, ?_⟩,
    hK.matched hM₂, ?_, ?_⟩
  · intro d hd hdsub
    rw [hsent.submitted, ← List.append_assoc, ← hF.submitted,
      List.mem_append, List.mem_singleton] at hdsub
    rcases hdsub with hold | rfl
    · exact hnew.others d hd hold
    · exact hself hd
  · rw [hK.wires, cmds_setCmd, if_pos rfl, cmds_setCmd, if_pos rfl]
    rfl
  · intro w
    unfold transferData sdhcSendCmdWait
    simp only [hcmd, hdata, hrun, ok_bind]
    rfl

/-- A result that was computed is a value or a fault; it does not wait. -/
theorem transferResult_ne_waits (cb : Bool) (nblocks ret : Int) :
    transferResult cb nblocks ret ≠ .waits := by
  unfold transferResult
  generalize (if cb then (0 : Int) else mmcBlockSize * nblocks) = bytes
  by_cases hrange : -2 ^ 31 ≤ bytes ∧ bytes < 2 ^ 31
  · simp only [if_pos hrange]
    exact Return.noConfusion
  · simp only [if_neg hrange]
    exact Return.noConfusion

namespace Sent

variable {wire : UInt32 × Option (Nat × Nat)} {nblocks : Int} {sent : Host}
  {waits : Waits} {call : Waits → Except Fault (Return × Host)}
  (hS : Sent ndebug c wire nblocks waits call sent)
include hS

/-- The call still waits exactly when the wait does. -/
theorem waits_iff (w : Waits) :
    call w = .ok (.waits, s') ↔
      waitComplete ndebug c w.inputs sent = .ok (none, s') := by
  rw [hS.call]
  constructor
  · intro h
    obtain ⟨⟨r, s₁⟩, hrun, h⟩ := bind_eq_ok h
    cases r with
    | none =>
        cases h
        exact hrun
    | some ret =>
        simp only [Except.ok.injEq, Prod.mk.injEq] at h
        exact absurd h.1 (transferResult_ne_waits _ _ _)
  · intro h
    rw [h]
    rfl

/-- The call returns when the wait does. -/
theorem returns {w : Waits} {r : Return} (h : call w = .ok (r, s'))
    (hr : r ≠ .waits) :
    ∃ ret, waitComplete ndebug c w.inputs sent = .ok (some ret, s')
      ∧ r = transferResult false nblocks ret := by
  rw [hS.call] at h
  obtain ⟨⟨r', s₁⟩, hrun, h⟩ := bind_eq_ok h
  cases r' with
  | none =>
      cases h
      exact absurd rfl hr
  | some ret =>
      cases h
      exact ⟨ret, hrun, rfl⟩

/-- The registers while the command is served. -/
theorem loaded {w : Waits} (h : call w = .ok (.waits, s'))
    (hhead : s'.cmdListHead = some c) : Loaded s'.regs wire := by
  have hK := waitComplete_keeps ((hS.waits_iff w).1 h)
  have hL := hK.matched hS.matched c hhead
  rw [hK.wires, hS.wire] at hL
  exact hL

/-- The words that end the command of a transfer: it has data, so they say
that the transfer is complete or that it failed. -/
theorem endValue_eq {before : Waits} (i : Input)
    (h : waitComplete ndebug c (Waits.inputs before) sent = .ok (none, s₁))
    (hdata : wire.2 ≠ none) :
    endValue s₁ c i = if has i.status intStatusTc = true then 1
      else if hasError i.status then -1 else 0 := by
  have hwire := ((waitComplete_keeps h).wires c).trans hS.wire
  have hnot : ¬endsByResponse s₁ c i := by
    rintro ⟨-, hnone⟩
    rw [MmcCmd.wire, hnone] at hwire
    rw [← hwire] at hdata
    exact hdata rfl
  unfold endValue
  simp only [hnot, or_false]

end Sent

-- ===================================================== the values on wire

/-- The argument is 32 bits wide, so an address beyond is cut off. -/
theorem toNat_transferArg (card : MmcCard) (start : UInt64) :
    (transferArg card start).toNat = cardAddress card start % 2 ^ 32 := by
  unfold transferArg cardAddress
  split
  · exact UInt64.toNat_toUInt32 start
  · rw [UInt64.toNat_toUInt32, UInt64.toNat_mul]
    show start.toNat * 512 % 2 ^ 64 % 2 ^ 32 = start.toNat * 512 % 2 ^ 32
    exact Nat.mod_mod_of_dvd _ (by decide)

/-- The count field has 16 bits. -/
theorem take_blkAtt (size n : Nat) :
    (take 16 16 ((UInt32.ofNat size &&& (0xfff : UInt32))
      ||| (UInt32.ofNat n <<< (16 : UInt32)))).toNat = n % 2 ^ 16 := by
  apply toNat_eq_of_testBit
  · omega
  · intro b hb
    have hval : testBit (UInt32.ofNat n) b = n.testBit b := by
      show (BitVec.ofNat 32 n).getLsbD b = _
      rw [BitVec.getLsbD_ofNat, decide_eq_true hb, Bool.true_and]
    rw [testBit_take _ (by decide) (by decide), testBit_or, testBit_and,
      Nat.testBit_mod_two_pow]
    have hmask : (0xfff : UInt32) = low 12 := rfl
    have hshift : (16 : UInt32) = UInt32.ofNat 16 := rfl
    rw [hmask, hshift, testBit_low (by decide),
      decide_eq_false (show ¬16 + b < 12 by omega), Bool.and_false,
      Bool.false_or]
    by_cases hlow : b < 16
    · rw [testBit_shiftLeft _ (by decide) (by omega),
        decide_eq_true (show 16 ≤ 16 + b by omega), Bool.true_and,
        Nat.add_sub_cancel_left, hval, Bool.and_comm]
    · rw [decide_eq_false hlow, Bool.and_false, Bool.false_and]

section wire

variable {card : MmcCard} {start : UInt64} {nblocks : Int}

/-- What the registers hold while the command of a transfer is served. -/
theorem Loaded.transfer {r : Regs} (h1 : 1 ≤ nblocks)
    (hint : nblocks < 2 ^ 31)
    (h : Loaded r (transferWire card start nblocks)) :
    r.cmdArg.toNat = cardAddress card start % 2 ^ 32
      ∧ (take 16 16 r.blkAtt).toNat = nblocks.toNat % 2 ^ 16 := by
  have hval : (UInt32.ofNat (nblocks % 2 ^ 32).toNat).toNat
      = nblocks.toNat := by
    show (nblocks % 2 ^ 32).toNat % 2 ^ 32 = nblocks.toNat
    omega
  constructor
  · rw [h.arg]
    exact toNat_transferArg card start
  · rw [h.blkAtt _ _ rfl, hval]
    exact take_blkAtt ..

/-- Few enough blocks for the number of bytes to be an `int`. -/
theorem transferResult_value (h1 : 1 ≤ nblocks) (hn : nblocks < 2 ^ 22)
    (ret : Int) :
    transferResult false nblocks ret
      = .value (if ret = 0 then nblocks * mmcBlockSize else ret) := by
  have hrange : -2 ^ 31 ≤ (mmcBlockSize : Int) * nblocks
      ∧ (mmcBlockSize : Int) * nblocks < 2 ^ 31 := by
    unfold mmcBlockSize
    omega
  unfold transferResult
  rw [if_neg Bool.false_ne_true, if_pos hrange, Int.mul_comm]

-- ======================================================== both directions

/-- A word ends the command of a call when it is at the head: it reports an
error, or that the transfer is complete, and then the range has room in the
registers. -/
def EndsWell (ndebug : Bool) (c : CmdId) (waits : Waits) (sent : Host)
    (card : MmcCard) (start : UInt64) (nblocks : Int) : Prop :=
  ∃ before w after s₁, waits = before ++ w :: after
    ∧ waitComplete ndebug c (Waits.inputs before) sent = .ok (none, s₁)
    ∧ s₁.cmdListHead = some c
    ∧ if has w.1.status intStatusTc then InRange card start nblocks
      else hasError w.1.status

/-- What a call needs: a number of bytes that is an `int`, and, once its
command is sent, words that the handler accepts, up to one that ends it
well. A call that gets no memory for its command needs nothing. -/
structure Orderly (ndebug : Bool) (mem : Allocs) (waits : Waits)
    (card : MmcCard) (start : UInt64) (nblocks : Int)
    (vbuf : Option (Nat → UInt32)) (pbuf command : Nat) (s : Host) :
    Prop where
  bytes : mem.cmd ≠ none → nblocks < 2 ^ 22
  polled : ∀ c sent, mem.cmd = some c → mem.data = true →
    sendTransfer card start nblocks vbuf pbuf command s c = .ok sent →
      AllAccepted ndebug c waits sent
        ∧ EndsWell ndebug c waits sent card start nblocks

section call

variable {mem : Allocs} {waits : Waits} {vbuf : Option (Nat → UInt32)}
  {pbuf command : Nat}

/-- Too many blocks for the number of bytes to be an `int`. -/
theorem transferResult_overflow (hn : ¬nblocks < 2 ^ 22) (ret : Int) :
    transferResult false nblocks ret = .overflow := by
  have hrange : ¬(-2 ^ 31 ≤ (mmcBlockSize : Int) * nblocks
      ∧ (mmcBlockSize : Int) * nblocks < 2 ^ 31) := by
    unfold mmcBlockSize
    omega
  unfold transferResult
  rw [if_neg Bool.false_ne_true, if_neg hrange]

/-- Nobody computes a number of bytes that is not an `int` and returns. -/
theorem transferResult_eq_value {ret v : Int}
    (h : transferResult false nblocks ret = .value v) :
    nblocks < 2 ^ 22 := by
  by_contra hn
  rw [transferResult_overflow hn] at h
  cases h

/-- A call that cannot get its memory returns -1, unless it computes the
number of bytes first. -/
theorem transferData_noMemory (ndebug : Bool) (s : Host) (waits : Waits)
    (card : MmcCard) (start : UInt64) (nblocks : Int)
    (vbuf : Option (Nat → UInt32)) (pbuf command : Nat)
    (hdata : mem.data = false) (hcmd : mem.cmd = some c) :
    ∃ s', transferData ndebug mem waits card start nblocks vbuf pbuf false
      command s = .ok (transferResult false nblocks (-1), s') := by
  unfold transferData
  simp only [hcmd, hdata]
  exact ⟨_, rfl⟩

/-- A call that gets its memory does what it should exactly if its bytes
are an `int`, its words are accepted and one of them ends it well. -/
theorem Sent.addressed_iff {sent : Host}
    {call : Waits → Except Fault (Return × Host)}
    (hS : Sent ndebug c (transferWire card start nblocks) nblocks waits call
      sent) (h1 : 1 ≤ nblocks) (hint : nblocks < 2 ^ 31)
    (hcmd : mem.cmd = some c) :
    AddressedOrFails call mem waits card start nblocks
      ↔ nblocks < 2 ^ 22 ∧ AllAccepted ndebug c waits sent
        ∧ EndsWell ndebug c waits sent card start nblocks := by
  constructor
  · intro hA
    obtain ⟨v, s', hcall⟩ := hA.returns
    obtain ⟨ret, hwait, hret⟩ := hS.returns hcall nofun
    have hn := transferResult_eq_value hret.symm
    obtain ⟨before, w, after, s₁, hsplit, hbefore, hhead, hne, hval⟩ :=
      waitComplete_served hS.waiting hwait
    refine ⟨hn, (waitComplete_ok_iff hS.waiting).1 ⟨_, hwait⟩, before, w,
      after, s₁, hsplit, hbefore, hhead, ?_⟩
    rw [hS.endValue_eq w.1 hbefore nofun] at hne hval
    split
    · next htc =>
        -- the call returns the bytes, so the range is in the registers
        rw [if_pos htc] at hval
        rw [hval, transferResult_value h1 hn] at hret
        cases hret
        obtain ⟨-, d, hd, hserved⟩ := hA.addressed _ s' hcall (by
          show 0 ≤ nblocks * (mmcBlockSize : Int)
          exact Int.mul_nonneg (by omega) (by decide))
        cases hcmd.symm.trans hd
        obtain ⟨before, after, s₂, hsplit, hcall₂, hhead₂⟩ :=
          hserved.someTime
        obtain ⟨harg, hcount⟩ :=
          hserved.programmed before after s₂ hsplit hcall₂ hhead₂
        obtain ⟨harg', hcount'⟩ :=
          (hS.loaded hcall₂ hhead₂).transfer h1 hint
        rw [harg] at harg'
        rw [hcount] at hcount'
        constructor
        · rw [harg']
          exact Nat.mod_lt _ (by decide)
        · omega
    · next htc =>
        rw [if_neg htc] at hne
        by_contra herr
        exact hne (if_neg herr)
  · rintro ⟨hn, hall, before, w, after, s₁, hsplit, hbefore, hhead, hend⟩
    have hok := (waitComplete_ok_iff hS.waiting).2 hall
    have hvalue := hS.endValue_eq w.1 hbefore nofun
    have hne : endValue s₁ c w.1 ≠ 0 := by
      rw [hvalue]
      split
      · decide
      · next htc =>
          rw [if_neg htc] at hend
          rw [if_pos hend]
          decide
    subst hsplit
    obtain ⟨s', hwait⟩ :=
      waitComplete_ends hS.waiting hok hbefore hhead hne
    have hcall : call (before ++ w :: after) = .ok (.value
        (if waitResult (endValue s₁ c w.1) = 0 then nblocks * mmcBlockSize
          else waitResult (endValue s₁ c w.1)), s') := by
      rw [hS.call, hwait, ← transferResult_value h1 hn]
      rfl
    refine ⟨⟨_, s', hcall⟩, ?_⟩
    intro v s₂ hcall₂ hv
    rw [hcall] at hcall₂
    cases hcall₂
    by_cases htc : has w.1.status intStatusTc = true
    · rw [if_pos htc] at hvalue hend
      rw [hvalue]
      refine ⟨rfl, c, hcmd, ⟨before, w :: after, s₁, rfl,
        (hS.waits_iff before).2 hbefore, hhead⟩, ?_⟩
      intro before₂ after₂ s₂ _ hcall₂ hhead₂
      obtain ⟨harg, hcount⟩ :=
        (hS.loaded hcall₂ hhead₂).transfer h1 hint
      have hcount₂ := hend.count
      exact ⟨harg.trans (Nat.mod_eq_of_lt hend.address),
        hcount.trans (Nat.mod_eq_of_lt (by omega))⟩
    · rw [if_neg htc] at hvalue hend
      rw [hvalue, if_pos hend] at hv
      exact absurd (show (0 : Int) ≤ -1 from hv) (by decide)

/-- Both directions, for a command of any index. -/
theorem addressed_iff_orderly (command : Nat) (h1 : 1 ≤ nblocks)
    (hint : nblocks < 2 ^ 31) (hs : Reachable Init (step ndebug) anyStep s)
    (hnew : ∀ c, mem.cmd = some c → New s c waits) :
    AddressedOrFails (fun w => transferData ndebug mem w card start nblocks
        vbuf pbuf false command s) mem waits card start nblocks
      ↔ Orderly ndebug mem waits card start nblocks vbuf pbuf command
        s := by
  -- the calls without memory return an error before anything is sent
  cases hcmd : mem.cmd with
  | none =>
      have hcall : transferData ndebug mem waits card start nblocks vbuf pbuf
          false command s = .ok (.value (-1), s) := by
        unfold transferData
        rw [hcmd]
      refine iff_of_true ⟨⟨_, _, hcall⟩, ?_⟩ ⟨?_, ?_⟩
      · intro v s' h hv
        cases hcall.symm.trans h
        exact absurd hv (by decide)
      · exact fun h => absurd hcmd h
      · intro c sent h
        rw [hcmd] at h
        cases h
  | some c =>
      cases hdata : mem.data with
      | false =>
          obtain ⟨s₁, hcall⟩ := transferData_noMemory ndebug s waits card
            start nblocks vbuf pbuf command hdata hcmd
          constructor
          · intro hA
            obtain ⟨v, s', h⟩ := hA.returns
            have hval : transferResult false nblocks (-1) = .value v := by
              have heq := hcall.symm.trans h
              simp only [Except.ok.injEq, Prod.mk.injEq] at heq
              exact heq.1
            refine ⟨fun _ => transferResult_eq_value hval, ?_⟩
            intro c sent _ hmem
            rw [hdata] at hmem
            cases hmem
          · intro hO
            have hn := hO.bytes (by rw [hcmd]; nofun)
            rw [transferResult_value h1 hn] at hcall
            refine ⟨⟨_, _, hcall⟩, ?_⟩
            intro v s' h hv
            cases hcall.symm.trans h
            exact absurd (show (0 : Int) ≤ -1 from hv) (by decide)
      | true =>
          -- with memory the command is sent; the outcome is that of the
          -- polling
          obtain ⟨sent, hsend, hS⟩ := transferData_sent card start nblocks
            vbuf pbuf command hs hcmd hdata (hnew c hcmd)
          rw [hS.addressed_iff h1 hint hcmd]
          constructor
          · rintro ⟨hn, hpolled⟩
            refine ⟨fun _ => hn, ?_⟩
            intro d sent' hd _ hsend'
            cases hcmd.symm.trans hd
            cases hsend.symm.trans hsend'
            exact hpolled
          · intro hO
            exact ⟨hO.bytes (by rw [hcmd]; nofun),
              hO.polled c sent hcmd hdata hsend⟩

/-- A transfer without a callback transfers the blocks that it was asked
for or fails exactly if it goes in order: in any state of the driver,
whatever the controller and the memory make of it. -/
theorem transfer_addressed (h1 : 1 ≤ nblocks) (hint : nblocks < 2 ^ 31)
    (hs : Reachable Init (step ndebug) anyStep s)
    (hnew : ∀ c, mem.cmd = some c → New s c waits) :
    (AddressedOrFails (fun w => mmcBlockRead ndebug mem w card start nblocks
        vbuf pbuf false s) mem waits card start nblocks
      ↔ Orderly ndebug mem waits card start nblocks vbuf pbuf
        mmcReadSingleBlock s) ∧
    (AddressedOrFails (fun w => mmcBlockWrite ndebug mem w card start
        nblocks vbuf pbuf false s) mem waits card start nblocks
      ↔ Orderly ndebug mem waits card start nblocks vbuf pbuf
        mmcWriteBlock s) :=
  ⟨addressed_iff_orderly mmcReadSingleBlock h1 hint hs hnew,
    addressed_iff_orderly mmcWriteBlock h1 hint hs hnew⟩

end call

end wire

-- ============================================================== samples

/-- The controller reports at once that the transfer is complete. -/
def doneAtOnce : Waits := [(irqOf (mask intStatusTc), [])]

/-- Command 1 on a host on which nothing has been sent. -/
theorem new_idle : ∀ c, (⟨some 1, true, true⟩ : Allocs).cmd = some c →
    New (idleHost statusCmd) c doneAtOnce := by
  rintro c ⟨⟩
  exact ⟨List.not_mem_nil, List.nodup_singleton 1,
    fun _ _ => List.not_mem_nil⟩

/-- The last block of a card of 2 TiB. -/
theorem transfer_addressed_sample :
    AddressedOrFails (fun w => mmcBlockRead false ⟨some 1, true, true⟩ w
        ⟨true⟩ 4294967295 1 (some fun _ => 0) 0 false (idleHost statusCmd))
      ⟨some 1, true, true⟩ doneAtOnce ⟨true⟩ 4294967295 1 := by
  refine (transfer_addressed (by decide) (by decide)
    (Reachable.init (idleHost_init statusCmd)) new_idle).1.2 ⟨?_, ?_⟩
  · intro _
    decide
  · rintro c sent ⟨⟩ - hsend
    have hhead : sent.cmdListHead = some 1 := by
      cases hsend
      rfl
    have hpolls : waitComplete false 1 (Waits.inputs []) sent
        = .ok (none, sent) := by
      cases hsend
      rfl
    refine ⟨?_, [], _, [], sent, rfl, hpolls, hhead, ?_⟩
    · intro before w after s₁ hsplit hwait d hd
      cases before with
      | nil =>
          cases hsplit
          exact ⟨fun h => absurd h.1 (by decide),
            fun h => absurd h (by unfold wantsPio; decide),
            fun _ => .inr ⟨by decide, fun h => absurd h.1 (by decide)⟩, by
              cases hpolls.symm.trans hwait
              cases hhead.symm.trans hd
              cases hsend
              intro _ _
              rfl⟩
      | cons x before => cases before <;> cases hsplit
    · rw [if_pos (by decide)]
      exact ⟨by decide, by decide⟩

/-- The block after it: the call returns 512, with block 0 read. -/
theorem block_past_2TiB_reads_block_0 :
    ∃ s, mmcBlockRead false ⟨some 1, true, true⟩ doneAtOnce ⟨true⟩
        4294967296 1 (some fun _ => 0) 0 false (idleHost statusCmd)
          = .ok (.value 512, s)
      ∧ s.regs.cmdArg = 0 ∧ (take 16 16 s.regs.blkAtt).toNat = 1
      ∧ ¬AddressedOrFails (fun w =>
        mmcBlockRead false ⟨some 1, true, true⟩
          w ⟨true⟩ 4294967296 1 (some fun _ => 0) 0 false
            (idleHost statusCmd))
        ⟨some 1, true, true⟩ doneAtOnce ⟨true⟩ 4294967296 1 := by
  have hrun : (mmcBlockRead false ⟨some 1, true, true⟩ doneAtOnce ⟨true⟩
      4294967296 1 (some fun _ => 0) 0 false (idleHost statusCmd)
        |>.toOption.map fun (r, s) =>
          (r, s.regs.cmdArg, (take 16 16 s.regs.blkAtt).toNat))
      = some (.value 512, 0, 1) := by
    decide +kernel
  obtain ⟨⟨r, s⟩, hs, hr⟩ := Option.map_eq_some_iff.1 hrun
  simp only [Prod.mk.injEq] at hr
  obtain ⟨rfl, harg, hcount⟩ := hr
  have hcall : mmcBlockRead false ⟨some 1, true, true⟩ doneAtOnce ⟨true⟩
      4294967296 1 (some fun _ => 0) 0 false (idleHost statusCmd)
        = .ok (.value 512, s) := by
    generalize mmcBlockRead false _ _ _ _ _ _ _ _ _ = y at hs
    cases y with
    | error e => cases hs
    | ok x => exact congrArg _ (Option.some.inj hs)
  refine ⟨s, hcall, harg, hcount, fun hA => ?_⟩
  -- no register of 32 bits holds the address of the block
  obtain ⟨-, c, -, hserved⟩ := hA.addressed 512 s hcall (by decide)
  obtain ⟨before, after, s₁, hsplit, hpolls, hhead⟩ := hserved.someTime
  have harg₁ := (hserved.programmed before after s₁ hsplit hpolls hhead).1
  have hlt := s₁.regs.cmdArg.toNat_lt
  rw [harg₁] at hlt
  exact absurd hlt (by decide)

end ProjectsLibs.Sdhc
