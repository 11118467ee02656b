/-
Transfers of several blocks by programmed IO (`transfer_whole`).

The handler moves each block to or from the start of the buffer. A read
leaves the last block there and nothing behind it, and a write sends the
first block over and over; with one block that is the whole buffer.

# From the interrupt to the transfer

The lemmas of Handler say what one word does. A word that raises a ready
bit moves a block and leaves the command pending; the word that raises
transfer complete ends it. A transfer is therefore an induction over its
words, whose invariant is how far it has got, and what it amounts to is a
fold over the blocks (`moveAll`).

For a read the fold overwrites the same words each time, so the last
block is left; for a write it is the same block each time. The rest is
about lists: a buffer holds its blocks in order exactly if each of its
words is the one expected there, and comparing this with what the fold
leaves gives the condition on the data.
-/
import Mathlib.Data.List.Flatten
import ProjectsLibs.Sdhc.Proofs.Handler

namespace ProjectsLibs.Sdhc

open Lib

variable {s s' : Host} {c : CmdId} {i : Input}
  {done rest : List CmdId} {d : MmcData} {t : Progress}
  {subs : List (CmdId × Option Callback)}

-- ======================================================== one interrupt

/-- The stages of the handler before the transfer is complete. -/
theorem stages_quiet (ndebug : Bool) (hF : Fifo s done (c :: rest))
    (hA : At s c d t) (hquiet : ¬hasError i.status) :
    ∃ s₁ s₂,
      commandComplete ndebug (markErrors s c i.status) c i = .ok s₁
      ∧ programmedIo ndebug s₁ c i = .ok s₂ ∧ Frame c s s₂
      ∧ (s₂.cmds c).complete = 0
      ∧ At s₂ c d (moveBlock d.blockSize t i) := by
  have hzero := hF.pending c (List.mem_cons_self ..)
  rw [markErrors_quiet hquiet]
  obtain ⟨s₁, h₁, hH⟩ : ∃ s₁,
      commandComplete ndebug s c i = .ok s₁
      ∧ Holds c s s₁ := by
    apply commandComplete_ok
    intro _ hnone
    rw [hA.data] at hnone
    cases hnone
  have hzero₁ := hH.complete.trans hzero
  obtain ⟨s₂, h₂, hA₂⟩ : ∃ s₂,
      programmedIo ndebug s₁ c i = .ok s₂
      ∧ At s₂ c d (moveBlock d.blockSize t i) :=
    programmedIo_ok (hH.at hA) hzero₁
  exact ⟨s₁, s₂, h₁, h₂,
    (commandComplete_frame h₁).trans (programmedIo_frame h₂),
    (programmedIo_complete h₂).trans hzero₁, hA₂⟩

/-- A word that does not end the transfer. -/
theorem handleIrq_running (ndebug : Bool) (hF : Fifo s done (c :: rest))
    (hA : At s c d t) (hquiet : ¬hasError i.status)
    (htc : has i.status intStatusTc = false) :
    ∃ s', step ndebug s (.irq i []) = some s'
      ∧ Fifo s' done (c :: rest) ∧ s'.submitted = s.submitted
      ∧ At s' c d (moveBlock d.blockSize t i) := by
  obtain ⟨s₁, s₂, h₁, h₂, hf, hzero, hA₂⟩ :=
    stages_quiet ndebug hF hA hquiet
  refine ⟨s₂, ?_, hF.frame hf hzero, hf.submitted, hA₂⟩
  have hrun : sdhcHandleIrq ndebug (sendAll []) s i = .ok s₂ := by
    unfold sdhcHandleIrq
    rw [hF.linked.head_eq]
    simp only [h₁, ok_bind, h₂, dataComplete_skip htc]
    unfold finishCmd
    rw [if_neg (not_not.2 hzero)]
  simp [step, Event.sends, hrun]

/-- The word that ends the transfer. -/
theorem handleIrq_last (ndebug : Bool) (hF : Fifo s done (c :: rest))
    (hA : At s c d t) (hquiet : ¬hasError i.status)
    (htc : has i.status intStatusTc = true)
    (hfresh : ∀ d ∈ subs.map Prod.fst, d ∉ s.submitted)
    (hnd : (subs.map Prod.fst).Nodup) :
    ∃ s', step ndebug s (.irq i subs) = some s'
      ∧ (s'.cmds c).complete = 1
      ∧ (s'.cmds c).data = some { d with
          vbuf := some (moveBlock d.blockSize t i).buf }
      ∧ s'.portOut = (moveBlock d.blockSize t i).out := by
  obtain ⟨s₁, s₂, h₁, h₂, hf, hzero, hA₂⟩ :=
    stages_quiet ndebug hF hA hquiet
  have hself := cmds_setComplete s₂ c 1
  -- `complete` is set, so the command leaves the list and is called back
  obtain ⟨s', hfin, -, hE⟩ := finishCmd_done hF
    (hf.trans (Frame.setComplete 1))
    (by
      rw [hself]
      exact one_ne_zero)
    (by
      intro _
      rw [hself, hA₂.data]
      rfl) hfresh hnd
  have hrun : sdhcHandleIrq ndebug (sendAll subs) s i = .ok s' := by
    unfold sdhcHandleIrq
    rw [hF.linked.head_eq]
    simp only [h₁, ok_bind, h₂, dataComplete_ok htc hzero]
    exact hfin
  refine ⟨s', ?_, ?_, ?_, ?_⟩
  · have hok : (∀ c ∈ (Event.irq i subs).sends, c ∉ s.submitted)
        ∧ (Event.irq i subs).sends.Nodup := ⟨hfresh, hnd⟩
    unfold step
    rw [if_pos hok]
    simp only [hrun]
  · rw [hE.complete, hself]
  · rw [hE.data, hself, hA₂.data]
  · rw [hE.portOut]
    exact hA₂.portOut

-- ======================================================= whole transfers

/-- The interrupts of a transfer of `n` blocks: the controller is ready
for each of them once, and then the transfer is complete. -/
structure Transfer (ready other n : Nat) (before : List Input)
    (last : Input) : Prop where
  quiet : ∀ i ∈ before ++ [last], ¬hasError i.status
  one_way : ∀ i ∈ before ++ [last], has i.status other = false
  running : ∀ i ∈ before, has i.status intStatusTc = false
  ends : has last.status intStatusTc = true
  count : (before ++ [last]).countP (fun i => has i.status ready) = n

/-- The interrupts as events; `subs` is what the callback sends. -/
def events (before : List Input) (last : Input)
    (subs : List (CmdId × Option Callback)) : List Event :=
  before.map (fun i => Event.irq i []) ++ [.irq last subs]

/-- The blocks that several words move. -/
def moveAll (blockSize : Nat) (t : Progress) (inputs : List Input) :
    Progress :=
  inputs.foldl (moveBlock blockSize) t

/-- A transfer is complete after its interrupts, and each of them has
moved its block. -/
theorem run_events (ndebug : Bool) {before : List Input} {last : Input}
    (hF : Fifo s done (c :: rest)) (hA : At s c d t)
    (hquiet : ∀ i ∈ before ++ [last], ¬hasError i.status)
    (hrunning : ∀ i ∈ before, has i.status intStatusTc = false)
    (hends : has last.status intStatusTc = true)
    (hfresh : ∀ d ∈ subs.map Prod.fst, d ∉ s.submitted)
    (hnd : (subs.map Prod.fst).Nodup) :
    ∃ s', run (step ndebug) s (events before last subs) = some s'
      ∧ (s'.cmds c).complete = 1
      ∧ (s'.cmds c).data = some { d with
          vbuf := some (moveAll d.blockSize t (before ++ [last])).buf }
      ∧ s'.portOut
        = (moveAll d.blockSize t (before ++ [last])).out := by
  -- each interrupt before the last leaves the command at the head with one
  -- more block moved
  induction before generalizing s t with
  | nil =>
      obtain ⟨s', hstep, hrest⟩ := handleIrq_last ndebug hF hA
        (hquiet last (List.mem_cons_self ..)) hends hfresh hnd
      refine ⟨s', ?_, hrest⟩
      simp only [events, List.map_nil, List.nil_append, run, hstep]
  | cons i before ih =>
      obtain ⟨s₁, hstep, hF₁, hsub, hA₁⟩ := handleIrq_running
        ndebug hF hA (hquiet i (List.mem_cons_self ..))
        (hrunning i (List.mem_cons_self ..))
      obtain ⟨s', hrun, hrest⟩ := ih hF₁ hA₁
        (fun j hj => hquiet j (List.mem_cons_of_mem _ hj))
        (fun j hj => hrunning j (List.mem_cons_of_mem _ hj))
        (by
          rw [hsub]
          exact hfresh)
      refine ⟨s', ?_, hrest⟩
      show run (step ndebug) s (.irq i [] :: events before last subs) = _
      simp only [run, hstep]
      exact hrun

-- ============================================== what the blocks add up to

/-- The words of several blocks, one after the other. -/
def inOrder {α : Type} (w : Nat) (g : α → Nat → UInt32) (l : List α) :
    List UInt32 :=
  l.flatMap fun x => (List.range w).map (g x)

/-- A buffer holds several blocks in order exactly if it holds each in
its place. -/
theorem inOrder_eq_iff {α : Type} (w : Nat) (g : α → Nat → UInt32)
    (f : Nat → UInt32) (l : List α) :
    (List.range (l.length * w)).map f = inOrder w g l ↔
      ∀ k x, l[k]? = some x → ∀ j < w, f (k * w + j) = g x j := by
  -- the first block is compared word by word, and the rest with the words
  -- shifted by one block
  induction l generalizing f with
  | nil => simp [inOrder]
  | cons y l ih =>
      have hsplit : (List.range ((y :: l).length * w)).map f
          = (List.range w).map f
            ++ (List.range (l.length * w)).map (fun j => f (w + j)) := by
        rw [List.length_cons, Nat.succ_mul, Nat.add_comm, List.range_add,
          List.map_append, List.map_map]
        rfl
      have hcons : inOrder w g (y :: l)
          = (List.range w).map (g y) ++ inOrder w g l := rfl
      have hlen : ((List.range w).map f).length
          = ((List.range w).map (g y)).length := by simp
      rw [hsplit, hcons, List.append_eq_append_iff_of_size_eq_left hlen, ih,
        List.map_inj_left]
      constructor
      · rintro ⟨hhead, htail⟩ k x hk j hj
        cases k with
        | zero =>
            cases hk
            rw [Nat.zero_mul, Nat.zero_add]
            exact hhead j (List.mem_range.2 hj)
        | succ k =>
            rw [← htail k x hk j hj]
            congr 1
            rw [Nat.succ_mul]
            omega
      · intro h
        constructor
        · intro j hj
          have h₀ := h 0 y rfl j (List.mem_range.1 hj)
          rw [Nat.zero_mul, Nat.zero_add] at h₀
          exact h₀
        · intro k x hk j hj
          rw [← h (k + 1) x hk j hj]
          congr 1
          rw [Nat.succ_mul]
          omega

/-- The words that raise a ready bit. -/
def raising (ready : Nat) (inputs : List Input) : List Input :=
  inputs.filter fun i => has i.status ready

/-- During a read only the read ready bit moves a block, always to the
start of the buffer. -/
theorem moveBlock_read {w : Nat}
    (hother : has i.status intStatusBwr = false)
    (hblocks : has i.status intStatusBrr = true → t.blocks ≠ 0) :
    moveBlock w t i = if has i.status intStatusBrr = true then
      { t with buf := readBlock t.buf i.port w, blocks := t.blocks - 1 }
      else t := by
  by_cases hbrr : has i.status intStatusBrr = true
  · simp [moveBlock, hbrr, hblocks hbrr]
  · simp [moveBlock, hbrr, hother]

/-- During a write only the write ready bit moves a block, always from the
start of the buffer. -/
theorem moveBlock_write {w : Nat}
    (hother : has i.status intStatusBrr = false)
    (hblocks : has i.status intStatusBwr = true → t.blocks ≠ 0) :
    moveBlock w t i = if has i.status intStatusBwr = true then
      { t with blocks := t.blocks - 1, out := t.out ++ writeBlock t.buf w }
      else t := by
  by_cases hbwr : has i.status intStatusBwr = true
  · simp [moveBlock, hbwr, hother, hblocks hbwr]
  · simp [moveBlock, hbwr, hother]

/-- A read fills the start of the buffer again and again. -/
theorem moveAll_read {w : Nat} {inputs : List Input}
    (hother : ∀ i ∈ inputs, has i.status intStatusBwr = false)
    (hcount : (raising intStatusBrr inputs).length ≤ t.blocks) :
    (moveAll w t inputs).buf = (raising intStatusBrr inputs).foldl
      (fun b i => readBlock b i.port w) t.buf := by
  induction inputs generalizing t with
  | nil => rfl
  | cons i inputs ih =>
      have hmem := hother i (List.mem_cons_self ..)
      have hrest := fun j hj => hother j (List.mem_cons_of_mem i hj)
      show (moveAll w (moveBlock w t i) inputs).buf = _
      by_cases hbrr : has i.status intStatusBrr = true
      · have hcons : raising intStatusBrr (i :: inputs)
            = i :: raising intStatusBrr inputs := List.filter_cons_of_pos hbrr
        rw [hcons, List.length_cons] at hcount
        rw [hcons, List.foldl_cons,
          moveBlock_read hmem (fun _ => by omega), if_pos hbrr, ih hrest]
        show (raising intStatusBrr inputs).length ≤ t.blocks - 1
        omega
      · have hcons : raising intStatusBrr (i :: inputs)
            = raising intStatusBrr inputs := List.filter_cons_of_neg hbrr
        rw [hcons] at hcount
        rw [hcons, moveBlock_read hmem (fun h => absurd h hbrr),
          if_neg hbrr, ih hrest hcount]

/-- A write sends the start of the buffer again and again. -/
theorem moveAll_write {w : Nat} {inputs : List Input}
    (hother : ∀ i ∈ inputs, has i.status intStatusBrr = false)
    (hcount : (raising intStatusBwr inputs).length ≤ t.blocks) :
    (moveAll w t inputs).out = t.out ++ inOrder (blockWords w)
      (fun _ => t.buf) (raising intStatusBwr inputs) := by
  induction inputs generalizing t with
  | nil => exact (List.append_nil _).symm
  | cons i inputs ih =>
      have hmem := hother i (List.mem_cons_self ..)
      have hrest := fun j hj => hother j (List.mem_cons_of_mem i hj)
      show (moveAll w (moveBlock w t i) inputs).out = _
      by_cases hbwr : has i.status intStatusBwr = true
      · have hcons : raising intStatusBwr (i :: inputs)
            = i :: raising intStatusBwr inputs := List.filter_cons_of_pos hbwr
        rw [hcons, List.length_cons] at hcount
        rw [hcons, moveBlock_write hmem (fun _ => by omega), if_pos hbwr,
          ih hrest]
        · exact List.append_assoc ..
        · show (raising intStatusBwr inputs).length ≤ t.blocks - 1
          omega
      · have hcons : raising intStatusBwr (i :: inputs)
            = raising intStatusBwr inputs := List.filter_cons_of_neg hbwr
        rw [hcons] at hcount
        rw [hcons, moveBlock_write hmem (fun h => absurd h hbwr),
          if_neg hbwr, ih hrest hcount]

/-- Only the last block read is left. -/
theorem foldl_readBlock (w : Nat) (buf : Nat → UInt32) (l : List Input)
    (x : Input) :
    (l ++ [x]).foldl (fun b i => readBlock b i.port w) buf
      = readBlock buf x.port w := by
  rw [List.foldl_append]
  show readBlock _ x.port w = _
  induction l generalizing buf with
  | nil => rfl
  | cons y l ih =>
      rw [List.foldl_cons, ih]
      funext j
      unfold readBlock
      split
      · rfl
      · rfl

-- ==================================================== when it is enough

/-- A read has moved the whole buffer. -/
def ReadsWhole (ndebug : Bool) (subs : List (CmdId × Option Callback))
    (s : Host) (c : CmdId) (d : MmcData) (before : List Input)
    (last : Input) : Prop :=
  ∃ s' buf, run (step ndebug) s (events before last subs) = some s'
    ∧ (s'.cmds c).complete = 1
    ∧ (s'.cmds c).data = some { d with vbuf := some buf }
    ∧ (List.range (d.blocks * (d.blockSize / 4))).map buf
      = inOrder (d.blockSize / 4) Input.port
          (raising intStatusBrr (before ++ [last]))

/-- A write has moved the whole buffer. -/
def WritesWhole (ndebug : Bool) (subs : List (CmdId × Option Callback))
    (s : Host) (c : CmdId) (d : MmcData) (buf : Nat → UInt32)
    (before : List Input) (last : Input) : Prop :=
  ∃ s', run (step ndebug) s (events before last subs) = some s'
    ∧ (s'.cmds c).complete = 1
    ∧ s'.portOut = s.portOut
      ++ (List.range (d.blocks * (d.blockSize / 4))).map buf

/-- The data read do not show that only the last block was kept: the
first is like the last, and the others are in the buffer already. -/
def ReadUnseen (w : Nat) (buf : Nat → UInt32) (l : List Input) : Prop :=
  (∀ x y, l.head? = some x → l.getLast? = some y →
    ∀ j < w, y.port j = x.port j)
  ∧ ∀ k x, l[k + 1]? = some x →
    ∀ j < w, buf ((k + 1) * w + j) = x.port j

/-- The data written do not show that only the first block was sent: all
blocks are like it. -/
def WriteUnseen (w n : Nat) (buf : Nat → UInt32) : Prop :=
  ∀ k < n, ∀ j < w, buf (k * w + j) = buf j

/-- The buffer behind a read has every block in its place exactly if nobody
can tell: the first block is the last one delivered, and the rest of the
buffer had the other blocks in it before. -/
theorem readUnseen_iff {w : Nat} (buf : Nat → UInt32) {l : List Input}
    {y : Input} (hy : l.getLast? = some y) (hw : blockWords w = w / 4) :
    (List.range (l.length * (w / 4))).map (readBlock buf y.port w)
        = inOrder (w / 4) Input.port l
      ↔ ReadUnseen (w / 4) buf l := by
  rw [inOrder_eq_iff]
  have hfirst : ∀ j < w / 4, readBlock buf y.port w j = y.port j := by
    intro j hj
    unfold readBlock
    rw [hw, if_pos hj]
  -- a block is always stored at the start, so the words behind the first
  -- block are those that were there
  have hother : ∀ k j, readBlock buf y.port w ((k + 1) * (w / 4) + j)
      = buf ((k + 1) * (w / 4) + j) := by
    intro k j
    unfold readBlock
    rw [hw, if_neg]
    rw [Nat.succ_mul]
    omega
  constructor
  · intro h
    refine ⟨?_, ?_⟩
    · intro x y' hx hy' j hj
      rw [hy] at hy'
      cases hy'
      rw [List.head?_eq_getElem?] at hx
      have h₀ := h 0 x hx j hj
      rw [Nat.zero_mul, Nat.zero_add, hfirst j hj] at h₀
      exact h₀
    · intro k x hk j hj
      rw [← hother]
      exact h (k + 1) x hk j hj
  · rintro ⟨hhead, htail⟩ k x hk j hj
    cases k with
    | zero =>
        rw [Nat.zero_mul, Nat.zero_add, hfirst j hj]
        apply hhead x y _ hy j hj
        rw [List.head?_eq_getElem?]
        exact hk
    | succ k =>
        rw [hother]
        exact htail k x hk j hj

/-- What was sent is the buffer exactly if all of its blocks are equal. -/
theorem writeUnseen_iff (w : Nat) (buf : Nat → UInt32)
    (l : List Input) :
    inOrder w (fun _ => buf) l = (List.range (l.length * w)).map buf
      ↔ WriteUnseen w l.length buf := by
  rw [eq_comm, inOrder_eq_iff]
  constructor
  · intro h k hk
    exact h k l[k] (List.getElem?_eq_getElem hk)
  · intro h k x hx
    exact h k (List.getElem?_eq_some_iff.1 hx).1

/-- With one block there is nothing to be put in the wrong place. -/
theorem readUnseen_single {w : Nat} {buf : Nat → UInt32} {l : List Input}
    (hl : l.length = 1) : ReadUnseen w buf l := by
  obtain ⟨x, rfl⟩ := List.length_eq_one_iff.1 hl
  refine ⟨?_, ?_⟩
  · intro x' y' hx hy j _
    cases hx
    cases hy
    rfl
  · intro k x' hk
    cases hk

theorem writeUnseen_single (w : Nat) (buf : Nat → UInt32) :
    WriteUnseen w 1 buf := by
  intro k hk j _
  have hzero : k = 0 := by omega
  rw [hzero, Nat.zero_mul, Nat.zero_add]

/-- A transfer by programmed IO moves the whole buffer exactly if it has
one block, or the data are such that nobody can tell. -/
theorem transfer_whole (ndebug : Bool) {buf : Nat → UInt32}
    (before : List Input) (last : Input)
    (hs : Reachable Init (step ndebug) anyStep s)
    (hc : s.cmdListHead = some c) (hdata : (s.cmds c).data = some d)
    (hbuf : d.vbuf = some buf) (hsize : 4 ∣ d.blockSize)
    (hblocks : 1 ≤ d.blocks) (hstart : s.blocksRemaining = d.blocks)
    (hfresh : ∀ d ∈ subs.map Prod.fst, d ∉ s.submitted)
    (hnd : (subs.map Prod.fst).Nodup) :
    (Transfer intStatusBrr intStatusBwr d.blocks before last →
      (ReadsWhole ndebug subs s c d before last ↔
        d.blocks = 1 ∨ ReadUnseen (d.blockSize / 4) buf
          (raising intStatusBrr (before ++ [last]))))
    ∧ (Transfer intStatusBwr intStatusBrr d.blocks before last →
      (WritesWhole ndebug subs s c d buf before last ↔
        d.blocks = 1 ∨ WriteUnseen (d.blockSize / 4) d.blocks buf)) := by
  obtain ⟨done, queue, hF⟩ := reachable_fifo hs
  obtain ⟨rest, rfl⟩ := hF.eq_cons hc
  have hA : At s c d ⟨buf, d.blocks, s.portOut⟩ := by
    refine ⟨?_, hstart, rfl⟩
    rw [hdata, ← hbuf]
  have hw : blockWords d.blockSize = d.blockSize / 4 := by
    unfold blockWords
    omega
  have hcount : ∀ ready other, Transfer ready other d.blocks before last →
      (raising ready (before ++ [last])).length = d.blocks := by
    intro ready other hT
    rw [← hT.count, List.countP_eq_length_filter]
    rfl
  constructor
  -- a read: the buffer ends with the last block at its start
  · intro hT
    have hlen := hcount _ _ hT
    have hne : raising intStatusBrr (before ++ [last]) ≠ [] := by
      apply List.ne_nil_of_length_pos
      rw [hlen]
      exact hblocks
    obtain ⟨l, y, hl⟩ := (List.eq_nil_or_concat' _).resolve_left hne
    obtain ⟨s', hrun, hone, hdata', -⟩ := run_events ndebug hF hA hT.quiet
      hT.running hT.ends hfresh hnd
    rw [moveAll_read hT.one_way (le_of_eq hlen), hl, foldl_readBlock]
      at hdata'
    have hlast : (raising intStatusBrr (before ++ [last])).getLast?
        = some y := by
      rw [hl, List.getLast?_concat]
    have hiff := readUnseen_iff buf hlast hw
    rw [hlen] at hiff
    constructor
    · rintro ⟨s'', buf', hrun', -, hbuf', hwords⟩
      rw [hrun] at hrun'
      cases hrun'
      rw [hdata'] at hbuf'
      cases hbuf'
      exact .inr (hiff.1 hwords)
    · intro hcond
      refine ⟨s', _, hrun, hone, hdata', hiff.2 ?_⟩
      rcases hcond with hsingle | hunseen
      · exact readUnseen_single (hlen.trans hsingle)
      · exact hunseen
  -- a write: what went out is the first block, as often as there are
  -- blocks
  · intro hT
    have hlen := hcount _ _ hT
    obtain ⟨s', hrun, hone, -, hout⟩ := run_events ndebug hF hA hT.quiet
      hT.running hT.ends hfresh hnd
    rw [moveAll_write hT.one_way (le_of_eq hlen), hw] at hout
    have hiff := writeUnseen_iff (d.blockSize / 4) buf
      (raising intStatusBwr (before ++ [last]))
    rw [hlen] at hiff
    constructor
    · rintro ⟨s'', hrun', -, hwords⟩
      rw [hrun] at hrun'
      cases hrun'
      rw [hout, List.append_cancel_left_eq] at hwords
      exact .inr (hiff.1 hwords)
    · intro hcond
      refine ⟨s', hrun, hone, ?_⟩
      rw [hout, List.append_cancel_left_eq]
      apply hiff.2
      rcases hcond with hsingle | hunseen
      · rw [hsingle]
        exact writeUnseen_single _ buf
      · exact hunseen

-- ============================================================== samples

/-- A transfer of `n` blocks of one word, from a buffer of 7, 8, 9, … -/
def pioCmd (n : Nat) : MmcCmd :=
  { statusCmd with
    index := mmcReadSingleBlock
    data := some ⟨0, some fun j => UInt32.ofNat (j + 7), 4, n⟩ }

/-- An interrupt that raises a bit, with a word in the data port. -/
def readyWith (ready : Nat) (word : UInt32) : Input :=
  ⟨mask ready, fun _ => 0, fun _ => word⟩

/-- The first words of a command's buffer. -/
def bufWords (s : Host) (c : CmdId) (n : Nat) : Option (List UInt32) :=
  (s.cmds c).data.bind fun d =>
    d.vbuf.map fun buf => (List.range n).map buf

/-- A read of one block. -/
theorem transfer_whole_sample :
    ∃ s d, run (step false) (idleHost (pioCmd 1)) [.send 1 (some .user)]
        = some s
      ∧ (s.cmds 1).data = some d
      ∧ ReadsWhole false [] s 1 d [readyWith intStatusBrr 5]
          (irqOf (mask intStatusTc)) := by
  have hany : (run (step false) (idleHost (pioCmd 1))
      [.send 1 (some .user)]).any (fun s => decide (s.cmdListHead = some 1
        ∧ s.blocksRemaining = 1)) = true := by decide +kernel
  obtain ⟨s, hrun, hbool⟩ := (Option.any_eq_true ..).1 hany
  obtain ⟨hhead, hstart⟩ := of_decide_eq_true hbool
  have hdata : (s.cmds 1).data
      = some ⟨0, some fun j => UInt32.ofNat (j + 7), 4, 1⟩ := by
    cases hrun
    rfl
  have hs : Reachable Init (step false) anyStep s :=
    (Reachable.init (idleHost_init (pioCmd 1))).run hrun
  have hT : Transfer intStatusBrr intStatusBwr 1
      [readyWith intStatusBrr 5] (irqOf (mask intStatusTc)) := by
    refine ⟨?_, by decide, by decide, by decide, by decide⟩
    unfold hasError
    decide
  have hfresh : ∀ d ∈ List.map Prod.fst
      ([] : List (CmdId × Option Callback)), d ∉ s.submitted := by
    intro d hd
    cases hd
  have hboth := transfer_whole false [readyWith intStatusBrr 5]
    (irqOf (mask intStatusTc)) hs hhead hdata rfl (Nat.dvd_refl 4)
    (Nat.le_refl 1) hstart hfresh List.nodup_nil
  exact ⟨s, _, hrun, hdata, (hboth.1 hT).2 (.inl rfl)⟩

/-- Two words, 5 and 6, are read: the buffer ends with 6 and with what
was there before. -/
theorem second_block_over_first :
    ∃ s s' d, run (step false) (idleHost (pioCmd 2))
        [.send 1 (some .user)] = some s
      ∧ (s.cmds 1).data = some d
      ∧ run (step false) s (events
          [readyWith intStatusBrr 5, readyWith intStatusBrr 6]
          (irqOf (mask intStatusTc)) []) = some s'
      ∧ bufWords s' 1 2 = some [6, 8]
      ∧ ¬ReadsWhole false [] s 1 d
          [readyWith intStatusBrr 5, readyWith intStatusBrr 6]
          (irqOf (mask intStatusTc)) := by
  have hany : (run (step false) (idleHost (pioCmd 2))
      [.send 1 (some .user)]).any (fun s =>
        (run (step false) s (events
          [readyWith intStatusBrr 5, readyWith intStatusBrr 6]
          (irqOf (mask intStatusTc)) [])).any
            fun s' => decide (bufWords s' 1 2 = some [6, 8])) = true := by
    decide +kernel
  obtain ⟨s, hrun, hany'⟩ := (Option.any_eq_true ..).1 hany
  obtain ⟨s', hrun', hwords⟩ := (Option.any_eq_true ..).1 hany'
  rw [decide_eq_true_eq] at hwords
  have hdata : (s.cmds 1).data
      = some ⟨0, some fun j => UInt32.ofNat (j + 7), 4, 2⟩ := by
    cases hrun
    rfl
  refine ⟨s, s', _, hrun, hdata, hrun', hwords, ?_⟩
  rintro ⟨s'', buf, hrun'', -, hbuf, horder⟩
  rw [hrun'] at hrun''
  cases hrun''
  have hkept : bufWords s' 1 2 = some ((List.range 2).map buf) := by
    unfold bufWords
    rw [hbuf]
    rfl
  have horder' : (List.range 2).map buf = [5, 6] := horder
  rw [hkept, horder'] at hwords
  revert hwords
  decide

end ProjectsLibs.Sdhc
