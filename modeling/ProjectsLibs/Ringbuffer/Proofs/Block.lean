/-
What the calls for blocks do (`block_exchanged`): a block that is shorter
than the buffer arrives as it is and leaves both sides drained, but only
`rb_transmit_string` counts what it has done, and the check for data says
the opposite of what it should at every point.

Behind a block that was sent from the offset `o`, each of its bytes is in
its slot and the slot behind it is zero (`Written`).

# One slot after the other

`Written` is stated for the part of a block that has been sent, so that it
goes through the loop one character at a time (`Written.transmit`): a
character fills the slot that was zero and puts a zero behind itself. The
room that is left has to be counted for this, as the zero behind the last
character must not fall on the first one. The loop that receives goes
through the same slots and clears nothing, so the bytes from any position
on are received by induction on what is left.

The entry points for strings and for blocks of a given length are two
loops of the code. They are the same on a block without nulls
(`SendCall.run_eq`, `ReceiveCall.run_eq`) but for what they count.
-/
import ProjectsLibs.Lib.Ring
import ProjectsLibs.Ringbuffer.Block

namespace ProjectsLibs.Ringbuffer

open Lib

variable {size o : Nat} {block rest : List UInt8} {c : UInt8}
  {r : Ringbuffer} {base : Region}

-- ============================================================== sending

/-- The block was sent from the offset `o`. -/
structure Written (size o : Nat) (block : List UInt8) (r : Ringbuffer)
    (base : Region) : Prop where
  sender : r = ⟨size, (o + block.length) % size⟩
  zero : base ((o + block.length) % size) = 0
  slots : ∀ i x, block[i]? = some x → base ((o + i) % size) = x

/-- A character goes behind those that are there, and the null behind it
marks the new end. -/
theorem Written.transmit (h : Written size o block r base)
    (hroom : block.length + 1 < size) (hc : c ≠ 0) :
    Written size o (block ++ [c]) (rbTransmitByte r base c).1
      (rbTransmitByte r base c).2 := by
  have hnext : r.next = (o + block.length + 1) % size := by
    rw [h.sender]
    exact Nat.mod_add_mod (o + block.length) size 1
  have hoffset : r.offset = (o + block.length) % size := by
    rw [h.sender]
  have hne : (o + block.length) % size ≠ (o + block.length + 1) % size :=
    slot_ne (Nat.lt_succ_self _) (by omega)
  unfold rbTransmitByte
  rw [if_neg hc, hnext, hoffset]
  constructor
  · rw [h.sender, List.length_append, List.length_singleton]
    rfl
  · rw [List.length_append, List.length_singleton, ← Nat.add_assoc]
    show Function.update (Function.update base _ 0) _ c _ = 0
    rw [Function.update_of_ne hne.symm, Function.update_self]
  · intro i x hx
    show Function.update (Function.update base _ 0) _ c _ = x
    rcases Nat.lt_trichotomy i block.length with hi | rfl | hi
    · have hne₁ : (o + i) % size ≠ (o + block.length) % size :=
        slot_ne (by omega) (by omega)
      have hne₂ : (o + i) % size ≠ (o + block.length + 1) % size :=
        slot_ne (by omega) (by omega)
      rw [Function.update_of_ne hne₁, Function.update_of_ne hne₂]
      rw [List.getElem?_append_left hi] at hx
      exact h.slots i x hx
    · rw [Function.update_self]
      simpa using hx
    · rw [List.getElem?_eq_none (by simp; omega)] at hx
      cases hx

/-- So do the characters of a block, as long as there is room for all of
them and one null. -/
theorem Written.transmitBytes (h : Written size o block r base)
    (hroom : block.length + rest.length < size)
    (hrest : ∀ c ∈ rest, c ≠ 0) :
    Written size o (block ++ rest) (transmitBytes r base rest).1
      (transmitBytes r base rest).2 := by
  induction rest generalizing block r base with
  | nil =>
      rw [List.append_nil]
      exact h
  | cons c rest ih =>
      rw [List.length_cons] at hroom
      have hc := hrest c (List.mem_cons_self ..)
      have htail := fun x hx => hrest x (List.mem_cons_of_mem c hx)
      rw [List.append_cons]
      refine ih (h.transmit (by omega) hc) ?_ htail
      rw [List.length_append, List.length_singleton]
      omega

/-- On a string the loop for strings does the same, and counts. -/
theorem transmitString_eq (hblock : ∀ c ∈ block, c ≠ 0) (sent : Nat) :
    transmitString sent r base (block ++ [0])
      = some (sent + block.length, transmitBytes r base block) := by
  induction block generalizing sent r base with
  | nil => rfl
  | cons c block ih =>
      have hc := hblock c (List.mem_cons_self ..)
      have htail := fun x hx => hblock x (List.mem_cons_of_mem c hx)
      rw [List.cons_append, transmitString, if_pos hc]
      show transmitString (sent + 1) (rbTransmitByte r base c).1
        (rbTransmitByte r base c).2 (block ++ [0]) = _
      rw [ih htail, List.length_cons, Nat.add_assoc, Nat.add_comm 1]
      rfl

/-- Both entry points send a block without nulls as its characters one by
one; they differ in the value that they return. -/
theorem SendCall.run_eq (send : SendCall) (hblock : ∀ c ∈ block, c ≠ 0) :
    send.run r base block
      = some (send.result block, Ringbuffer.transmitBytes r base block) := by
  cases send with
  | transmit => rfl
  | transmitString =>
      show Ringbuffer.transmitString 0 r base (block ++ [0]) = _
      rw [transmitString_eq hblock, Nat.zero_add]
      rfl

-- ============================================================ receiving

/-- A byte that is there is received by the first poll. -/
theorem rbReceiveByte_eq (hc : base r.offset ≠ 0) (polls : Nat) :
    rbReceiveByte base (polls + 1) r
      = some (base r.offset, { r with offset := r.next }) := by
  unfold rbReceiveByte rbPollByte
  rw [if_pos hc]
  simp [hc]

/-- The bytes from `k` on are received, up to the end of the block. -/
theorem Written.receiveBytes {sender : Ringbuffer}
    (h : Written size o block sender base) (hblock : ∀ c ∈ block, c ≠ 0)
    (polls : Nat) {k len : Nat} (hk : k + len ≤ block.length) :
    receiveBytes base (polls + 1) ⟨size, (o + k) % size⟩ len
      = some ((block.drop k).take len, ⟨size, (o + k + len) % size⟩) := by
  induction len generalizing k with
  | zero => simp [Ringbuffer.receiveBytes]
  | succ len ih =>
      have hlt : k < block.length := by omega
      have hslot := h.slots k block[k] (List.getElem?_eq_getElem hlt)
      have hc := hblock block[k] (List.getElem_mem hlt)
      have hwaits : base (Ringbuffer.offset ⟨size, (o + k) % size⟩) ≠ 0 :=
        hslot ▸ hc
      have hbyte := rbReceiveByte_eq hwaits polls
      have hnext : Ringbuffer.next ⟨size, (o + k) % size⟩
          = (o + (k + 1)) % size := Nat.mod_add_mod (o + k) size 1
      unfold Ringbuffer.receiveBytes
      rw [hbyte]
      simp only [hnext, hslot]
      rw [ih (by omega)]
      rw [List.drop_eq_getElem_cons hlt, List.take_succ_cons]
      rw [← Nat.add_assoc, Nat.add_right_comm _ 1 len]
      rfl

/-- Both entry points that receive a block are the same loop. -/
theorem ReceiveCall.run_eq (receive : ReceiveCall) (polls len : Nat) :
    receive.run r base polls len
      = (Ringbuffer.receiveBytes base polls r len).map fun res => (0, res) := by
  cases receive with
  | receiveData => rfl
  | receiveString => rfl

-- ============================================================= the result

/-- The check says that there is data exactly where a poll finds none. -/
theorem not_hasDataRight (r : Ringbuffer) (base : Region) :
    ¬HasDataRight r base := by
  unfold HasDataRight rbHasData rbPollByte
  by_cases hzero : base r.offset = 0
  · simp [hzero]
  · simp [hzero]

/-- A null at the position of both ends: nothing has been written that has
not been read. -/
theorem written_nil (ho : o < size) (hzero : base o = 0) :
    Written size o [] ⟨size, o⟩ base where
  sender := by simp [Nat.mod_eq_of_lt ho]
  zero := by simpa [Nat.mod_eq_of_lt ho] using hzero
  slots i x hx := by simp at hx

/-- A block shorter than the buffer arrives, and both sides are drained
again. Of the four calls only `rb_transmit_string` returns the length, and
the check for data is wrong at every point. -/
theorem block_exchanged (send : SendCall) (receive : ReceiveCall)
    (hsize : 2 ≤ size) (ho : o < size) (hzero : base o = 0)
    (hblock : ∀ c ∈ block, c ≠ 0) (hlen : block.length ≤ size - 1) :
    (∃ sender base' receiver,
      send.run ⟨size, o⟩ base block
          = some (send.result block, sender, base')
        ∧ (∀ polls, receive.run ⟨size, o⟩ base' (polls + 1) block.length
          = some (0, block, receiver))
        ∧ Drained sender receiver base')
      ∧ (∀ r base', Between ⟨size, o⟩ base block r base' →
        ¬HasDataRight r base')
      ∧ ¬Faithful send receive ⟨size, o⟩ base block := by
  have hwritten : Written size o block
      (transmitBytes ⟨size, o⟩ base block).1
      (transmitBytes ⟨size, o⟩ base block).2 := by
    refine (written_nil ho hzero).transmitBytes ?_ hblock
    rw [List.length_nil]
    omega
  refine ⟨⟨_, _, ⟨size, (o + block.length) % size⟩, send.run_eq hblock,
    fun polls => ?_, hwritten.sender, hwritten.zero⟩, ?_, ?_⟩
  · have hle : 0 + block.length ≤ block.length := by omega
    have hrec := hwritten.receiveBytes hblock polls hle
    simp only [Nat.add_zero, Nat.mod_eq_of_lt ho, List.drop_zero,
      List.take_length] at hrec
    rw [ReceiveCall.run_eq, hrec]
    rfl
  · intro r base' _
    exact not_hasDataRight r base'
  · intro h
    exact not_hasDataRight _ _ (h.hasData _ _ (.sending 0 (Nat.zero_le _)))

/-- A block of three bytes around the end of a region of four. -/
theorem block_exchanged_three :
    (∃ sender base' receiver,
      SendCall.transmit.run ⟨4, 3⟩ (fun _ => 0) [7, 8, 9]
          = some (0, sender, base')
        ∧ (∀ polls,
          ReceiveCall.receiveData.run ⟨4, 3⟩ base' (polls + 1) 3
          = some (0, [7, 8, 9], receiver))
        ∧ Drained sender receiver base')
      ∧ (∀ r base', Between ⟨4, 3⟩ (fun _ => 0) [7, 8, 9] r base' →
        ¬HasDataRight r base')
      ∧ ¬Faithful .transmit .receiveData ⟨4, 3⟩ (fun _ => 0) [7, 8, 9] :=
  block_exchanged .transmit .receiveData (by decide) (by decide) rfl
    (by simp) (by decide)

/-- One byte in a region of two: the check and both results are wrong. -/
theorem byte_miscounted :
    rbHasData ⟨2, 0⟩ (fun _ => 0) = 1
      ∧ (rbPollByte ⟨2, 0⟩ fun _ => 0).1 = 0
      ∧ (rbTransmit ⟨2, 0⟩ (fun _ => 0) [7]).1 = 0
      ∧ ¬Faithful .transmit .receiveData ⟨2, 0⟩ (fun _ => 0) [7] := by
  refine ⟨rfl, rfl, rfl, fun h => ?_⟩
  obtain ⟨sender, base', polls, receiver, hsend, -⟩ := h.arrives
  have hsent : (0 : Nat) = 1 := congrArg Prod.fst (Option.some.inj hsend)
  exact absurd hsent (by decide)

end ProjectsLibs.Ringbuffer
