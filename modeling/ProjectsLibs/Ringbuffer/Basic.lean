/-
libringbuffer: a ring of bytes that a sender writes and a receiver reads,
with no counters in it (ringbuffer.c). A zero byte is where the receiver
waits: the sender writes it in front of every character.

The region is a map of bytes that both sides share, and each side has its
own `ringbuffer_t`. `Line` is the two sides in use by whole calls,
`Race` by single loads and stores.

# Two grains

With whole calls the history of a run is the list of the characters sent
and that of the polls, and what a poll may return is stated on both
(`Takes`): the queue is lossy, since the sender never looks at the
receiver, so a poll takes the character that was sent last to its slot
(`LastSent`). If the receiver keeps up this is the next one.

With single accesses the sender is between its stores and the receiver
between its loads (`Sending`, `Polling`), and a step is one of these. The
polls that return are recorded as before, so the statements about both
grains speak of the same kind of history.
-/
import Mathlib.Logic.Function.Basic
import ProjectsLibs.Lib.Run

namespace ProjectsLibs.Ringbuffer

open Lib

-- ============================================================= the code

abbrev Region := Nat → UInt8

/-- `struct ringbuffer`, without its pointer to the region. -/
structure Ringbuffer where
  size : Nat
  offset : Nat
  deriving DecidableEq, Repr

/-- `rb_new`. -/
def rbNew (size : Nat) : Ringbuffer := ⟨size, 0⟩

/-- The slot behind the current one. -/
def Ringbuffer.next (r : Ringbuffer) : Nat := (r.offset + 1) % r.size

/-- `rb_transmit_byte`. -/
def rbTransmitByte (r : Ringbuffer) (base : Region) (c : UInt8) :
    Ringbuffer × Region :=
  if c = 0 then (r, base)
  else
    let base := Function.update base r.next 0
    let base := Function.update base r.offset c
    ({ r with offset := r.next }, base)

/-- `rb_poll_byte`. -/
def rbPollByte (r : Ringbuffer) (base : Region) : UInt8 × Ringbuffer :=
  if base r.offset ≠ 0 then (base r.offset, { r with offset := r.next })
  else (0, r)

-- ========================================================== whole calls

/-- A call of `rb_poll_byte`: its result, the receiver's offset before and
after it, and how many characters were sent when it read the last time. -/
structure Poll where
  sent : Nat
  before : Nat
  after : Nat
  result : UInt8
  deriving DecidableEq, Repr

/-- The two sides, and the history of the characters and the polls. -/
structure Line where
  base : Region
  sender : Ringbuffer
  receiver : Ringbuffer
  sent : List UInt8
  polls : List Poll

inductive LineOp
  | transmit (c : UInt8)
  | poll
  deriving DecidableEq, Repr

def lineStep (s : Line) : LineOp → Option Line
  | .transmit c =>
      let (sender, base) := rbTransmitByte s.sender s.base c
      some { s with
        base := base
        sender := sender
        sent := if c = 0 then s.sent else s.sent ++ [c] }
  | .poll =>
      let (result, receiver) := rbPollByte s.receiver s.base
      some { s with
        receiver := receiver
        polls := s.polls ++ [{
          sent := s.sent.length
          before := s.receiver.offset
          after := receiver.offset
          result := result }] }

/-- Both sides start on a region of zeros. -/
structure LineInit (size : Nat) (s : Line) : Prop where
  base : ∀ i < size, s.base i = 0
  sender : s.sender = rbNew size
  receiver : s.receiver = rbNew size
  sent : s.sent = []
  polls : s.polls = []

/-- The character `k` is the last one that was sent to the slot that the
poll looks at. -/
structure LastSent (size : Nat) (sent : List UInt8) (p : Poll) (k : Nat) :
    Prop where
  lt : k < p.sent
  slot : k % size = p.before
  last : ∀ j < p.sent, j % size = p.before → j ≤ k
  result : sent[k]? = some p.result

/-- The polls take characters from the lossy queue: the next one to take
is `next`, or one a number of whole buffers behind it. -/
inductive Takes (size : Nat) (sent : List UInt8) : List Poll → Nat → Prop
  | nil : Takes size sent [] 0
  | zero {ps : List Poll} {p : Poll} {next : Nat} :
      Takes size sent ps next → next ≤ p.sent →
      p.sent % size = next % size → p.result = 0 → p.after = p.before →
      Takes size sent (ps ++ [p]) next
  | char {ps : List Poll} {p : Poll} {next k : Nat} :
      Takes size sent ps next → p.sent % size ≠ next % size →
      p.result ≠ 0 → LastSent size sent p k → next ≤ k →
      size ∣ k - next → Takes size sent (ps ++ [p]) (k + 1)

/-- The characters that were received. -/
def received (ps : List Poll) : List UInt8 :=
  (ps.map Poll.result).filter (· ≠ 0)

/-- The receiver is never more than `size - 1` characters behind. -/
def KeepsUp (size : Nat) (ps : List Poll) : Prop :=
  ∀ front p back, ps = front ++ p :: back →
    p.sent ≤ (received front).length + (size - 1)

/-- The characters arrive as they were sent, and a poll is without a
result only if all of them have. -/
structure InSequence (sent : List UInt8) (ps : List Poll) : Prop where
  received : received ps = sent.take (received ps).length
  none : ∀ front p back, ps = front ++ p :: back → p.result = 0 →
    p.sent = (Ringbuffer.received front).length

-- ================================================ single loads and stores

/-- Where the sender is in `rb_transmit_byte`: the next slot is zero, the
character is to be stored. -/
inductive Sending
  | idle
  | zeroed (c : UInt8)
  deriving DecidableEq, Repr

/-- Where the receiver is in `rb_poll_byte`: the slot was not zero, the
character is to be loaded. -/
inductive Polling
  | idle
  | tested
  deriving DecidableEq, Repr

structure Race where
  base : Region
  sender : Ringbuffer
  sending : Sending
  receiver : Ringbuffer
  polling : Polling
  sent : List UInt8
  polls : List Poll

/-- The accesses: the stores of the sender and the loads of the
receiver. -/
inductive RaceOp
  | storeZero (c : UInt8)
  | storeChar
  | loadTest
  | loadChar
  deriving DecidableEq, Repr

/-- The record of a poll that returns. -/
def Race.poll (s : Race) (result : UInt8) (after : Nat) : Poll :=
  ⟨s.sent.length, s.receiver.offset, after, result⟩

def raceStep (s : Race) : RaceOp → Option Race
  | .storeZero c =>
      if s.sending = .idle ∧ c ≠ 0 then
        some { s with
          base := Function.update s.base s.sender.next 0
          sending := .zeroed c }
      else none
  | .storeChar =>
      match s.sending with
      | .idle => none
      | .zeroed c =>
          some { s with
            base := Function.update s.base s.sender.offset c
            sender := { s.sender with offset := s.sender.next }
            sending := .idle
            sent := s.sent ++ [c] }
  | .loadTest =>
      if s.polling = .idle then
        if s.base s.receiver.offset ≠ 0 then
          some { s with polling := .tested }
        else
          some { s with
            polls := s.polls ++ [s.poll 0 s.receiver.offset] }
      else none
  | .loadChar =>
      if s.polling = .tested then
        some { s with
          receiver := { s.receiver with offset := s.receiver.next }
          polling := .idle
          polls := s.polls ++
            [s.poll (s.base s.receiver.offset) s.receiver.next] }
      else none

structure RaceInit (size : Nat) (s : Race) : Prop where
  base : ∀ i < size, s.base i = 0
  sender : s.sender = rbNew size
  sending : s.sending = .idle
  receiver : s.receiver = rbNew size
  polling : s.polling = .idle
  sent : s.sent = []
  polls : s.polls = []

/-- A poll without a result leaves the receiver where it is, and what is
missed is a number of whole buffers. -/
inductive WholeLaps (size : Nat) (sent : List UInt8) :
    List Poll → Nat → Prop
  | nil : WholeLaps size sent [] 0
  | zero {ps : List Poll} {p : Poll} {next : Nat} :
      WholeLaps size sent ps next → p.result = 0 → p.after = p.before →
      WholeLaps size sent (ps ++ [p]) next
  | char {ps : List Poll} {p : Poll} {next k : Nat} :
      WholeLaps size sent ps next → p.result ≠ 0 →
      LastSent size sent p k → next ≤ k → size ∣ k - next →
      WholeLaps size sent (ps ++ [p]) (k + 1)

/-- No character is missed alone. -/
def NoneMissedAlone (size : Nat) (s : Race) : Prop :=
  ∃ next, WholeLaps size s.sent s.polls next

/-- The condition: when the receiver loads the character, the sender has
not come around to its slot. -/
def RaceOk (s : Race) : RaceOp → Prop
  | .loadChar => s.receiver.offset ≠ s.sender.offset
      ∧ (s.sending ≠ .idle → s.receiver.offset ≠ s.sender.next)
  | _ => True

instance : ∀ (s : Race) (op : RaceOp), Decidable (RaceOk s op)
  | s, .loadChar => inferInstanceAs (Decidable
      (s.receiver.offset ≠ s.sender.offset
        ∧ (s.sending ≠ .idle → s.receiver.offset ≠ s.sender.next)))
  | _, .storeZero _ => inferInstanceAs (Decidable True)
  | _, .storeChar => inferInstanceAs (Decidable True)
  | _, .loadTest => inferInstanceAs (Decidable True)

end ProjectsLibs.Ringbuffer
