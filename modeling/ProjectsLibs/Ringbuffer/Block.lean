/-
The calls of libringbuffer for strings and blocks, and the check for data
(ringbuffer.c).

A block is the list of its bytes, a string is followed by its zero, and a
result is `none` where a string has none. While the receiver waits for a
byte the region does not change, so waiting is polling for as many times
as are given.

# What is documented

The header says of each call what it returns and of `rb_has_data` when it
is true. `Faithful` is that text for a block that is sent to a drained
buffer and then received, with the check for data at every point between:
after each byte that is sent or received. A receive call waits for each
of its bytes, and how long it waits is a parameter, so that a call that
would not return is told apart from one that has to be patient.
-/
import ProjectsLibs.Ringbuffer.Basic

namespace ProjectsLibs.Ringbuffer

-- ============================================================= the code

/-- `rb_has_data`. -/
def rbHasData (r : Ringbuffer) (base : Region) : Int :=
  if base r.offset = 0 then 1 else 0

/-- `rb_receive_byte`, with at most `polls` polls. -/
def rbReceiveByte (base : Region) : Nat → Ringbuffer →
    Option (UInt8 × Ringbuffer)
  | 0, _ => none
  | polls + 1, r =>
      let (c, r) := rbPollByte r base
      if c = 0 then rbReceiveByte base polls r else some (c, r)

/-- The loop of `rb_transmit_string`. -/
def transmitString : Nat → Ringbuffer → Region → List UInt8 →
    Option (Nat × Ringbuffer × Region)
  | _, _, _, [] => none
  | sent, r, base, c :: s =>
      if c ≠ 0 then
        let (r, base) := rbTransmitByte r base c
        transmitString (sent + 1) r base s
      else some (sent, r, base)

/-- `rb_transmit_string`. -/
def rbTransmitString (r : Ringbuffer) (base : Region) (s : List UInt8) :
    Option (Nat × Ringbuffer × Region) :=
  transmitString 0 r base s

/-- The loop of `rb_transmit`. -/
def transmitBytes : Ringbuffer → Region → List UInt8 →
    Ringbuffer × Region
  | r, base, [] => (r, base)
  | r, base, c :: s =>
      let (r, base) := rbTransmitByte r base c
      transmitBytes r base s

/-- `rb_transmit`, whose loop leaves `sent` alone. -/
def rbTransmit (r : Ringbuffer) (base : Region) (src : List UInt8) :
    Nat × Ringbuffer × Region :=
  let sent := 0
  (sent, transmitBytes r base src)

/-- The loop of `rb_receive_string` and `rb_receive_data`, with the bytes
that it stores. -/
def receiveBytes (base : Region) (polls : Nat) : Ringbuffer → Nat →
    Option (List UInt8 × Ringbuffer)
  | r, 0 => some ([], r)
  | r, len + 1 =>
      match rbReceiveByte base polls r with
      | none => none
      | some (c, r) =>
          (receiveBytes base polls r len).map fun (s, r) => (c :: s, r)

/-- `rb_receive_string`, whose loop leaves `received` alone. -/
def rbReceiveString (r : Ringbuffer) (base : Region) (polls len : Nat) :
    Option (Nat × List UInt8 × Ringbuffer) :=
  let received := 0
  (receiveBytes base polls r len).map fun res => (received, res)

/-- `rb_receive_data`, likewise. -/
def rbReceiveData (r : Ringbuffer) (base : Region) (polls len : Nat) :
    Option (Nat × List UInt8 × Ringbuffer) :=
  let received := 0
  (receiveBytes base polls r len).map fun res => (received, res)

-- ==================================================== what is documented

/-- The calls that send a block. -/
inductive SendCall
  | transmit
  | transmitString
  deriving DecidableEq, Repr

/-- The calls that receive one. -/
inductive ReceiveCall
  | receiveData
  | receiveString
  deriving DecidableEq, Repr

def SendCall.run (r : Ringbuffer) (base : Region) (block : List UInt8) :
    SendCall → Option (Nat × Ringbuffer × Region)
  | .transmit => some (rbTransmit r base block)
  | .transmitString => rbTransmitString r base (block ++ [0])

def ReceiveCall.run (r : Ringbuffer) (base : Region) (polls len : Nat) :
    ReceiveCall → Option (Nat × List UInt8 × Ringbuffer)
  | .receiveData => rbReceiveData r base polls len
  | .receiveString => rbReceiveString r base polls len

/-- Both sides are at one offset, and there is nothing to receive. -/
structure Drained (sender receiver : Ringbuffer) (base : Region) : Prop where
  same : sender = receiver
  zero : base receiver.offset = 0

/-- The check agrees with the next poll. -/
def HasDataRight (r : Ringbuffer) (base : Region) : Prop :=
  rbHasData r base ≠ 0 ↔ (rbPollByte r base).1 ≠ 0

/-- The receiver and the region while a block is sent and then
received. -/
inductive Between (r : Ringbuffer) (base : Region) (block : List UInt8) :
    Ringbuffer → Region → Prop
  | sending (k : Nat) : k ≤ block.length →
      Between r base block r (transmitBytes r base (block.take k)).2
  | receiving (k polls : Nat) (s : List UInt8) (r' : Ringbuffer) :
      k ≤ block.length →
      receiveBytes (transmitBytes r base block).2 polls r k = some (s, r') →
      Between r base block r' (transmitBytes r base block).2

/-- A block arrives as it is, both calls return its length, both sides are
drained again, and the check for data is right in between. -/
structure Faithful (send : SendCall) (receive : ReceiveCall)
    (r : Ringbuffer) (base : Region) (block : List UInt8) : Prop where
  arrives : ∃ sender base' polls receiver,
    send.run r base block = some (block.length, sender, base')
      ∧ receive.run r base' polls block.length
        = some (block.length, block, receiver)
      ∧ Drained sender receiver base'
  hasData : ∀ r' base', Between r base block r' base' →
    HasDataRight r' base'

/-- What a call that sends returns. -/
def SendCall.result (block : List UInt8) : SendCall → Nat
  | .transmit => 0
  | .transmitString => block.length

end ProjectsLibs.Ringbuffer
