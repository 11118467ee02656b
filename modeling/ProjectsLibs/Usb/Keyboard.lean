/-
libusbdrivers: the character buffer of the keyboard driver (usbkbd.c). The
interrupt handler puts the characters of a key press into it, `kbd_read`
takes them out.

A call is `none` where C leaves it undefined: an index outside of the
array, a result outside of `int`. Comparisons with `sizeof` are made in
`size_t`, of whatever width the target has.

# The arithmetic

The length of a string is an `int`, the number of slots is a `size_t`,
and the comparison of the two is made in the wider unsigned type, so a
negative number is a large one there. With 32 and with 64 bits the code
does the same in the states that are reached, and the target is a
parameter of the model so that this can be said. Head and tail are
indices that are moved by one with a test for the end, never by a
remainder.

The specification is a bounded queue of characters, which takes a string
whole or refuses it, and gives as many as are asked for and there. It is
connected to the buffer by `Stores`: the characters from the head on,
around the end of the array.
-/
import Mathlib.Algebra.Ring.Int.Defs
import Mathlib.Algebra.Ring.Nat
import Mathlib.Data.UInt
import ProjectsLibs.Lib.Refine
import ProjectsLibs.Lib.Ring

namespace ProjectsLibs.Usb

open Lib

-- ============================================================ arithmetic

/-- The data models of the targets. -/
inductive Target
  | ilp32
  | lp64
  deriving DecidableEq, Repr

/-- The bits of `size_t`. -/
def Target.width : Target → Nat
  | .ilp32 => 32
  | .lp64 => 64

/-- `(size_t)x`. -/
def Target.sizeT (target : Target) (x : Int) : Nat :=
  (x % 2 ^ target.width).toNat

/-- A value of type `int`. -/
def int (x : Int) : Option Int :=
  if -2 ^ 31 ≤ x ∧ x < 2 ^ 31 then some x else none

-- ============================================================= the buffer

/-- `sizeof(rb->b) / sizeof(*rb->b)`. -/
def rbSlots : Nat := 100

/-- `struct ringbuf`. -/
structure Ringbuf where
  b : Nat → UInt8
  head : Int
  tail : Int
  size : Int

/-- An index into `rb->b`. -/
def rbIndex (i : Int) : Option Nat :=
  if 0 ≤ i ∧ i < rbSlots then some i.toNat else none

/-- A string, of a length that the parameter `size` can say. -/
structure Str where
  chars : List UInt8
  length_lt : chars.length < 2 ^ 31

/-- `rb_init`. -/
def rbInit (rb : Ringbuf) : Ringbuf :=
  { rb with head := 0, tail := 0, size := 0 }

variable (target : Target)

/-- `++` of `rb->head` and `rb->tail`, with the test for the end. -/
def rbAdvance (i : Int) : Option Int := do
  let i ← int (i + 1)
  if target.sizeT i = rbSlots then return 0 else return i

/-- One turn of the loop of `rb_produce`. -/
def rbPut (rb : Ringbuf) (c : UInt8) : Option Ringbuf := do
  let i ← rbIndex rb.tail
  let tail ← rbAdvance target rb.tail
  let size ← int (rb.size + 1)
  return { rb with b := Function.update rb.b i c, tail := tail, size := size }

/-- The loop of `rb_produce`. -/
def rbPutAll (rb : Ringbuf) : List UInt8 → Option Ringbuf
  | [] => some rb
  | c :: str =>
      match rbPut target rb c with
      | none => none
      | some rb => rbPutAll rb str

/-- `rb_produce`. -/
def rbProduce (rb : Ringbuf) (str : Str) : Option (Int × Ringbuf) :=
  if target.sizeT (rbSlots - rb.size) ≥ target.sizeT str.chars.length then
    (rbPutAll target rb str.chars).map fun rb => (0, rb)
  else some (1, rb)

/-- `rb_consume`. -/
def rbConsume (rb : Ringbuf) : Option (Int × Ringbuf) := do
  if rb.size ≠ 0 then
    let i ← rbIndex rb.head
    let head ← rbAdvance target rb.head
    let size ← int (rb.size - 1)
    return ((rb.b i).toNat, { rb with head := head, size := size })
  else return (-1, rb)

/-- The loop of `kbd_read`, with `left` turns to go: the count, what was
written to `data`, and the buffer. -/
def readLoop (rb : Ringbuf) (i : Int) (data : List UInt8) :
    Nat → Option (Int × List UInt8 × Ringbuf)
  | 0 => some (i, data, rb)
  | left + 1 =>
      match rbConsume target rb with
      | none => none
      | some (c, rb) =>
          if c ≥ 0 then
            match int (i + 1) with
            | none => none
            | some i => readLoop rb i (data ++ [UInt8.ofNat c.toNat]) left
          else some (i, data, rb)

/-- `kbd_read`: the result, the characters delivered, and the buffer. -/
def kbdRead (rb : Ringbuf) (bytes : Nat) :
    Option (Int × List UInt8 × Ringbuf) :=
  readLoop target rb 0 [] bytes

-- ============================================================== the calls

inductive KbdCall
  | produce (str : Str)
  | read (bytes : Nat)

/-- What a call gives back: the result, and what it delivered. -/
structure KbdResult where
  ret : Int
  data : List UInt8
  deriving DecidableEq, Repr

def kbdCall (rb : Ringbuf) : KbdCall → Option (KbdResult × Ringbuf)
  | .produce str =>
      (rbProduce target rb str).map fun (ret, rb) => (⟨ret, []⟩, rb)
  | .read bytes =>
      (kbdRead target rb bytes).map fun (ret, data, rb) => (⟨ret, data⟩, rb)

-- ==================================================== the specification

/-- A FIFO of `slots` characters, with the characters it stores as its
state. -/
def fifoCall (slots : Nat) (stored : List UInt8) :
    KbdCall → KbdResult × List UInt8
  | .produce str =>
      if str.chars.length ≤ slots - stored.length then
        (⟨0, []⟩, stored ++ str.chars)
      else (⟨1, []⟩, stored)
  | .read bytes =>
      (⟨(min bytes stored.length : Nat), stored.take bytes⟩,
        stored.drop bytes)

/-- The buffer has the characters of the FIFO between head and tail. -/
structure Stores (rb : Ringbuf) (stored : List UInt8) : Prop where
  head_range : 0 ≤ rb.head ∧ rb.head < rbSlots
  tail_range : 0 ≤ rb.tail ∧ rb.tail < rbSlots
  size_eq : rb.size = stored.length
  fits : stored.length ≤ rbSlots
  tail_eq : rb.tail = (rb.head + rb.size) % rbSlots
  between : LiesFrom rbSlots rb.b rb.head.toNat stored

end ProjectsLibs.Usb
