/-
libusbdrivers, the EHCI driver: the queue heads and transfer descriptors
of its schedules (ehci.h).

A queue head (`QHn`, with the `QH` that the controller reads) and a
transfer descriptor (`TDn`, with its `TD`) are numbers, and the memory
they are in is a map. The links that the driver follows are such numbers;
the links that the controller follows are words with a physical address
and flags.

# Pointers

The schedules are linked twice. The driver follows its own pointers from a
queue head to the next one and from a descriptor to the next one, and it
changes the words that the controller follows so that they say the same.
That they do is a result about each schedule, so both kinds of links are
in the structures, and the functions store to each where the code does.

A word that leads to a queue head has the address in its upper 27 bits and
the type in its lowest bits. Here only two things are shown of it: that it
is no word that ends a list (`qhLink_valid`) and that the address can be
read back (`qhLink_address`), both for addresses that are aligned.
-/
import Mathlib.Algebra.Ring.Nat
import Mathlib.Logic.Function.Basic
import ProjectsLibs.Lib.Bits
import ProjectsLibs.Lib.Chain

namespace ProjectsLibs.Ehci

open Lib

abbrev QhId := Nat

abbrev TdId := Nat

/-- What ends a call: a null pointer is followed, or a loop does not
end. -/
inductive Fault
  | null
  | endless
  deriving DecidableEq, Repr

/-- `struct QHn` and the fields of its `struct QH` that the schedules
use. -/
structure QHn where
  pqh : UInt32
  qhlptr : UInt32
  epc0 : UInt32
  tdCur : UInt32
  overlayNext : UInt32
  tdns : Option TdId
  rate : Nat
  wasCancelled : Nat
  next : Option QhId

/-- `struct TDn` and the fields of its `struct TD`. Of the pointer `td`
only whether it is null is looked at: what is read of the `struct TD`
through a null pointer ends the call. The callback is the transaction that
it is called for. -/
structure TDn where
  /-- `td` is not null -/
  td : Bool
  ptd : UInt32
  tdNext : UInt32
  token : UInt32
  cb : Option Nat
  next : Option TdId

/-- `TDTOK_SACTIVE`. -/
def tdtokSactive : Nat := 7

/-- `TDTOK_SHALTED`. -/
def tdtokShalted : Nat := 6

/-- `TDTOK_IOC`. -/
def tdtokIoc : Nat := 15

/-- `td->token &= ~TDTOK_SACTIVE`. -/
def TDn.clearActive (tdn : TDn) : TDn :=
  { tdn with token := tdn.token &&& ~~~(mask tdtokSactive) }

/-- `QHLP_INVALID`, and `TDLP_INVALID`: the terminate bit. -/
def linkInvalid : UInt32 := 1

/-- `QHLP_TYPE_QH`. -/
def qhlpTypeQh : UInt32 := 2

/-- The word that leads the controller to a queue head. -/
def qhLink (qhn : QHn) : UInt32 := qhn.pqh ||| qhlpTypeQh

-- =========================================================== link words

/-- A pointer aligned to 32 bytes has its lowest five bits free for flags. -/
theorem testBit_of_aligned {w : UInt32} (h : w &&& 31 = 0) {b : Nat}
    (hb : b < 5) : testBit w b = false := by
  have hlow : ∀ b < 5, testBit 31 b = true := by decide
  have hand : testBit (w &&& 31) b = false := by rw [h, testBit_zero]
  rw [testBit_and, hlow b hb, Bool.and_true] at hand
  exact hand

/-- A link to a queue head has no terminate bit. -/
theorem qhLink_valid {qhn : QHn} (h : qhn.pqh &&& 31 = 0) :
    qhLink qhn &&& linkInvalid = 0 := by
  show (qhn.pqh ||| mask 1) &&& mask 0 = 0
  by_contra hne
  have hbit := (and_mask_iff _ (by decide)).1 hne
  rw [testBit_or_mask _ (by decide),
    testBit_of_aligned h (by decide)] at hbit
  cases hbit

/-- A link to a queue head has its address. -/
theorem qhLink_address {qhn : QHn} (h : qhn.pqh &&& 31 = 0) :
    qhLink qhn &&& ~~~(31 : UInt32) = qhn.pqh := by
  show (qhn.pqh ||| mask 1) &&& ~~~(31 : UInt32) = qhn.pqh
  have hhigh : ∀ b < 32, testBit (~~~(31 : UInt32)) b = decide (5 ≤ b) := by
    decide
  apply eq_of_testBit
  intro b hb
  rw [testBit_and, testBit_or_mask _ (by decide), hhigh b hb]
  by_cases hlow : b < 5
  · rw [testBit_of_aligned h hlow, decide_eq_false (Nat.not_le.2 hlow),
      Bool.and_false]
  · rw [decide_eq_true (Nat.le_of_not_lt hlow),
      decide_eq_false (fun h : 1 = b => hlow (h ▸ by decide)),
      Bool.or_false, Bool.and_true]

end ProjectsLibs.Ehci
