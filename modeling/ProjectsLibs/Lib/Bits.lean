/-
Sets of small numbers kept as the bits of a 32-bit word.

`mask a` is the word a driver writes as `1 << a`. The lemmas say what the
three usual expressions do to membership: testing a bit (`and_mask_iff`),
setting one (`testBit_or_mask`) and clearing one (`testBit_and_not_mask`).

# How it is used

An equation between words is proved bit by bit (`eq_of_testBit`), and a
bit of an expression is a Boolean expression in the bits of its parts.
The simplifier does the rewriting: a proof names the bits it is about,
and what is left are equations between the numbers of bits. Complements
need an index below 32, because a bit of a number is asked for, and a
number has none beyond those of the word; `testBit_of_le` is for the
indices above.
-/
import Mathlib.Data.Fintype.Card
import Mathlib.Order.Interval.Finset.Nat
import Mathlib.Tactic.Common

namespace ProjectsLibs.Lib

/-- The word with bit `a` set. -/
def mask (a : Nat) : UInt32 := 1 <<< UInt32.ofNat a

/-- Bit `a` of a word. -/
def testBit (w : UInt32) (a : Nat) : Bool := w.toBitVec.getLsbD a

/-- As a bit vector `mask a` is the power of two with that one bit, which
is what the library's lemmas about bits speak of. -/
theorem toBitVec_mask {a : Nat} (ha : a < 32) :
    (mask a).toBitVec = BitVec.twoPow 32 a := by
  have hmod : a % 32 = a := Nat.mod_eq_of_lt ha
  unfold mask
  rw [UInt32.toBitVec_shiftLeft, BitVec.twoPow_eq]
  show 1#32 <<< (UInt32.ofNat a).toBitVec.umod 32 = _
  simp [hmod]

/-- The one bit that a mask has, asked for by number. -/
theorem testBit_mask {a b : Nat} (ha : a < 32) :
    testBit (mask a) b = decide (a = b) := by
  unfold testBit
  rw [toBitVec_mask ha, BitVec.getLsbD_twoPow, decide_eq_true ha,
    Bool.true_and]

/-- Bits of a conjunction; with `testBit_or` and `testBit_and_not` a test
of any register expression comes down to tests of its parts. -/
theorem testBit_and (v w : UInt32) (b : Nat) :
    testBit (v &&& w) b = (testBit v b && testBit w b) := by
  simp [testBit]

/-- A bit of a disjunction is set if it is set in one of the two. -/
theorem testBit_or (v w : UInt32) (b : Nat) :
    testBit (v ||| w) b = (testBit v b || testBit w b) := by
  simp [testBit]

theorem testBit_zero (b : Nat) : testBit 0 b = false := by
  simp [testBit]

/-- Words with the same 32 bits are the same word, so that an equation
between register values can be proved bit by bit. -/
theorem eq_of_testBit {v w : UInt32}
    (h : ∀ b < 32, testBit v b = testBit w b) : v = w := by
  apply UInt32.eq_of_toBitVec_eq
  apply BitVec.eq_of_getLsbD_eq
  exact h

/-- Testing a bit. -/
theorem and_mask_iff (w : UInt32) {a : Nat} (ha : a < 32) :
    w &&& mask a ≠ 0 ↔ testBit w a = true := by
  constructor
  · intro hne
    by_contra hclear
    apply hne
    apply eq_of_testBit
    intro b _
    rw [testBit_and, testBit_mask ha, testBit_zero]
    by_cases hab : a = b
    · rw [← hab, Bool.eq_false_iff.2 hclear, Bool.false_and]
    · rw [decide_eq_false hab, Bool.and_false]
  · intro hset hzero
    have hbit : testBit (w &&& mask a) a = true := by
      rw [testBit_and, testBit_mask ha, hset]
      simp
    rw [hzero, testBit_zero] at hbit
    cases hbit

/-- Setting a bit. -/
theorem testBit_or_mask (w : UInt32) {a : Nat} (ha : a < 32) (b : Nat) :
    testBit (w ||| mask a) b = (testBit w b || decide (a = b)) := by
  rw [← testBit_mask ha]
  simp [testBit]

/-- Clearing a bit. -/
theorem testBit_and_not_mask (w : UInt32) {a b : Nat} (ha : a < 32)
    (hb : b < 32) :
    testBit (w &&& ~~~mask a) b = (testBit w b && decide (a ≠ b)) := by
  rw [decide_not, ← testBit_mask ha]
  simp [testBit, hb]

/-- Clearing the bits of `w`. The complement has bits beyond the 32 only as
a number, so the index is bounded. -/
theorem testBit_and_not (v w : UInt32) {b : Nat} (hb : b < 32) :
    testBit (v &&& ~~~w) b = (testBit v b && !testBit w b) := by
  simp [testBit, hb]

/-- There are no bits beyond the 32. -/
theorem testBit_of_le (w : UInt32) {b : Nat} (hb : 32 ≤ b) :
    testBit w b = false := BitVec.getLsbD_of_ge _ _ hb

/-- All bits of the greatest word are set. -/
theorem testBit_allOnes {b : Nat} (hb : b < 32) :
    testBit 0xffffffff b = true := by
  show (BitVec.allOnes 32).getLsbD b = true
  rw [BitVec.getLsbD_allOnes, decide_eq_true hb]

end ProjectsLibs.Lib
