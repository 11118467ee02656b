/-
Wide values kept in 32-bit words, low word first.

`bitAt w b` is bit `b` of the value whose words are `w`, and
`wordsValue w n` the number the first `n` of them stand for. A field that lies
in one word is cut out with a mask and moved down (`testBit_within`); one
that crosses into the next word is put together from the top of one and
the bottom of the other (`testBit_across`).

# Fields of a wide value

A field from bit `lo` on of `n` bits is read by shifting and masking one
word or two. What these expressions give is said by their bits: bit `b` of
the result is bit `lo + b` of the wide value, for `b` below `n`, and
nothing above. The number of the field follows from the bits
(`toNat_eq_of_testBit`), so that a decoder which takes the fields apart
word by word is compared with the wide number bit by bit, whatever
positions its fields have.
-/
import ProjectsLibs.Lib.Fields

namespace ProjectsLibs.Lib

/-- Bit `b` of a value in words. -/
def bitAt (w : Nat → UInt32) (b : Nat) : Bool := testBit (w (b / 32)) (b % 32)

/-- A position said by its word and its place there. -/
theorem bitAt_eq (w : Nat → UInt32) {i k b : Nat} (hb : b = 32 * i + k)
    (hk : k < 32) : bitAt w b = testBit (w i) k := by
  have hdiv : b / 32 = i := by omega
  have hmod : b % 32 = k := by omega
  unfold bitAt
  rw [hdiv, hmod]

-- ================================================================ shifts

/-- A shift to the left by a constant; what falls off at the top is gone. -/
theorem testBit_shiftLeft (w : UInt32) {k : Nat} (hk : k < 32) {b : Nat}
    (hb : b < 32) :
    testBit (w <<< UInt32.ofNat k) b
      = (decide (k ≤ b) && testBit w (b - k)) := by
  have hmod : k % 32 = k := Nat.mod_eq_of_lt hk
  have hval : (w <<< UInt32.ofNat k).toBitVec = w.toBitVec <<< k := by
    rw [UInt32.toBitVec_shiftLeft]
    show w.toBitVec <<< (UInt32.ofNat k).toBitVec.umod 32 = _
    simp [hmod]
  unfold testBit
  rw [hval, BitVec.getLsbD_shiftLeft, decide_eq_true hb, Bool.true_and]
  by_cases hkb : k ≤ b
  · rw [decide_eq_true hkb, decide_eq_false (Nat.not_lt.2 hkb)]
    rfl
  · rw [decide_eq_false hkb, decide_eq_true (Nat.lt_of_not_le hkb)]
    rfl

/-- A word is a number if it has the number's bits. -/
theorem toNat_eq_of_testBit {w : UInt32} {n : Nat} (hn : n < 2 ^ 32)
    (h : ∀ b < 32, testBit w b = n.testBit b) : w.toNat = n := by
  apply Nat.eq_of_testBit_eq
  intro b
  have hw : testBit w b = w.toNat.testBit b :=
    (BitVec.testBit_toNat w.toBitVec).symm
  rw [← hw]
  by_cases hb : b < 32
  · exact h b hb
  · rw [testBit_of_le w (Nat.le_of_not_lt hb)]
    exact (Nat.testBit_lt_two_pow (Nat.lt_of_lt_of_le hn
      (Nat.pow_le_pow_right (by decide) (Nat.le_of_not_lt hb)))).symm

/-- A value without bits from `n` on is small. -/
theorem toNat_lt_of_testBit {w : UInt32} {n : Nat}
    (h : ∀ b, n ≤ b → testBit w b = false) : w.toNat < 2 ^ n := by
  apply Nat.lt_pow_two_of_testBit
  intro b hb
  rw [← h b hb]
  exact BitVec.testBit_toNat w.toBitVec

/-- A mask as a number, for where masks are added instead of joined. -/
theorem toNat_mask {n : Nat} (hn : n < 32) : (mask n).toNat = 2 ^ n := by
  show (mask n).toBitVec.toNat = _
  rw [toBitVec_mask hn, BitVec.toNat_twoPow]
  exact Nat.mod_eq_of_lt (Nat.pow_lt_pow_right (by decide) hn)

-- ============================================================= the number

/-- The number `n` words stand for, the low word first. -/
def wordsValue (w : Nat → UInt32) : Nat → Nat
  | 0 => 0
  | n + 1 => 2 ^ 32 * wordsValue (fun i => w (i + 1)) n + (w 0).toNat

/-- The bits of the number are the bits of the words. -/
theorem testBit_wordsValue (w : Nat → UInt32) (n b : Nat) :
    (wordsValue w n).testBit b = (decide (b < 32 * n) && bitAt w b) := by
  induction n generalizing w b with
  | zero => simp [wordsValue]
  | succ n ih =>
      rw [wordsValue, Nat.testBit_two_pow_mul_add _ (w 0).toNat_lt b]
      by_cases hb : b < 32
      · have hfirst : bitAt w b = testBit (w 0) b :=
          bitAt_eq w (by omega) hb
        rw [if_pos hb, hfirst, decide_eq_true (show b < 32 * (n + 1) by omega),
          Bool.true_and]
        exact BitVec.testBit_toNat (w 0).toBitVec
      · have hlater : bitAt w b = bitAt (fun i => w (i + 1)) (b - 32) :=
          bitAt_eq w (i := (b - 32) / 32 + 1) (by omega)
            (Nat.mod_lt _ (by decide))
        rw [if_neg hb, ih, hlater]
        congr 1
        exact decide_eq_decide.2 (by omega)

-- ================================================================ fields

/-- A field of one word, cut off at its top and moved down. -/
theorem testBit_within (w : Nat → UInt32) {i lo n b : Nat}
    (hn : 0 < n) (hfit : lo + n ≤ 32) :
    testBit ((w i &&& low (lo + n)) >>> UInt32.ofNat lo) b
      = (decide (b < n) && bitAt w (32 * i + lo + b)) := by
  rw [testBit_shiftRight _ (by omega), testBit_and, testBit_low hfit]
  by_cases hb : b < n
  · rw [decide_eq_true hb, decide_eq_true (show lo + b < lo + n by omega),
      Bool.and_true, Bool.true_and]
    exact (bitAt_eq w (by omega) (by omega)).symm
  · rw [decide_eq_false hb, decide_eq_false (show ¬lo + b < lo + n by omega),
      Bool.and_false, Bool.false_and]

/-- A field that ends in the next word. -/
theorem testBit_across (w : Nat → UInt32) {i lo n b : Nat}
    (hlo : 0 < lo) (hlt : lo < 32) (hcross : 32 ≤ lo + n) (hn : n ≤ 32)
    (hb : b < 32) :
    testBit ((w i >>> UInt32.ofNat lo)
        ||| (w (i + 1) &&& low (lo + n - 32)) <<< UInt32.ofNat (32 - lo)) b
      = (decide (b < n) && bitAt w (32 * i + lo + b)) := by
  rw [testBit_or, testBit_shiftRight _ hlt,
    testBit_shiftLeft _ (by omega) hb, testBit_and, testBit_low (by omega)]
  by_cases hin : lo + b < 32
  · -- still in the first word
    rw [decide_eq_false (show ¬32 - lo ≤ b by omega), Bool.false_and,
      Bool.or_false, decide_eq_true (show b < n by omega), Bool.true_and]
    exact (bitAt_eq w (by omega) hin).symm
  · rw [testBit_of_le _ (Nat.le_of_not_lt hin), Bool.false_or,
      decide_eq_true (show 32 - lo ≤ b by omega), Bool.true_and]
    have hbit : bitAt w (32 * i + lo + b)
        = testBit (w (i + 1)) (b - (32 - lo)) :=
      bitAt_eq w (by omega) (by omega)
    rw [hbit, Bool.and_comm]
    congr 1
    exact decide_eq_decide.2 (by omega)

end ProjectsLibs.Lib
