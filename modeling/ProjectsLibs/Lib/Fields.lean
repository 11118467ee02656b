/-
Bit fields packed into a 32-bit word: `place n k x` has the low `n` bits of
`x` from bit `k` on, and `take n k w` reads them back.

`Clear n k w` says that a word has nothing in a field. A field is read
back from a word that is otherwise clear there (`take_or_place`), and put
in place of another one (`replace_place`).

# Bit by bit

Every statement about words is proved from the bits: there is one lemma
that says which bits `place`, a shift or a mask has, and two words with
the same bits are equal. So the arithmetic of a field (`k + n ≤ 32`, a
value that fits) comes up in these lemmas alone.

A word with several fields is a disjunction of parts. To read one of them
it is enough that each other part is clear there, and `Clear` goes through
disjunctions (`Clear.or`) down to a bit or a field that lies beside
(`Clear.mask`, `Clear.place`). The same predicate serves for flags, which
are masks, and for fields.
-/
import ProjectsLibs.Lib.Bits

namespace ProjectsLibs.Lib

/-- The low `n` bits. -/
def low (n : Nat) : UInt32 := UInt32.ofNat (2 ^ n - 1)

/-- A value as a field of `n` bits at bit `k`. -/
def place (n k : Nat) (x : UInt32) : UInt32 := (x &&& low n) * mask k

/-- The value of a field of `n` bits at bit `k`. -/
def take (n k : Nat) (w : UInt32) : UInt32 :=
  (w >>> UInt32.ofNat k) &&& low n

/-- Nothing is in the field. -/
def Clear (n k : Nat) (w : UInt32) : Prop :=
  ∀ b, k ≤ b → b < k + n → testBit w b = false

-- ================================================================= bits

/-- The lowest `n` bits are those that `low n` has. -/
theorem testBit_low {n : Nat} (hn : n ≤ 32) (b : Nat) :
    testBit (low n) b = decide (b < n) := by
  unfold testBit low
  show (BitVec.ofNat 32 (2 ^ n - 1)).getLsbD b = _
  rw [BitVec.getLsbD_ofNat, Nat.testBit_two_pow_sub_one]
  by_cases hb : b < n
  · rw [decide_eq_true hb, decide_eq_true (Nat.lt_of_lt_of_le hb hn)]
    rfl
  · rw [decide_eq_false hb, Bool.and_false]

/-- Multiplying by `2 ^ k` is shifting: what is below `k` is zero, and what
falls off at the top is gone. -/
theorem testBit_mul_mask (w : UInt32) {k : Nat} (hk : k < 32) {b : Nat}
    (hb : b < 32) :
    testBit (w * mask k) b = (decide (k ≤ b) && testBit w (b - k)) := by
  unfold testBit
  rw [UInt32.toBitVec_mul, toBitVec_mask hk,
    BitVec.mul_twoPow_eq_shiftLeft, BitVec.getLsbD_shiftLeft,
    decide_eq_true hb, Bool.true_and]
  by_cases hkb : k ≤ b
  · rw [decide_eq_true hkb, decide_eq_false (Nat.not_lt.2 hkb)]
    rfl
  · rw [decide_eq_false hkb, decide_eq_true (Nat.lt_of_not_le hkb)]
    rfl

/-- A shift to the right by a constant brings a field down to bit 0. -/
theorem testBit_shiftRight (w : UInt32) {k : Nat} (hk : k < 32) (b : Nat) :
    testBit (w >>> UInt32.ofNat k) b = testBit w (k + b) := by
  have hmod : k % 32 = k := Nat.mod_eq_of_lt hk
  unfold testBit
  rw [UInt32.toBitVec_shiftRight]
  show (w.toBitVec >>> (UInt32.ofNat k).toBitVec.umod 32).getLsbD b = _
  simp [hmod]

/-- The bits of a field that was put at its position: those of the value
within the field's width, and none outside. -/
theorem testBit_place (x : UInt32) {n k : Nat} (hk : k < 32) (hn : n ≤ 32)
    {b : Nat} (hb : b < 32) :
    testBit (place n k x) b
      = (decide (k ≤ b ∧ b < k + n) && testBit x (b - k)) := by
  rw [place, testBit_mul_mask _ hk hb, testBit_and, testBit_low hn]
  by_cases hkb : k ≤ b
  · by_cases hbn : b < k + n
    · rw [decide_eq_true hkb, decide_eq_true (show b - k < n by omega),
        decide_eq_true ⟨hkb, hbn⟩, Bool.and_true]
    · rw [decide_eq_false (show ¬b - k < n by omega),
        decide_eq_false (fun h : k ≤ b ∧ b < k + n => hbn h.2),
        Bool.and_false, Bool.and_false, Bool.false_and]
  · rw [decide_eq_false hkb,
      decide_eq_false (fun h : k ≤ b ∧ b < k + n => hkb h.1),
      Bool.false_and, Bool.false_and]

/-- A value that fits has no bits above the field. -/
theorem testBit_of_fits {x : UInt32} {n : Nat} (hx : x.toNat < 2 ^ n)
    {b : Nat} (hb : n ≤ b) : testBit x b = false := by
  unfold testBit
  rw [← BitVec.testBit_toNat]
  show x.toNat.testBit b = false
  exact Nat.testBit_lt_two_pow
    (Nat.lt_of_lt_of_le hx (Nat.pow_le_pow_right (by decide) hb))

-- ============================================================ clear words

namespace Clear

variable {n k : Nat} {v w : UInt32}

/-- A register that is all zero has every field clear, which is where
building a register word starts. -/
theorem zero : Clear n k 0 := fun b _ _ => testBit_zero b

/-- Fields stay clear when words that leave them clear are put together. -/
theorem or (hv : Clear n k v) (hw : Clear n k w) : Clear n k (v ||| w) := by
  intro b hkb hb
  rw [testBit_or, hv b hkb hb, hw b hkb hb]
  rfl

/-- A single bit outside of a field does not touch it. -/
theorem mask {a : Nat} (ha : a < 32) (hout : a < k ∨ k + n ≤ a) :
    Clear n k (mask a) := by
  intro b hkb hb
  rw [testBit_mask ha]
  exact decide_eq_false (by omega)

/-- A field that lies beside another does not touch it: the side condition
of every lemma about a word that is built from several. -/
theorem place {n' k' : Nat} (hk : k' < 32) (hn : n' ≤ 32)
    (hfit : k + n ≤ 32) (hout : k' + n' ≤ k ∨ k + n ≤ k') (x : UInt32) :
    Clear n k (place n' k' x) := by
  intro b hkb hb
  rw [testBit_place x hk hn (Nat.lt_of_lt_of_le hb hfit),
    decide_eq_false (by omega), Bool.false_and]

end Clear

-- =============================================================== reading

section reading

variable {n k : Nat} {w x y : UInt32}

/-- The bits of a field that was read. -/
theorem testBit_take (w : UInt32) (hk : k < 32) (hn : n ≤ 32) (b : Nat) :
    testBit (take n k w) b = (testBit w (k + b) && decide (b < n)) := by
  rw [take, testBit_and, testBit_shiftRight w hk, testBit_low hn]

/-- Reading a field goes through a disjunction of words, so that each part
of a register word can be looked at by itself. -/
theorem take_or (v w : UInt32) (hk : k < 32) (hn : n ≤ 32) :
    take n k (v ||| w) = take n k v ||| take n k w := by
  apply eq_of_testBit
  intro b _
  rw [testBit_or, testBit_take _ hk hn, testBit_take _ hk hn,
    testBit_take _ hk hn, testBit_or, Bool.and_or_distrib_right]

/-- The other way to read a field: cut out and moved down. -/
theorem shiftRight_and_place (w : UInt32) (hk : k < 32)
    (hfit : k + n ≤ 32) :
    (w &&& place n k (low n)) >>> UInt32.ofNat k = take n k w := by
  have hn : n ≤ 32 := Nat.le_trans (Nat.le_add_left n k) hfit
  apply eq_of_testBit
  intro b _
  rw [testBit_take w hk hn, testBit_shiftRight _ hk, testBit_and]
  by_cases hb : k + b < 32
  · rw [testBit_place _ hk hn hb, testBit_low hn, Nat.add_sub_cancel_left]
    by_cases hbn : b < n
    · rw [decide_eq_true (show k ≤ k + b ∧ k + b < k + n by omega),
        Bool.true_and]
    · rw [decide_eq_false hbn, Bool.and_false]
  · rw [testBit_of_le w (Nat.le_of_not_lt hb), Bool.false_and,
      Bool.false_and]

/-- A field is read back. -/
theorem take_or_place (hk : k < 32) (hfit : k + n ≤ 32) (hw : Clear n k w)
    (hx : x.toNat < 2 ^ n) : take n k (w ||| place n k x) = x := by
  have hn : n ≤ 32 := Nat.le_trans (Nat.le_add_left n k) hfit
  apply eq_of_testBit
  intro b _
  rw [testBit_take _ hk hn]
  by_cases hb : b < n
  · rw [decide_eq_true hb, Bool.and_true, testBit_or,
      hw (k + b) (by omega) (by omega), Bool.false_or,
      testBit_place x hk hn (by omega), decide_eq_true (by omega),
      Bool.true_and, Nat.add_sub_cancel_left]
  · rw [decide_eq_false hb, Bool.and_false,
      testBit_of_fits hx (Nat.le_of_not_lt hb)]

/-- Nothing is read from a clear field. -/
theorem take_of_clear (hk : k < 32) (hfit : k + n ≤ 32)
    (hw : Clear n k w) : take n k w = 0 := by
  apply eq_of_testBit
  intro b _
  rw [testBit_take w hk (Nat.le_trans (Nat.le_add_left n k) hfit),
    testBit_zero]
  by_cases hb : b < n
  · rw [hw (k + b) (by omega) (by omega), Bool.false_and]
  · rw [decide_eq_false hb, Bool.and_false]

/-- A field is put in place of another one. -/
theorem replace_place (hk : k < 32) (hfit : k + n ≤ 32)
    (hw : Clear n k w) :
    (w ||| place n k y) &&& ~~~place n k (low n) ||| place n k x
      = w ||| place n k x := by
  have hn : n ≤ 32 := Nat.le_trans (Nat.le_add_left n k) hfit
  apply eq_of_testBit
  intro b hb
  simp only [testBit_or, testBit_and_not _ _ hb, testBit_place _ hk hn hb,
    testBit_low hn]
  by_cases hin : k ≤ b ∧ b < k + n
  · rw [decide_eq_true hin, hw b hin.1 hin.2,
      decide_eq_true (show b - k < n by omega)]
    simp
  · rw [decide_eq_false hin]
    simp

end reading

end ProjectsLibs.Lib
