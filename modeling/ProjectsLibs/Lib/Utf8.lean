/-
UTF-8: the bytes of a code point.

`utf8` is written with quotients and remainders by 64, and says nothing of
which numbers are code points; that is `Scalar`. The bytes of a scalar are
known by how many they are (`Shape`).

# How it is used

A program that reads or writes UTF-8 decides by the first byte how many
there are, and then works on each of them with shifts and masks. `Shape`
is what such a program sees: one constructor for each length, with the
bytes as the sum of a fixed part and a digit to base 64, and the range of
the value. A proof about a decoder takes a character apart with
`utf8_shape` and gets the branch of the program from the fixed part; a
proof about an encoder goes the other way with `Shape.eq`. As the range
is part of a shape, encodings that are too long have none.
-/
import Mathlib.Data.UInt
import Mathlib.Tactic.Common

namespace ProjectsLibs.Lib

/-- A Unicode scalar value: a code point that is no surrogate. -/
def Scalar (c : Nat) : Prop :=
  c < 0x110000 ∧ ¬ (0xd800 ≤ c ∧ c ≤ 0xdfff)

instance (c : Nat) : Decidable (Scalar c) :=
  inferInstanceAs (Decidable (_ ∧ _))

/-- The bytes of a code point. -/
def utf8 (c : Nat) : List UInt8 :=
  if c < 0x80 then [UInt8.ofNat c]
  else if c < 0x800 then
    [UInt8.ofNat (0xc0 + c / 64), UInt8.ofNat (0x80 + c % 64)]
  else if c < 0x10000 then
    [UInt8.ofNat (0xe0 + c / 4096), UInt8.ofNat (0x80 + c / 64 % 64),
      UInt8.ofNat (0x80 + c % 64)]
  else
    [UInt8.ofNat (0xf0 + c / 262144), UInt8.ofNat (0x80 + c / 4096 % 64),
      UInt8.ofNat (0x80 + c / 64 % 64), UInt8.ofNat (0x80 + c % 64)]

/-- Text: scalars one after the other. -/
def utf8Text (cs : List Nat) : List UInt8 := cs.flatMap utf8

/-- The bytes are those of scalars. -/
def IsUtf8 (bytes : List UInt8) : Prop :=
  ∃ cs, (∀ c ∈ cs, Scalar c) ∧ bytes = utf8Text cs

-- ================================================== the bytes of a scalar

/-- What the bytes of a code point are, by how many they are. -/
inductive Shape (c : Nat) : List UInt8 → Prop
  | one {a : UInt8} : c < 0x80 → a.toNat = c → Shape c [a]
  | two {a b : UInt8} : 0x80 ≤ c → c < 0x800 →
      a.toNat = 0xc0 + c / 64 → b.toNat = 0x80 + c % 64 → Shape c [a, b]
  | three {a b d : UInt8} : 0x800 ≤ c → c < 0x10000 →
      a.toNat = 0xe0 + c / 4096 → b.toNat = 0x80 + c / 64 % 64 →
      d.toNat = 0x80 + c % 64 → Shape c [a, b, d]
  | four {a b d e : UInt8} : 0x10000 ≤ c → c < 0x110000 →
      a.toNat = 0xf0 + c / 262144 → b.toNat = 0x80 + c / 4096 % 64 →
      d.toNat = 0x80 + c / 64 % 64 → e.toNat = 0x80 + c % 64 →
      Shape c [a, b, d, e]

/-- A byte that is made from a number below 256 holds that number. -/
theorem toNat_byte {n : Nat} (h : n < 256) : (UInt8.ofNat n).toNat = n :=
  UInt8.toNat_ofNat_of_lt' h

/-- A byte from its number. -/
theorem byte_eq {n : Nat} {a : UInt8} (h : a.toNat = n) :
    UInt8.ofNat n = a := by
  rw [← h]
  exact UInt8.ofNat_toNat

/-- Every code point has one of the shapes, by its size. -/
theorem utf8_shape {c : Nat} (h : c < 0x110000) : Shape c (utf8 c) := by
  unfold utf8
  by_cases hone : c < 0x80
  · rw [if_pos hone]
    exact .one hone (toNat_byte (by omega))
  rw [if_neg hone]
  by_cases htwo : c < 0x800
  · rw [if_pos htwo]
    exact .two (by omega) htwo (toNat_byte (by omega))
      (toNat_byte (by omega))
  rw [if_neg htwo]
  by_cases hthree : c < 0x10000
  · rw [if_pos hthree]
    exact .three (by omega) hthree (toNat_byte (by omega))
      (toNat_byte (by omega)) (toNat_byte (by omega))
  · rw [if_neg hthree]
    exact .four (by omega) h (toNat_byte (by omega))
      (toNat_byte (by omega)) (toNat_byte (by omega))
      (toNat_byte (by omega))

/-- A shape determines the bytes: a code point is encoded in one way only,
and overlong forms have no shape. -/
theorem Shape.eq {c : Nat} {bytes : List UInt8} (h : Shape c bytes) :
    bytes = utf8 c := by
  unfold utf8
  cases h with
  | one hlt ha => rw [if_pos hlt, byte_eq ha]
  | two hlo hhi ha hb =>
      rw [if_neg (by omega), if_pos hhi, byte_eq ha, byte_eq hb]
  | three hlo hhi ha hb hd =>
      rw [if_neg (by omega), if_neg (by omega), if_pos hhi, byte_eq ha,
        byte_eq hb, byte_eq hd]
  | four hlo _ ha hb hd he =>
      rw [if_neg (by omega), if_neg (by omega), if_neg (by omega),
        byte_eq ha, byte_eq hb, byte_eq hd, byte_eq he]

/-- No byte of a character other than the null character is null, so C
finds the end of a text where it is. -/
theorem Shape.pos {c : Nat} {bytes : List UInt8} (h : Shape c bytes)
    (hne : c ≠ 0) : ∀ a ∈ bytes, 0 < a.toNat := by
  cases h with
  | one _ ha => exact List.forall_mem_singleton.2 (by omega)
  | two _ _ ha hb =>
      exact List.forall_mem_cons.2
        ⟨by omega, List.forall_mem_singleton.2 (by omega)⟩
  | three _ _ ha hb hd =>
      exact List.forall_mem_cons.2 ⟨by omega, List.forall_mem_cons.2
        ⟨by omega, List.forall_mem_singleton.2 (by omega)⟩⟩
  | four _ _ ha hb hd he =>
      exact List.forall_mem_cons.2 ⟨by omega, List.forall_mem_cons.2
        ⟨by omega, List.forall_mem_cons.2
          ⟨by omega, List.forall_mem_singleton.2 (by omega)⟩⟩⟩

/-- There is a null byte in the null character only. -/
theorem utf8_noNull {c : Nat} (hc : c < 0x110000) (hne : c ≠ 0) :
    0 ∉ utf8 c :=
  fun hmem => absurd ((utf8_shape hc).pos hne 0 hmem) (Nat.lt_irrefl 0)

/-- No character is encoded as nothing, so taking characters off the front
of a text comes to an end. -/
theorem utf8_ne_nil (c : Nat) : utf8 c ≠ [] := by
  unfold utf8
  split_ifs <;> exact List.cons_ne_nil _ _

end ProjectsLibs.Lib
