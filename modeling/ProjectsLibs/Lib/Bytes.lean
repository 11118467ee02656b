/-
Numbers as bytes, the low byte first.

`leBytes n x` are the `n` bytes of `x` and `leValue bs` the number that
`bs` stand for. Each is the inverse of the other for numbers that fit
(`leValue_leBytes`, `leBytes_leValue`). `beBytes` and `beValue` are the
same with the high byte first.

# How it is used

Both functions are defined by recursion on the number of bytes, with a
quotient and a remainder by 256 at each step, and a proof about a field
of a message unfolds neither. A writer stores `leBytes n x`, a reader
takes `leValue` of as many bytes, and the round trip is an equation, with
a remainder where the number may not fit. The bound `leValue_lt` is what
a reader has to know of a number that it has read.
-/
import Mathlib.Algebra.Ring.Nat
import Mathlib.Data.UInt
import Mathlib.Tactic.Common

namespace ProjectsLibs.Lib

/-- The low `n` bytes of a number. -/
def leBytes : Nat → Nat → List UInt8
  | 0, _ => []
  | n + 1, x => UInt8.ofNat x :: leBytes n (x / 256)

/-- The number that bytes stand for. -/
def leValue : List UInt8 → Nat
  | [] => 0
  | b :: bs => 256 * leValue bs + b.toNat

@[simp] theorem length_leBytes (n x : Nat) : (leBytes n x).length = n := by
  induction n generalizing x with
  | zero => rfl
  | succ n ih => simp [leBytes, ih]

/-- What `n` bytes can hold: the bound that a field of so many bytes puts
on its number. -/
theorem leValue_lt (bs : List UInt8) : leValue bs < 256 ^ bs.length := by
  induction bs with
  | nil => decide
  | cons b bs ih =>
      have hb : b.toNat < 256 := b.toNat_lt
      rw [leValue, List.length_cons, Nat.pow_succ]
      omega

/-- Bytes of a number give back what of it fits. -/
theorem leValue_leBytes (n x : Nat) :
    leValue (leBytes n x) = x % 256 ^ n := by
  induction n generalizing x with
  | zero => simp [leBytes, leValue, Nat.mod_one]
  | succ n ih =>
      have hbyte : (UInt8.ofNat x).toNat = x % 256 := rfl
      rw [leBytes, leValue, ih, hbyte, Nat.pow_succ', Nat.mod_mul]
      omega

/-- A number of bytes has these bytes. -/
theorem leBytes_leValue (bs : List UInt8) :
    leBytes bs.length (leValue bs) = bs := by
  induction bs with
  | nil => rfl
  | cons b bs ih =>
      have hb : b.toNat < 256 := b.toNat_lt
      have hlow : UInt8.ofNat (256 * leValue bs + b.toNat) = b := by
        apply UInt8.toNat.inj
        show (256 * leValue bs + b.toNat) % 256 = b.toNat
        omega
      have hhigh : (256 * leValue bs + b.toNat) / 256 = leValue bs := by omega
      rw [List.length_cons, leValue, leBytes, hlow, hhigh, ih]

-- ==================================================== the high byte first

/-- The low `n` bytes of a number, the high one of them first. -/
def beBytes (n x : Nat) : List UInt8 := (leBytes n x).reverse

/-- The number that bytes stand for. -/
def beValue (bs : List UInt8) : Nat := leValue bs.reverse

@[simp] theorem length_beBytes (n x : Nat) : (beBytes n x).length = n := by
  simp [beBytes]

theorem beValue_lt (bs : List UInt8) : beValue bs < 256 ^ bs.length := by
  have hlt := leValue_lt bs.reverse
  rwa [List.length_reverse] at hlt

/-- Written and read back, a number is what is left of it in `n` bytes. -/
theorem beValue_beBytes (n x : Nat) :
    beValue (beBytes n x) = x % 256 ^ n := by
  unfold beValue beBytes
  rw [List.reverse_reverse, leValue_leBytes]

/-- Read and written back, bytes are the same bytes: the two functions are
inverse to one another where the numbers fit. -/
theorem beBytes_beValue (bs : List UInt8) :
    beBytes bs.length (beValue bs) = bs := by
  have hback := leBytes_leValue bs.reverse
  rw [List.length_reverse] at hback
  unfold beValue beBytes
  rw [hback, List.reverse_reverse]

end ProjectsLibs.Lib
