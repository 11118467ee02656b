/-
The format, said without the code: which bytes stand for which object.

A scalar object is its head and its body (`Scalar`); the items of a
container, or its keys and values in turn, follow its head (`Wires`).
`Wires strict` is about a list of objects one after the other, so that an
induction on it goes through containers and through their neighbours at
once. Without `strict` there is one production more, which is not of the
format: an extension whose 32-bit length is the greatest, without anything
behind the length.
-/
import ProjectsLibs.Lib.Bytes
import ProjectsLibs.Msgpack.Object

namespace ProjectsLibs.Msgpack

open Lib

/-- The object of an integer. -/
def integer {β : Type} (d : Int) : Object β :=
  if 0 ≤ d then .positiveInteger (UInt64.ofNat d.toNat)
  else .negativeInteger (Int64.ofInt d)

/-- An integer that is not negative is stored as a positive one. -/
theorem integer_natCast (n : Nat) :
    (integer (n : Int) : Value) = .positiveInteger (UInt64.ofNat n) :=
  if_pos (Int.natCast_nonneg n)

/-- The integer of `k` bytes in two's complement, with the value `n`. -/
def signed (k n : Nat) : Int :=
  if n < 2 ^ (8 * k - 1) then n else (n : Int) - 2 ^ (8 * k)

-- ================================================================= heads

/-- Heads that say a number: within one byte if it is small, or with a code
and the number in as many bytes as the code says. -/
inductive Head (small base : Nat) (codes : List (Nat × UInt8)) :
    Nat → List UInt8 → Prop
  | fix {n : Nat} : n < small →
      Head small base codes n [UInt8.ofNat (base + n)]
  | sized {k : Nat} {code : UInt8} {bytes : List UInt8} :
      (k, code) ∈ codes → bytes.length = k →
      Head small base codes (beValue bytes) (code :: bytes)

abbrev uintCodes : List (Nat × UInt8) :=
  [(1, 0xcc), (2, 0xcd), (4, 0xce), (8, 0xcf)]

abbrev intCodes : List (Nat × UInt8) :=
  [(1, 0xd0), (2, 0xd1), (4, 0xd2), (8, 0xd3)]

abbrev StrHead : Nat → List UInt8 → Prop :=
  Head 32 0xa0 [(1, 0xd9), (2, 0xda), (4, 0xdb)]

abbrev BinHead : Nat → List UInt8 → Prop :=
  Head 0 0 [(1, 0xc4), (2, 0xc5), (4, 0xc6)]

abbrev ArrayHead : Nat → List UInt8 → Prop :=
  Head 16 0x90 [(2, 0xdc), (4, 0xdd)]

abbrev MapHead : Nat → List UInt8 → Prop :=
  Head 16 0x80 [(2, 0xde), (4, 0xdf)]

/-- The heads of extensions, without the type. The extension of
`2 ^ 32 - 1` bytes, the greatest that the format has, is left out: its size
with the type does not fit 32 bits, and neither the packer nor the parser
treats it as the format does (`Scalar.overflow`). -/
inductive ExtHead : Nat → List UInt8 → Prop
  | fixext {n : Nat} {code : UInt8} :
      (n, code) ∈ [(1, 0xd4), (2, 0xd5), (4, 0xd6), (8, 0xd7), (16, 0xd8)] →
      ExtHead n [code]
  | sized {k : Nat} {code : UInt8} {bytes : List UInt8} :
      (k, code) ∈ [(1, 0xc7), (2, 0xc8), (4, 0xc9)] → bytes.length = k →
      beValue bytes + 1 < 2 ^ 32 →
      ExtHead (beValue bytes) (code :: bytes)

-- =============================================================== objects

/-- The bytes of objects that are not containers. `toDouble` takes a number
of 32 bits to the same number of 64. -/
inductive Scalar (toDouble : UInt32 → UInt64) (strict : Bool) :
    Value → List UInt8 → Prop
  | nil : Scalar toDouble strict .nil [0xc0]
  | false : Scalar toDouble strict (.boolean false) [0xc2]
  | true : Scalar toDouble strict (.boolean true) [0xc3]
  | fixnum {b : UInt8} : b.toNat < 0x80 →
      Scalar toDouble strict (integer b.toNat) [b]
  | negativeFixnum {b : UInt8} : 0xe0 ≤ b.toNat →
      Scalar toDouble strict (integer (signed 1 b.toNat)) [b]
  | uint {k : Nat} {code : UInt8} {bytes : List UInt8} :
      (k, code) ∈ uintCodes → bytes.length = k →
      Scalar toDouble strict (integer (beValue bytes)) (code :: bytes)
  | int {k : Nat} {code : UInt8} {bytes : List UInt8} :
      (k, code) ∈ intCodes → bytes.length = k →
      Scalar toDouble strict (integer (signed k (beValue bytes)))
        (code :: bytes)
  | float {bytes : List UInt8} : bytes.length = 4 →
      Scalar toDouble strict
        (.float (toDouble (UInt32.ofNat (beValue bytes)))) (0xca :: bytes)
  | double {bytes : List UInt8} : bytes.length = 8 →
      Scalar toDouble strict (.float (UInt64.ofNat (beValue bytes)))
        (0xcb :: bytes)
  | str {head body : List UInt8} : StrHead body.length head →
      Scalar toDouble strict (.str body) (head ++ body)
  | bin {head body : List UInt8} : BinHead body.length head →
      Scalar toDouble strict (.bin body) (head ++ body)
  | ext {head body : List UInt8} {type : UInt8} :
      ExtHead body.length head →
      Scalar toDouble strict (.ext type.toInt8 body)
        (head ++ type :: body)
  | overflow {body : List UInt8} : strict = false →
      Scalar toDouble strict (.ext (-1) body)
        [0xc9, 0xff, 0xff, 0xff, 0xff]

/-- Keys and values in turn. -/
def inTurn {β : Type} (kvs : List (Object β × Object β)) :
    List (Object β) :=
  kvs.flatMap fun kv => [kv.1, kv.2]

/-- The bytes of objects one after the other. -/
inductive Wires (toDouble : UInt32 → UInt64) (strict : Bool) :
    List Value → List UInt8 → Prop
  | nil : Wires toDouble strict [] []
  | scalar {o : Value} {bytes : List UInt8} {os : List Value}
      {more : List UInt8} :
      Scalar toDouble strict o bytes → Wires toDouble strict os more →
      Wires toDouble strict (o :: os) (bytes ++ more)
  | array {items : List Value} {head bytes : List UInt8} {os : List Value}
      {more : List UInt8} :
      ArrayHead items.length head → Wires toDouble strict items bytes →
      Wires toDouble strict os more →
      Wires toDouble strict (.array items :: os) (head ++ bytes ++ more)
  | map {kvs : List (Value × Value)} {head bytes : List UInt8}
      {os : List Value} {more : List UInt8} :
      MapHead kvs.length head →
      Wires toDouble strict (inTurn kvs) bytes →
      Wires toDouble strict os more →
      Wires toDouble strict (.map kvs :: os) (head ++ bytes ++ more)

/-- The bytes of an object. -/
def Wire (toDouble : UInt32 → UInt64) (o : Value) (bytes : List UInt8) :
    Prop :=
  Wires toDouble true [o] bytes

namespace Wires

variable {toDouble : UInt32 → UInt64} {strict : Bool} {os os' : List Value}
  {bytes bytes' : List UInt8}

/-- Objects in a row are encoded in a row. -/
theorem append (h : Wires toDouble strict os bytes)
    (h' : Wires toDouble strict os' bytes') :
    Wires toDouble strict (os ++ os') (bytes ++ bytes') := by
  induction h with
  | nil => exact h'
  | scalar ho _ ih =>
      rw [List.cons_append, List.append_assoc]
      exact .scalar ho ih
  | array hhead hitems _ _ ih =>
      rw [List.cons_append, List.append_assoc]
      exact .array hhead hitems ih
  | map hhead hkvs _ _ ih =>
      rw [List.cons_append, List.append_assoc]
      exact .map hhead hkvs ih

/-- One object. -/
theorem one {o : Value} (h : Scalar toDouble strict o bytes) :
    Wires toDouble strict [o] bytes := by
  have hone := Wires.scalar h .nil
  rwa [List.append_nil] at hone

/-- An array is its head and the encodings of its items. -/
theorem oneArray {items : List Value} {head : List UInt8}
    (hhead : ArrayHead items.length head)
    (h : Wires toDouble strict items bytes) :
    Wires toDouble strict [.array items] (head ++ bytes) := by
  have hone := Wires.array hhead h .nil
  rwa [List.append_nil] at hone

/-- A map is its head and the encodings of its keys and values, in turn. -/
theorem oneMap {kvs : List (Value × Value)} {head : List UInt8}
    (hhead : MapHead kvs.length head)
    (h : Wires toDouble strict (inTurn kvs) bytes) :
    Wires toDouble strict [.map kvs] (head ++ bytes) := by
  have hone := Wires.map hhead h .nil
  rwa [List.append_nil] at hone

end Wires

end ProjectsLibs.Msgpack
