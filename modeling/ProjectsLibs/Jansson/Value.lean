/-
The values of libjansson (jansson.h, value.c).

`ρ` is the type `double`. An object is its members in the order in which
their keys have been set, which is that of the serial numbers; the order in
which its hash table goes through them is another one. `JSON_NATURAL`, of
which no function makes a value, has no counterpart.

# What is left out

Reference counts are not modelled. A value is built by the decoder and
read by the encoder, and nothing shares it, so a value is a tree. A real
number is whatever the C library makes of its text, and the two functions
that read and write it are parameters, about which nothing is assumed
here. Setting a key that is there changes its value and keeps its place,
which is what makes the order of the members part of the value: the
encoder writes them in this order, or sorted by their keys if it is asked
to.
-/
import Mathlib.Data.UInt
import Mathlib.Tactic.Common

namespace ProjectsLibs.Jansson

/-- `json_t`. -/
inductive Json (ρ : Type)
  | object (members : List (List UInt8 × Json ρ))
  | array (elements : List (Json ρ))
  | string (value : List UInt8)
  | integer (value : Int)
  | real (value : ρ)
  | true
  | false
  | null

/-- The members of an object. -/
abbrev Members (ρ : Type) := List (List UInt8 × Json ρ)

variable {ρ : Type}

/-- `json_object_get`. -/
def objectGet (members : Members ρ) (key : List UInt8) :
    Option (Json ρ) :=
  (members.find? fun m => m.1 == key).map Prod.snd

/-- `json_object_set_nocheck`: a key that is there keeps its place. -/
def objectSet (members : Members ρ) (key : List UInt8) (value : Json ρ) :
    Members ρ :=
  if members.any fun m => m.1 == key then
    members.map fun m => if m.1 == key then (key, value) else m
  else members ++ [(key, value)]

/-- The functions of the C library for `double`: `strtod`, which may
overflow, and `snprintf` with `"%.*g"`. -/
structure Doubles (ρ : Type) where
  strtod : List UInt8 → Option ρ
  printG : Nat → ρ → List UInt8

/-- The characters of a text. -/
def ascii (s : String) : List UInt8 :=
  s.toList.map fun c => UInt8.ofNat c.toNat

end ProjectsLibs.Jansson
