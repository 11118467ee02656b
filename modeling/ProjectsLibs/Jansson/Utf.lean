/-
UTF-8 in libjansson (utf.c).

A `char` is a byte, and a code point a `Nat`, but for `utf8Encode`, which
is given an `int32_t`. Pointers into a text are numbers of bytes.

# The texts

A text is a list of bytes, and the functions are given what is left of
it; what the code returns as a pointer into the text is the number of
bytes that it has gone on by. `utf8_check_first` looks at one byte and
gives the length of its character, with 0 for a byte that cannot be
first, and `utf8_check_full` puts the value together from that many bytes
and refuses encodings that are too long, surrogates and values above
0x10FFFF. The loops of the code go up to a count that was compared with
what is left of the text, so none of them reads behind its end.

`utf8_check_string` goes on by whole characters; it ends because each has
at least one byte.
-/
import ProjectsLibs.Lib.Utf8

namespace ProjectsLibs.Jansson

/-- `utf8_encode`: the bytes, where it does not fail. -/
def utf8Encode (codepoint : Int) : Option (List UInt8) :=
  let c := codepoint.toNat
  if codepoint < 0 then none
  else if c < 0x80 then some [UInt8.ofNat c]
  else if c < 0x800 then
    some [UInt8.ofNat (0xc0 + (c &&& 0x7c0) >>> 6),
      UInt8.ofNat (0x80 + (c &&& 0x03f))]
  else if c < 0x10000 then
    some [UInt8.ofNat (0xe0 + (c &&& 0xf000) >>> 12),
      UInt8.ofNat (0x80 + (c &&& 0x0fc0) >>> 6),
      UInt8.ofNat (0x80 + (c &&& 0x003f))]
  else if c ≤ 0x10ffff then
    some [UInt8.ofNat (0xf0 + (c &&& 0x1c0000) >>> 18),
      UInt8.ofNat (0x80 + (c &&& 0x03f000) >>> 12),
      UInt8.ofNat (0x80 + (c &&& 0x000fc0) >>> 6),
      UInt8.ofNat (0x80 + (c &&& 0x00003f))]
  else none

/-- `utf8_check_first`: how many bytes a character has, by the first of
them. -/
def utf8CheckFirst (byte : UInt8) : Nat :=
  let u := byte.toNat
  if u < 0x80 then 1
  else if 0x80 ≤ u ∧ u ≤ 0xbf then 0
  else if u = 0xc0 ∨ u = 0xc1 then 0
  else if 0xc2 ≤ u ∧ u ≤ 0xdf then 2
  else if 0xe0 ≤ u ∧ u ≤ 0xef then 3
  else if 0xf0 ≤ u ∧ u ≤ 0xf4 then 4
  else 0

/-- The loop of `utf8_check_full`. -/
def checkContinuation (value : Nat) : List UInt8 → Option Nat
  | [] => some value
  | u :: rest =>
      if u.toNat < 0x80 ∨ 0xbf < u.toNat then none
      else checkContinuation (value <<< 6 + (u.toNat &&& 0x3f)) rest

/-- The tests of `utf8_check_full` behind the loop. -/
def checkRange (size value : Nat) : Option Nat :=
  if 0x10ffff < value then none
  else if 0xd800 ≤ value ∧ value ≤ 0xdfff then none
  else if (size = 2 ∧ value < 0x80) ∨ (size = 3 ∧ value < 0x800)
      ∨ (size = 4 ∧ value < 0x10000) then none
  else some value

/-- `utf8_check_full`, of the first `size` bytes of a buffer: the code
point, where it does not fail. -/
def utf8CheckFull (buffer : List UInt8) (size : Nat) : Option Nat :=
  let u := (buffer.headD 0).toNat
  let continued (value : Nat) :=
    (checkContinuation value ((buffer.take size).drop 1)).bind
      (checkRange size)
  if size = 2 then continued (u &&& 0x1f)
  else if size = 3 then continued (u &&& 0xf)
  else if size = 4 then continued (u &&& 0x7)
  else none

/-- `utf8_iterate`: how far the next character reaches, and what it is,
unless there is none. -/
def utf8Iterate (buffer : List UInt8) : Option (Nat × Option Nat) :=
  match buffer with
  | [] => some (0, none)
  | byte :: _ =>
      let count := utf8CheckFirst byte
      if count = 0 then none
      else if count = 1 then some (1, some byte.toNat)
      else if buffer.length < count then none
      else (utf8CheckFull buffer count).map fun value => (count, some value)

/-- `utf8_check_string`. -/
def utf8CheckString (string : List UInt8) : Bool :=
  match string with
  | [] => true
  | byte :: rest =>
      let count := utf8CheckFirst byte
      if count = 0 then false
      else if 1 < count then
        if rest.length + 1 < count then false
        else if (utf8CheckFull (byte :: rest) count).isNone then false
        else utf8CheckString (rest.drop (count - 1))
      else utf8CheckString rest
termination_by string.length
decreasing_by
  · simp only [List.length_drop, List.length_cons]
    omega
  · exact Nat.lt_succ_self _

end ProjectsLibs.Jansson
