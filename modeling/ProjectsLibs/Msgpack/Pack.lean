/-
Packing (pack_template.h, pack.h, objectc.c) and the simple buffer that
takes the packed bytes (sbuffer.h).

A packing function hands its bytes to the callback of the packer; here it
is the bytes that have a definition, `pack…`, and `msgpackPackObject` makes
the calls. A number is an `Int` in them, whatever its C type; `take8` is
`TAKE8_8` to `TAKE8_64`, `store` is `_msgpack_store16`, `32` and `64`.

# The order of the definitions

The macros of the template choose the shortest form by comparing the
number with the bounds of each, in an order that depends on the C type;
each is written as it stands there. A head is a code with the size behind
it, or a code that has the size in its low bits. An object is packed by a
recursion that makes one call of the callback for each head and one for
each body, and stops at the first that fails.

The simple buffer doubles its memory until a write fits, with the wrap of
a `size_t` as the code tests for it. Requests for memory are numbered, so
that any of them can be made to fail.
-/
import ProjectsLibs.Lib.Bytes
import ProjectsLibs.Msgpack.Object

namespace ProjectsLibs.Msgpack

open Lib

-- ============================================================== integers

/-- `TAKE8_8`, `TAKE8_16`, `TAKE8_32` and `TAKE8_64`: the low byte. -/
def take8 (d : Int) : UInt8 := UInt8.ofNat (d % 256).toNat

/-- The low `k` bytes, the high one first. -/
def store (k : Nat) (d : Int) : List UInt8 := beBytes k (d % 256 ^ k).toNat

/-- `msgpack_pack_real_uint8`. -/
def packRealUint8 (d : Int) : List UInt8 :=
  if d < 2 ^ 7 then [take8 d] else [0xcc, take8 d]

/-- `msgpack_pack_real_uint16`. -/
def packRealUint16 (d : Int) : List UInt8 :=
  if d < 2 ^ 7 then [take8 d]
  else if d < 2 ^ 8 then [0xcc, take8 d]
  else 0xcd :: store 2 d

/-- `msgpack_pack_real_uint32`. -/
def packRealUint32 (d : Int) : List UInt8 :=
  if d < 2 ^ 8 then
    if d < 2 ^ 7 then [take8 d] else [0xcc, take8 d]
  else if d < 2 ^ 16 then 0xcd :: store 2 d
  else 0xce :: store 4 d

/-- `msgpack_pack_real_uint64`. -/
def packRealUint64 (d : Int) : List UInt8 :=
  if d < 2 ^ 8 then
    if d < 2 ^ 7 then [take8 d] else [0xcc, take8 d]
  else if d < 2 ^ 16 then 0xcd :: store 2 d
  else if d < 2 ^ 32 then 0xce :: store 4 d
  else 0xcf :: store 8 d

/-- `msgpack_pack_real_int8`. -/
def packRealInt8 (d : Int) : List UInt8 :=
  if d < -(2 ^ 5) then [0xd0, take8 d] else [take8 d]

/-- `msgpack_pack_real_int16`. -/
def packRealInt16 (d : Int) : List UInt8 :=
  if d < -(2 ^ 5) then
    if d < -(2 ^ 7) then 0xd1 :: store 2 d else [0xd0, take8 d]
  else if d < 2 ^ 7 then [take8 d]
  else if d < 2 ^ 8 then [0xcc, take8 d]
  else 0xcd :: store 2 d

/-- `msgpack_pack_real_int32`. -/
def packRealInt32 (d : Int) : List UInt8 :=
  if d < -(2 ^ 5) then
    if d < -(2 ^ 15) then 0xd2 :: store 4 d
    else if d < -(2 ^ 7) then 0xd1 :: store 2 d
    else [0xd0, take8 d]
  else if d < 2 ^ 7 then [take8 d]
  else if d < 2 ^ 8 then [0xcc, take8 d]
  else if d < 2 ^ 16 then 0xcd :: store 2 d
  else 0xce :: store 4 d

/-- `msgpack_pack_real_int64`. -/
def packRealInt64 (d : Int) : List UInt8 :=
  if d < -(2 ^ 5) then
    if d < -(2 ^ 15) then
      if d < -(2 ^ 31) then 0xd3 :: store 8 d else 0xd2 :: store 4 d
    else if d < -(2 ^ 7) then 0xd1 :: store 2 d
    else [0xd0, take8 d]
  else if d < 2 ^ 7 then [take8 d]
  else if d < 2 ^ 16 then
    if d < 2 ^ 8 then [0xcc, take8 d] else 0xcd :: store 2 d
  else if d < 2 ^ 32 then 0xce :: store 4 d
  else 0xcf :: store 8 d

-- ======================================================== the other heads

/-- `msgpack_pack_double`, of the bits of the number. -/
def packDouble (d : UInt64) : List UInt8 := 0xcb :: store 8 d.toNat

/-- `msgpack_pack_array`. -/
def packArray (n : Nat) : List UInt8 :=
  if n < 16 then [0x90 ||| UInt8.ofNat n]
  else if n < 65536 then 0xdc :: store 2 n
  else 0xdd :: store 4 n

/-- `msgpack_pack_map`. -/
def packMap (n : Nat) : List UInt8 :=
  if n < 16 then [0x80 ||| UInt8.ofNat n]
  else if n < 65536 then 0xde :: store 2 n
  else 0xdf :: store 4 n

/-- `msgpack_pack_str`. -/
def packStr (l : Nat) : List UInt8 :=
  if l < 32 then [0xa0 ||| UInt8.ofNat l]
  else if l < 256 then [0xd9, UInt8.ofNat l]
  else if l < 65536 then 0xda :: store 2 l
  else 0xdb :: store 4 l

/-- `msgpack_pack_bin`. -/
def packBin (l : Nat) : List UInt8 :=
  if l < 256 then [0xc4, UInt8.ofNat l]
  else if l < 65536 then 0xc5 :: store 2 l
  else 0xc6 :: store 4 l

/-- `msgpack_pack_ext`. -/
def packExt (l : Nat) (type : Int8) : List UInt8 :=
  match l with
  | 1 => [0xd4, type.toUInt8]
  | 2 => [0xd5, type.toUInt8]
  | 4 => [0xd6, type.toUInt8]
  | 8 => [0xd7, type.toUInt8]
  | 16 => [0xd8, type.toUInt8]
  | l =>
      if l < 256 then [0xc7, UInt8.ofNat l, type.toUInt8]
      else if l < 65536 then 0xc8 :: (store 2 l ++ [type.toUInt8])
      else 0xc9 :: (store 4 l ++ [type.toUInt8])

-- =============================================================== objects

section Packer

variable {σ : Type}

/-- `msgpack_packer_write`: what the callback of a packer does with its
data, and what it returns. -/
abbrev PackerWrite (σ : Type) := σ → List UInt8 → Int × σ

/-- The next call, unless the last one has failed. -/
def andThen (r : Int × σ) (next : σ → Int × σ) : Int × σ :=
  if r.1 < 0 then r else next r.2

mutual

/-- `msgpack_pack_object`. -/
def msgpackPackObject (write : PackerWrite σ) (s : σ) :
    Value → Int × σ
  | .nil => write s [0xc0]
  | .boolean b => if b then write s [0xc3] else write s [0xc2]
  | .positiveInteger d => write s (packRealUint64 d.toNat)
  | .negativeInteger d => write s (packRealInt64 d.toInt)
  | .float d => write s (packDouble d)
  | .str body =>
      andThen (write s (packStr body.length)) fun s => write s body
  | .bin body =>
      andThen (write s (packBin body.length)) fun s => write s body
  | .ext type body =>
      andThen (write s (packExt body.length type)) fun s => write s body
  | .array items =>
      andThen (write s (packArray items.length)) fun s =>
        packItems write s items
  | .map kvs =>
      andThen (write s (packMap kvs.length)) fun s => packKvs write s kvs

/-- The loop over the items. -/
def packItems (write : PackerWrite σ) (s : σ) : List Value → Int × σ
  | [] => (0, s)
  | o :: rest =>
      andThen (msgpackPackObject write s o) fun s => packItems write s rest

/-- The loop over the keys and values. -/
def packKvs (write : PackerWrite σ) (s : σ) :
    List (Value × Value) → Int × σ
  | [] => (0, s)
  | (k, v) :: rest =>
      andThen (msgpackPackObject write s k) fun s =>
        andThen (msgpackPackObject write s v) fun s => packKvs write s rest

end

end Packer

-- ============================================================= the buffer

/-- `msgpack_sbuffer`: the bytes written, `size` of them, and how many the
memory has room for. `asked` counts the requests for memory. -/
structure Sbuffer where
  data : List UInt8
  alloc : Nat
  asked : Nat

/-- `msgpack_sbuffer_init`. -/
def msgpackSbufferInit : Sbuffer := ⟨[], 0, 0⟩

/-- `MSGPACK_SBUFFER_INIT_SIZE`. -/
def msgpackSbufferInitSize : Nat := 8192

/-- The loop that doubles a size until it is enough, or would overflow a
`size_t` of `w` bits. -/
def growSize (w need : Nat) (nsize : Nat) : Nat :=
  if nsize < need then
    let tmp := nsize * 2 % 2 ^ w
    if tmp ≤ nsize then need else growSize w need tmp
  else nsize
termination_by need - nsize
decreasing_by omega

/-- `msgpack_sbuffer_write`, with a `size_t` of `w` bits; `realloc` says
whether the `k`-th request for so much memory succeeds. -/
def msgpackSbufferWrite (w : Nat) (realloc : Nat → Nat → Bool) :
    PackerWrite Sbuffer := fun sbuf buf =>
  if sbuf.alloc - sbuf.data.length < buf.length then
    let need := (sbuf.data.length + buf.length) % 2 ^ w
    let nsize := growSize w need
      (if sbuf.alloc ≠ 0 then sbuf.alloc * 2 % 2 ^ w
        else msgpackSbufferInitSize)
    if realloc sbuf.asked nsize then
      (0, ⟨sbuf.data ++ buf, nsize, sbuf.asked + 1⟩)
    else (-1, { sbuf with asked := sbuf.asked + 1 })
  else (0, { sbuf with data := sbuf.data ++ buf })

/-- `msgpack_sbuffer_release`: the data, which the buffer gives away. -/
def msgpackSbufferRelease (sbuf : Sbuffer) : List UInt8 × Sbuffer :=
  (sbuf.data, { msgpackSbufferInit with asked := sbuf.asked })

/-- `msgpack_sbuffer_clear`. -/
def msgpackSbufferClear (sbuf : Sbuffer) : Sbuffer :=
  { sbuf with data := [] }

end ProjectsLibs.Msgpack
