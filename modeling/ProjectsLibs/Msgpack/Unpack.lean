/-
Unpacking (unpack_template.h, unpack.c): `template_execute`, which can stop
in the middle of an object and go on with more bytes, and the functions
that unpack one object.

# The machine

`p` is `pos` here and `rest` are the bytes from `p` to `pe`. `Control` is
`cs` with `trail`, and `stack` the part of the stack below `top`, the
innermost container first. A step of the machine is a round of the loop, or
the part of one from `_fixed_trail_again` on; the test `p == pe` stands
before both, which makes no difference there because `trail` is not zero.
The states `MSGPACK_CS_FIXEXT_1` to `16` are never entered in the source
and have no counterpart.

What a string, a binary or an extension refers to is said by `Env.body`,
from its place, its size and the bytes that are there.
-/
import ProjectsLibs.Lib.Bytes
import ProjectsLibs.Lib.Settle
import ProjectsLibs.Msgpack.Object

namespace ProjectsLibs.Msgpack

open Lib

/-- The states of `msgpack_unpack_state` that read a number of `k` bytes:
`MSGPACK_CS_UINT_8` is `uint 1`. -/
inductive Load
  | bin (k : Nat)
  | ext (k : Nat)
  | float
  | double
  | uint (k : Nat)
  | int (k : Nat)
  | str (k : Nat)
  | array (k : Nat)
  | map (k : Nat)
  deriving DecidableEq

/-- The `trail` of such a state. -/
def Load.trail : Load → Nat
  | .bin k | .ext k | .uint k | .int k | .str k | .array k | .map k => k
  | .float => 4
  | .double => 8

/-- `NEXT_CS`: the state that a header byte says. -/
def nextCs (b : Nat) : Option Load :=
  match b &&& 0x1f with
  | 0x04 => some (.bin 1)
  | 0x05 => some (.bin 2)
  | 0x06 => some (.bin 4)
  | 0x07 => some (.ext 1)
  | 0x08 => some (.ext 2)
  | 0x09 => some (.ext 4)
  | 0x0a => some .float
  | 0x0b => some .double
  | 0x0c => some (.uint 1)
  | 0x0d => some (.uint 2)
  | 0x0e => some (.uint 4)
  | 0x0f => some (.uint 8)
  | 0x10 => some (.int 1)
  | 0x11 => some (.int 2)
  | 0x12 => some (.int 4)
  | 0x13 => some (.int 8)
  | 0x19 => some (.str 1)
  | 0x1a => some (.str 2)
  | 0x1b => some (.str 4)
  | 0x1c => some (.array 2)
  | 0x1d => some (.array 4)
  | 0x1e => some (.map 2)
  | 0x1f => some (.map 4)
  | _ => none

/-- The `trail` that the source computes from the header byte is that of
the state it enters. -/
example : ∀ b ∈ List.range' 0xc4 28, b < 0xd4 ∨ 0xd8 < b →
    (nextCs b).map Load.trail = some
      (if b ≤ 0xc6 then 1 <<< (b &&& 3)
        else if b ≤ 0xc9 then 1 <<< ((b + 1) &&& 3)
        else if b ≤ 0xd3 then 1 <<< (b &&& 3)
        else if b ≤ 0xdb then 1 <<< ((b &&& 3) - 1)
        else 2 <<< (b &&& 1)) := by decide

/-- `MSGPACK_ACS_STR_VALUE`, `MSGPACK_ACS_BIN_VALUE` and
`MSGPACK_ACS_EXT_VALUE`. -/
inductive Body
  | str
  | bin
  | ext
  deriving DecidableEq

/-- `cs` and `trail`. -/
inductive Control
  | header
  | load (cs : Load)
  | body (cs : Body) (trail : Nat)
  deriving DecidableEq

/-- `msgpack_container_type`. -/
inductive ContainerType
  | array
  | map

/-- `template_stack`: a container that is not complete. `count` items or
pairs are still to come. -/
inductive Frame (β : Type)
  | arrayItem (count : Nat) (items : List (Object β))
  | mapKey (count : Nat) (kvs : List (Object β × Object β))
  | mapValue (count : Nat) (kvs : List (Object β × Object β))
      (key : Object β)

/-- `MSGPACK_EMBED_STACK_SIZE`. -/
def msgpackEmbedStackSize : Nat := 32

/-- What a run depends on besides the bytes: what a body of `n` bytes at a
position is, given the bytes from there on; the conversion of a `float`;
whether the `k`-th request to the zone succeeds; `sizeof(msgpack_object)`,
`sizeof(msgpack_object_kv)` and the bits of a `size_t`. -/
structure Env (β : Type) where
  body : Nat → Nat → List UInt8 → β
  toDouble : UInt32 → UInt64
  zoneMalloc : Nat → Nat → Bool
  objectSize : Nat
  kvSize : Nat
  sizeBits : Nat

/-- `template_context` together with `p`; `allocs` counts the requests to
the zone. -/
structure Machine (β : Type) where
  control : Control
  stack : List (Frame β)
  allocs : Nat
  referenced : Bool
  pos : Nat
  rest : List UInt8

/-- How `template_execute` ends: `_finish`, `_out` or `_failed`. -/
inductive Ret (β : Type)
  | finish (obj : Object β)
  | out
  | failed

section Machine

variable {β : Type}

/-- `p += k`. -/
def Machine.advance (m : Machine β) (k : Nat) : Machine β :=
  { m with pos := m.pos + k, rest := m.rest.drop k }

/-- `_push`: the object is the message, or goes to the innermost container
and completes it or not. -/
inductive Pushed (β : Type)
  | finish (obj : Object β)
  | again (stack : List (Frame β))

def push (obj : Object β) : List (Frame β) → Pushed β
  | [] => .finish obj
  | .arrayItem count items :: rest =>
      if count - 1 = 0 then push (.array (items ++ [obj])) rest
      else .again (.arrayItem (count - 1) (items ++ [obj]) :: rest)
  | .mapKey count kvs :: rest => .again (.mapValue count kvs obj :: rest)
  | .mapValue count kvs key :: rest =>
      if count - 1 = 0 then push (.map (kvs ++ [(key, obj)])) rest
      else .again (.mapKey (count - 1) (kvs ++ [(key, obj)]) :: rest)

/-- The state of the machine at the end of `_push`, or its result. -/
def land (m : Machine β) : Pushed β → Machine β ⊕ Ret β × Machine β
  | .finish obj => .inr (.finish obj, { m with stack := [] })
  | .again stack =>
      .inl { m with control := .header, stack := stack }

/-- `goto _push`, where `p` is at the last byte of the object. -/
def pushValue (obj : Object β) (m : Machine β) :
    Machine β ⊕ Ret β × Machine β :=
  land (m.advance 1) (push obj m.stack)

/-- `template_callback_int8` to `int64`. -/
def callbackInt (d : Int) : Object β :=
  if 0 ≤ d then .positiveInteger (UInt64.ofNat d.toNat)
  else .negativeInteger (Int64.ofInt d)

/-- The signed number that `k` bytes with the value `n` are. -/
def toSigned (k n : Nat) : Int :=
  if n < 2 ^ (8 * k - 1) then n else (n : Int) - 2 ^ (8 * k)

variable (env : Env β)

/-- `template_callback_str`, `bin` and `ext`, of a body of `trail` bytes at
`n`, where the bytes are `bytes`. -/
def bodyObject (cs : Body) (n trail : Nat) (bytes : List UInt8) :
    Object β :=
  match cs with
  | .str => .str (env.body n trail bytes)
  | .bin => .bin (env.body n trail bytes)
  | .ext =>
      .ext (bytes.headD 0).toInt8
        (env.body (n + 1) ((trail + 2 ^ 32 - 1) % 2 ^ 32) (bytes.drop 1))

/-- `push_variable_value`. -/
def pushBody (cs : Body) (n trail : Nat) (bytes : List UInt8)
    (m : Machine β) : Machine β ⊕ Ret β × Machine β :=
  pushValue (bodyObject env cs n trail bytes) { m with referenced := true }

/-- `again_fixed_trail_if_zero`, with `n` where it is at that point. -/
def againIfZero (cs : Body) (trail n : Nat) (bytes : List UInt8)
    (m : Machine β) : Machine β ⊕ Ret β × Machine β :=
  if trail = 0 then pushBody env cs n 0 bytes m
  else .inl { m.advance 1 with control := .body cs trail }

/-- The size of an element of the array that is asked for. -/
def Env.elementSize : ContainerType → Nat
  | .array => env.objectSize
  | .map => env.kvSize

/-- `template_callback_array` and `map`: the object that they leave in
`stack[top].obj`. -/
def ContainerType.object : ContainerType → Object β
  | .array => .array []
  | .map => .map []

/-- `stack[top]`, with its `ct` and `count`. -/
def ContainerType.frame (count : Nat) : ContainerType → Frame β
  | .array => .arrayItem count []
  | .map => .mapKey count []

/-- `start_container`. -/
def startContainer (ct : ContainerType) (count : Nat) (m : Machine β) :
    Machine β ⊕ Ret β × Machine β :=
  if msgpackEmbedStackSize ≤ m.stack.length then .inr (.failed, m)
  else
    let granted := env.zoneMalloc m.allocs
      (count * env.elementSize ct % 2 ^ env.sizeBits)
    let m := { m with allocs := m.allocs + 1 }
    if granted = false then .inr (.failed, m)
    else if count = 0 then pushValue ct.object m
    else
      .inl { m.advance 1 with
        control := .header, stack := ct.frame count :: m.stack }

/-- `case MSGPACK_CS_HEADER`. -/
def headerStep (b : UInt8) (m : Machine β) :
    Machine β ⊕ Ret β × Machine β :=
  let n := b.toNat
  if n ≤ 0x7f then pushValue (.positiveInteger (UInt64.ofNat n)) m
  else if 0xe0 ≤ n then pushValue (callbackInt (toSigned 1 n)) m
  else if 0xc0 ≤ n then
    if n = 0xc0 then pushValue .nil m
    else if n = 0xc2 then pushValue (.boolean false) m
    else if n = 0xc3 then pushValue (.boolean true) m
    else if 0xd4 ≤ n ∧ n ≤ 0xd7 then
      againIfZero env .ext ((1 <<< (n &&& 3)) + 1) m.pos m.rest m
    else if n = 0xd8 then againIfZero env .ext (16 + 1) m.pos m.rest m
    else
      match nextCs n with
      | some cs => .inl { m.advance 1 with control := .load cs }
      | none => .inr (.failed, m)
  else if 0xa0 ≤ n then againIfZero env .str (n &&& 0x1f) m.pos m.rest m
  else if 0x90 ≤ n then startContainer env .array (n &&& 0x0f) m
  else startContainer env .map (n &&& 0x0f) m

/-- The cases of `switch(cs)` that read a number; `value` is the number,
`n` where it is, and `p` is at its last byte. -/
def loadStep (cs : Load) (value n : Nat) (bytes : List UInt8)
    (m : Machine β) : Machine β ⊕ Ret β × Machine β :=
  match cs with
  | .float => pushValue (.float (env.toDouble (UInt32.ofNat value))) m
  | .double => pushValue (.float (UInt64.ofNat value)) m
  | .uint _ => pushValue (.positiveInteger (UInt64.ofNat value)) m
  | .int k => pushValue (callbackInt (toSigned k value)) m
  | .str _ => againIfZero env .str value n bytes m
  | .bin _ => againIfZero env .bin value n bytes m
  | .ext _ => againIfZero env .ext ((value + 1) % 2 ^ 32) n bytes m
  | .array _ => startContainer env .array value m
  | .map _ => startContainer env .map value m

/-- A round of the loop, or the part of it from `_fixed_trail_again` on. -/
def step (m : Machine β) : Machine β ⊕ Ret β × Machine β :=
  match m.rest with
  | [] => .inr (.out, m)
  | b :: _ =>
      match m.control with
      | .header => headerStep env b m
      | .load cs =>
          if m.rest.length < cs.trail then .inr (.out, m)
          else loadStep env cs (beValue (m.rest.take cs.trail)) m.pos m.rest
            (m.advance (cs.trail - 1))
      | .body cs trail =>
          if m.rest.length < trail then .inr (.out, m)
          else pushBody env cs m.pos trail m.rest (m.advance (trail - 1))

/-- `template_execute`: rounds of the loop until it ends, at most one for
each byte. -/
def templateExecute (m : Machine β) : Ret β × Machine β :=
  outcome (step env) (fun m => (.out, m)) (fun m => m.rest.length) m

/-- `template_init`, with `p` at the bytes `rest`. -/
def templateInit (pos : Nat) (rest : List UInt8) : Machine β :=
  ⟨.header, [], 0, false, pos, rest⟩

-- ========================================================== one object

/-- `msgpack_unpack_return`. -/
inductive UnpackReturn
  | success
  | extraBytes
  | continue
  | parseError
  | nomemError
  deriving DecidableEq

/-- What `msgpack_unpack_next` makes of the end of `template_execute`: its
result, `result->data` where it sets it, and `*off`. -/
def nextResult (off : Nat) :
    Ret β × Machine β → UnpackReturn × Option (Object β) × Nat
  | (.failed, _) => (.parseError, none, off)
  | (.out, _) => (.continue, none, off)
  | (.finish obj, m) => (.success, some obj, m.pos)

/-- `msgpack_unpack_next`. `zone` says whether there is memory for a
zone. -/
def msgpackUnpackNext (zone : Bool) (data : List UInt8) (off : Nat) :
    UnpackReturn × Option (Object β) × Nat :=
  if data.length ≤ off then (.continue, none, off)
  else if zone = false then (.nomemError, none, off)
  else
    nextResult off
      (templateExecute env (templateInit off (data.drop off)))

end Machine

end ProjectsLibs.Msgpack
