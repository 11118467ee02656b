/-
The streaming deserializer (unpack.c, unpack.h): `msgpack_unpacker`, its
buffers and the zones that keep them.

# Memory

A buffer begins with its reference counter, and the bytes that have been
fed follow. Buffers are known by their place in `Heap`, where a buffer with
the count zero has been freed; a counter does not reach the limit of its
type here. Of a zone only the finalizers are left: each of them is
`decr_count` on a buffer. The client writes into the buffer before it calls
`msgpack_unpacker_buffer_consumed`, and `msgpackUnpackerBufferConsumed` is
both.

Whether memory can be had is said by the caller of each function: `malloc`
for a size of the buffer, `finalizer` for the array of the finalizers and
`zoneNew` for a zone.
-/
import ProjectsLibs.Msgpack.Pack
import ProjectsLibs.Msgpack.Unpack

namespace ProjectsLibs.Msgpack

/-- `COUNTER_SIZE`. -/
def counterSize : Nat := 4

/-- A buffer of `size` bytes: the counter, and the bytes that are used. -/
structure Buffer where
  count : Nat
  size : Nat
  data : List UInt8

abbrev Heap := List Buffer

/-- The finalizers of a zone, the oldest first. -/
abbrev Zone := List Nat

/-- Where the body of an object is. -/
structure Ref where
  buffer : Nat
  pos : Nat
  size : Nat
  deriving DecidableEq

-- ============================================================ the counters

/-- `get_count`. -/
def getCount (h : Heap) (b : Nat) : Nat := (h[b]?.map Buffer.count).getD 0

/-- The bytes in a buffer. -/
def dataOf (h : Heap) (b : Nat) : List UInt8 :=
  (h[b]?.map Buffer.data).getD []

/-- `incr_count`. -/
def incrCount (h : Heap) (b : Nat) : Heap :=
  h.modify b fun x => { x with count := x.count + 1 }

/-- `decr_count`: at zero the buffer is freed. -/
def decrCount (h : Heap) (b : Nat) : Heap :=
  h.modify b fun x => { x with count := x.count - 1 }

/-- `free` of a buffer, whatever its counter is. -/
def freeBuffer (h : Heap) (b : Nat) : Heap :=
  h.modify b fun x => { x with count := 0 }

/-- `msgpack_zone_free`: the finalizers are called, the youngest first. -/
def msgpackZoneFree (z : Zone) (h : Heap) : Heap :=
  z.foldr (fun b h => decrCount h b) h

-- ============================================================ the unpacker

/-- `msgpack_unpacker`. Where `ctx` has `p` and the bytes from there, they
are those of the last run. -/
structure Unpacker where
  buffer : Nat
  used : Nat
  free : Nat
  off : Nat
  parsed : Nat
  z : Zone
  initialBufferSize : Nat
  ctx : Machine Ref

/-- `msgpack_unpacker_init`, when there is memory. -/
def msgpackUnpackerInit (h : Heap) (initialBufferSize : Nat) :
    Heap × Unpacker :=
  let size := if initialBufferSize < counterSize then counterSize
    else initialBufferSize
  (h ++ [⟨1, size, []⟩],
    { buffer := h.length
      used := counterSize
      free := size - counterSize
      off := counterSize
      parsed := 0
      z := []
      initialBufferSize := size
      ctx := templateInit 0 [] })

/-- `msgpack_unpacker_destroy`. -/
def msgpackUnpackerDestroy (h : Heap) (u : Unpacker) : Heap :=
  decrCount (msgpackZoneFree u.z h) u.buffer

section Expand

/-- The buffer can be used from its beginning again. -/
def mayRewind (h : Heap) (u : Unpacker) : Bool :=
  u.used == u.off && getCount h u.buffer == 1 && !u.ctx.referenced

/-- The part of `msgpack_unpacker_expand_buffer` that rewinds the buffer. -/
def rewind (h : Heap) (u : Unpacker) : Heap × Unpacker :=
  if mayRewind h u then
    (h.modify u.buffer fun x => { x with data := [] },
      { u with
        free := u.free + (u.used - counterSize)
        used := counterSize
        off := counterSize })
  else (h, u)

variable (w : Nat) (malloc : Nat → Bool)

/-- The part that has `realloc` make the buffer larger. What `realloc` gives
is another buffer, and the old one is freed. -/
def expandInPlace (h : Heap) (u : Unpacker) (size : Nat) :
    Bool × Heap × Unpacker :=
  let nextSize := growSize w ((size + u.used) % 2 ^ w)
    ((u.used + u.free) * 2 % 2 ^ w)
  if malloc nextSize then
    (true,
      freeBuffer h u.buffer
        ++ [⟨getCount h u.buffer, nextSize,
          (dataOf h u.buffer).take (nextSize - counterSize)⟩],
      { u with
        buffer := h.length
        free := (nextSize + 2 ^ w - u.used) % 2 ^ w })
  else (false, h, u)

/-- The part that goes on in a new buffer. -/
def expandInNew (finalizer : Bool) (h : Heap) (u : Unpacker) (size : Nat) :
    Bool × Heap × Unpacker :=
  let notParsed := u.used - u.off
  let nextSize := growSize w ((size + notParsed + counterSize) % 2 ^ w)
    u.initialBufferSize
  if malloc nextSize then
    let tmp : Buffer :=
      ⟨1, nextSize, (dataOf h u.buffer).drop (u.off - counterSize)⟩
    let moved : Unpacker :=
      { u with
        buffer := h.length
        used := notParsed + counterSize
        free := (nextSize + 2 ^ w - (notParsed + counterSize)) % 2 ^ w
        off := counterSize }
    if u.ctx.referenced then
      if finalizer then
        (true, h ++ [tmp],
          { moved with
            z := u.z ++ [u.buffer]
            ctx := { u.ctx with referenced := false } })
      else (false, h ++ [{ tmp with count := 0 }], u)
    else (true, decrCount h u.buffer ++ [tmp], moved)
  else (false, h, u)

/-- `msgpack_unpacker_expand_buffer`, with a `size_t` of `w` bits. -/
def msgpackUnpackerExpandBuffer (finalizer : Bool) (h : Heap) (u : Unpacker)
    (size : Nat) : Bool × Heap × Unpacker :=
  let r := rewind h u
  if mayRewind h u = true ∧ size ≤ r.2.free then (true, r)
  else if r.2.off = counterSize then expandInPlace w malloc r.1 r.2 size
  else expandInNew w malloc finalizer r.1 r.2 size

/-- `msgpack_unpacker_reserve_buffer`. -/
def msgpackUnpackerReserveBuffer (finalizer : Bool) (h : Heap)
    (u : Unpacker) (size : Nat) : Bool × Heap × Unpacker :=
  if size ≤ u.free then (true, h, u)
  else msgpackUnpackerExpandBuffer w malloc finalizer h u size

end Expand

/-- The client writes `bytes` behind what is used, and calls
`msgpack_unpacker_buffer_consumed`. -/
def msgpackUnpackerBufferConsumed (h : Heap) (u : Unpacker)
    (bytes : List UInt8) : Heap × Unpacker :=
  (h.modify u.buffer fun x => { x with data := x.data ++ bytes },
    { u with used := u.used + bytes.length, free := u.free - bytes.length })

-- ============================================================== one object

section Next

variable (env : Env Ref)

/-- The bodies of the objects are in buffer `b`. -/
def Env.within (b : Nat) : Env Ref :=
  { env with body := fun p n _ => ⟨b, p, n⟩ }

/-- What `template_execute` starts from. -/
def Unpacker.start (h : Heap) (u : Unpacker) : Machine Ref :=
  { u.ctx with
    pos := u.off
    rest := (dataOf h u.buffer).drop (u.off - counterSize) }

/-- `msgpack_unpacker_execute`. -/
def msgpackUnpackerExecute (h : Heap) (u : Unpacker) :
    Ret Ref × Unpacker :=
  let r := templateExecute (env.within u.buffer) (u.start h)
  (r.1,
    { u with
      off := r.2.pos
      parsed := if u.off < r.2.pos then u.parsed + (r.2.pos - u.off)
        else u.parsed
      ctx := r.2 })

/-- `msgpack_unpacker_flush_zone`. -/
def msgpackUnpackerFlushZone (finalizer : Bool) (h : Heap) (u : Unpacker) :
    Bool × Heap × Unpacker :=
  if u.ctx.referenced then
    if finalizer then
      (true, incrCount h u.buffer,
        { u with
          z := u.z ++ [u.buffer]
          ctx := { u.ctx with referenced := false } })
    else (false, h, u)
  else (true, h, u)

/-- `msgpack_unpacker_release_zone`. -/
def msgpackUnpackerReleaseZone (finalizer zoneNew : Bool) (h : Heap)
    (u : Unpacker) : Option Zone × Heap × Unpacker :=
  let r := msgpackUnpackerFlushZone finalizer h u
  if r.1 = false then (none, r.2)
  else if zoneNew = false then (none, r.2)
  else (some r.2.2.z, r.2.1, { r.2.2 with z := [] })

/-- `msgpack_unpacker_reset`. -/
def msgpackUnpackerReset (u : Unpacker) : Unpacker :=
  { u with parsed := 0, ctx := { u.ctx with control := .header, stack := [] } }

/-- `msgpack_unpacked`, where a message has been put into it. -/
structure Unpacked where
  zone : Option Zone
  data : Object Ref

/-- `msgpack_unpacked_destroy`. -/
def msgpackUnpackedDestroy (zone : Option Zone) (h : Heap) : Heap :=
  match zone with
  | none => h
  | some z => msgpackZoneFree z h

/-- `msgpack_unpacker_next`, with a `result` whose zone is `zone`. -/
def msgpackUnpackerNext (finalizer zoneNew : Bool) (zone : Option Zone)
    (h : Heap) (u : Unpacker) :
    UnpackReturn × Option Unpacked × Heap × Unpacker :=
  let h := msgpackUnpackedDestroy zone h
  let r := msgpackUnpackerExecute env h u
  match r.1 with
  | .failed => (.parseError, none, h, r.2)
  | .out => (.continue, none, h, r.2)
  | .finish obj =>
      let q := msgpackUnpackerReleaseZone finalizer zoneNew h r.2
      (.success, some ⟨q.1, obj⟩, q.2.1, msgpackUnpackerReset q.2.2)

end Next

/-- The bodies are references, on a machine of 64 bits that has memory. -/
def refEnv (toDouble : UInt32 → UInt64) : Env Ref :=
  ⟨fun p n _ => ⟨0, p, n⟩, toDouble, fun _ _ => true, 24, 48, 64⟩

-- ============================================================== a client

/-- An unpacker, and the messages that have been delivered, in turn: `none`
stands for those that have been destroyed. -/
structure World where
  heap : Heap
  mpac : Option Unpacker
  results : List (Option Unpacked)

namespace World

/-- The world with an unpacker that has been made. -/
def init (initialBufferSize : Nat) : World :=
  let r := msgpackUnpackerInit [] initialBufferSize
  ⟨r.1, some r.2, []⟩

/-- What a function gives that takes the buffers and the unpacker. -/
def withUnpacker (s : World) (r : Heap × Unpacker) : World :=
  { s with heap := r.1, mpac := some r.2 }

/-- The zone of the `k`-th message. -/
def zoneAt (s : World) (k : Nat) : Option Zone :=
  match s.results[k]? with
  | some (some r) => r.zone
  | _ => none

/-- The `k`-th message is destroyed. -/
def destroyResult (s : World) (k : Nat) : World :=
  { s with
    heap := msgpackUnpackedDestroy (s.zoneAt k) s.heap
    results := s.results.set k none }

/-- The unpacker is destroyed. -/
def destroyUnpacker (s : World) (u : Unpacker) : World :=
  { s with heap := msgpackUnpackerDestroy s.heap u, mpac := none }

/-- `msgpack_unpacker_next`, into the `msgpack_unpacked` that the `k`-th
message is in. -/
def next (env : Env Ref) (finalizer zoneNew : Bool) (k : Nat) (s : World)
    (u : Unpacker) : UnpackReturn × Option Unpacked × World :=
  let r := msgpackUnpackerNext env finalizer zoneNew (s.zoneAt k) s.heap u
  (r.1, r.2.1,
    { heap := r.2.2.1
      mpac := some r.2.2.2
      results := s.results.set k none ++ (r.2.1.map some).toList })

end World

/-- The bytes that a reference is to. -/
def readRef (h : Heap) (r : Ref) : List UInt8 :=
  ((dataOf h r.buffer).drop (r.pos - counterSize)).take r.size

/-- The message as its reader sees it. -/
def Unpacked.read (h : Heap) (r : Unpacked) : Value :=
  r.data.mapBody (readRef h)

/-- What a client can do with an unpacker, of which `fed` are the bytes that
have been fed and `out` the messages as they were read when they were
delivered. No room of `2 ^ (w - 1)` bytes or more is asked for, where `w` is
the width of `size_t`, and no memory of that size is given: so the sizes
that are computed do not wrap. -/
inductive Run (w : Nat) (env : Env Ref) (initialBufferSize : Nat) :
    List UInt8 → List Value → World → Prop
  | init : Run w env initialBufferSize [] [] (.init initialBufferSize)
  | reserve {fed : List UInt8} {out : List Value} {s : World}
      {u : Unpacker} (malloc : Nat → Bool) (finalizer : Bool) (size : Nat) :
      Run w env initialBufferSize fed out s → s.mpac = some u →
      (∀ n, malloc n = true → n < 2 ^ (w - 1)) → size < 2 ^ (w - 1) →
      Run w env initialBufferSize fed out
        (s.withUnpacker (msgpackUnpackerReserveBuffer w malloc finalizer
          s.heap u size).2)
  | feed {fed : List UInt8} {out : List Value} {s : World} {u : Unpacker}
      (bytes : List UInt8) :
      Run w env initialBufferSize fed out s → s.mpac = some u →
      bytes.length ≤ u.free →
      Run w env initialBufferSize (fed ++ bytes) out
        (s.withUnpacker (msgpackUnpackerBufferConsumed s.heap u bytes))
  | next {fed : List UInt8} {out : List Value} {s : World} {u : Unpacker}
      (finalizer zoneNew : Bool) (k : Nat) :
      Run w env initialBufferSize fed out s → s.mpac = some u →
      Run w env initialBufferSize fed
        (out ++ ((s.next env finalizer zoneNew k u).2.1.map
          (Unpacked.read (s.next env finalizer zoneNew k u).2.2.heap)).toList)
        (s.next env finalizer zoneNew k u).2.2
  | destroyResult {fed : List UInt8} {out : List Value} {s : World}
      (k : Nat) :
      Run w env initialBufferSize fed out s →
      Run w env initialBufferSize fed out (s.destroyResult k)
  | destroyUnpacker {fed : List UInt8} {out : List Value} {s : World}
      {u : Unpacker} :
      Run w env initialBufferSize fed out s → s.mpac = some u →
      Run w env initialBufferSize fed out (s.destroyUnpacker u)

end ProjectsLibs.Msgpack
