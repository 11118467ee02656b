/-
The write path of the CDC ACM driver (cdc.c): `usb_cdc_write` cuts a
buffer into transfers of at most `MAX_XACT_SIZE` bytes, copies the pieces
into DMA memory and schedules them.

A run is `none` where `ZF_LOGF` ends it and where C leaves it
undefined. `ROUND_UP` is a macro of the utils library, and what the driver
relies on is that it yields the next multiple (`RoundsUp`). A length is
that of a buffer, so it is no negative one. What is freed is left out.

# The pieces

First the lengths of the transfers are filled in from the length of the
buffer, then memory is allocated for each of them, and then the buffer is
copied in, piece after piece. The number of the transfers comes from
`ROUND_UP`, and what is left after the first loop has to be zero for the
pieces to be the whole of the buffer; it is what the call returns. An
allocation may fail at any number, which ends the run before anything is
scheduled. A transfer that fails ends it as well.
-/
import ProjectsLibs.Ehci.Buffers

namespace ProjectsLibs.Usb

open Ehci (XactType maxXactSize)

/-- The result is the least multiple of `b` from `n` on. -/
def RoundsUp (roundUp : Nat → Nat → Nat) : Prop :=
  ∀ n b, 0 < b → b ∣ roundUp n b ∧ n ≤ roundUp n b
    ∧ roundUp n b < n + b

/-- `struct xact`, with the contents of the buffer at `vaddr`. -/
structure OutXact where
  type : XactType
  len : Nat
  vaddr : Option (List UInt8)
  deriving DecidableEq, Repr

/-- What the calls of other components return: `usb_malloc`, the DMA
allocations by their number, and `usbdev_schedule_xact`. -/
structure WriteEnv where
  malloc : Bool
  dma : Nat → Bool
  schedule : List OutXact → Int

/-- The loop that fills in the length of each xact, and what is left of
`len`. -/
def fillLens : Nat → Nat → List OutXact × Nat
  | 0, len => ([], len)
  | cnt + 1, len =>
      let x : OutXact :=
        { type := .pidOut
          len := if len < maxXactSize then len else maxXactSize
          vaddr := none }
      let (xact, left) := fillLens cnt (len - x.len)
      (x :: xact, left)

/-- `usb_alloc_xact`, behind `i` allocations. -/
def usbAllocXact (dma : Nat → Bool) : Nat → List OutXact →
    Option (List OutXact)
  | _, [] => some []
  | i, x :: xact =>
      if x.len ≠ 0 then
        if dma i then
          (usbAllocXact dma (i + 1) xact).map
            ({ x with vaddr := some (List.replicate x.len 0) } :: ·)
        else none
      else (usbAllocXact dma i xact).map ({ x with vaddr := none } :: ·)

/-- The loop that copies the buffer in. -/
def copyIn (buf : List UInt8) : Nat → List OutXact → Option (List OutXact)
  | _, [] => some []
  | offset, x :: xact =>
      match x.vaddr with
      | none => none
      | some dst =>
          if x.len ≤ dst.length ∧ offset + x.len ≤ buf.length then
            let src := (buf.drop offset).take x.len
            (copyIn buf (offset + x.len) xact).map
              ({ x with vaddr := some (src ++ dst.drop x.len) } :: ·)
          else none

/-- `usb_cdc_write`: the xacts that are scheduled, and the result. -/
def usbCdcWrite (roundUp : Nat → Nat → Nat) (env : WriteEnv)
    (buf : List UInt8) : Option (List OutXact × Int) :=
  let cnt := roundUp buf.length maxXactSize / maxXactSize
  if env.malloc then
    let (xact, len) := fillLens cnt buf.length
    match usbAllocXact env.dma 0 xact with
    | none => none
    | some xact =>
        match copyIn buf 0 xact with
        | none => none
        | some xact =>
            if env.schedule xact = 0 then some (xact, len) else none
  else none

end ProjectsLibs.Usb
