/-
The buffer pointers of a transfer descriptor: what `qtd_alloc` stores in
`buf`, and the addresses that the controller derives from it.

A physical address is 32 bits. The stores are kept in order, so that one
past the end of the array can be seen.

# The pages

A descriptor has five buffer pointers, each to a page of 4 KiB, and the
first has the offset of the buffer in its low bits. The controller takes
the offset from the first and the page from the others. The code fills
them in a loop that adds a page to the address in each pass and counts
how much of the buffer is covered; the first page is covered from the
offset on only, and the loop has to account for it.

The specification asks for each byte of the transfer that the address the
controller derives is the address of that byte in the buffer, and that no
store went to an index above 4.
-/
import Mathlib.Logic.Function.Basic
import ProjectsLibs.Ehci.Contract

namespace ProjectsLibs.Ehci

open Lib

/-- `MAX_XACT_SIZE`, five pages of 4 KiB. -/
def maxXactSize : Nat := 5 * 0x1000

/-- The pointer to the page `cnt` after the one of the buffer's start. -/
def pagePointer (paddr : UInt32) (cnt : Nat) : UInt32 :=
  (paddr + 0x1000 * UInt32.ofNat cnt) &&& ~~~(0xfff : UInt32)

/-- `while (buf_filled < xact[i].len)`: the stores `buf[cnt] = …`. Each pass
adds a page, so the loop ends within the length. -/
def bufLoop (paddr : UInt32) (len : Nat) : Nat → Nat → Nat →
    List (Nat × UInt32)
  | 0, _, _ => []
  | fuel + 1, filled, cnt =>
      if filled < len then
        (cnt + 1, pagePointer paddr (cnt + 1))
          :: bufLoop paddr len fuel (filled + 0x1000) (cnt + 1)
      else []

/-- The stores of `qtd_alloc` for one buffer. -/
def bufStores (paddr : UInt32) (len : Nat) : List (Nat × UInt32) :=
  (0, paddr)
    :: bufLoop paddr len len (0x1000 - (paddr &&& 0xfff).toNat) 0

/-- What is in `buf` after stores; the descriptor was cleared before. -/
def storedBuf (stores : List (Nat × UInt32)) : Nat → UInt32 :=
  stores.foldl (fun buf s => Function.update buf s.1 s.2) fun _ => 0

/-- The address of a byte of the transfer as the controller derives it:
the offset of the first pointer, then the pages in order. There are five
pointers. -/
def qtdAddress (buf : Nat → UInt32) (byte : Nat) : Option Nat :=
  let pos := (buf 0).toNat % 0x1000 + byte
  if pos / 0x1000 < 5 then
    some ((buf (pos / 0x1000)).toNat / 0x1000 * 0x1000 + pos % 0x1000)
  else none

/-- The descriptor covers exactly the buffer, and nothing else was
written. -/
structure CoversBuffer (paddr : UInt32) (len : Nat) : Prop where
  inside : ∀ s ∈ bufStores paddr len, s.1 < 5
  address : ∀ byte < len, qtdAddress (storedBuf (bufStores paddr len)) byte
    = some (paddr.toNat + byte)

end ProjectsLibs.Ehci
