/-
The memory of the two channels of an IVC endpoint: the regions that
`tegra_ivc_init` is given, and the bytes that are stored to through a
channel. `Apart` is what `check_ivc_params` checks for.

# What is checked, and what is meant

The function has the bases of both channels, the number of frames and
their size. A channel is its header of 128 bytes with the frames behind
it. The test for an overlap compares the bases with the size of the
frames, and leaves the headers out. `Shaped` is what the tests in front
of it establish, `Slips` the ranges in which the overlap test is wrong,
as an interval of addresses each; both are about numbers that the caller
passes.

`Apart` speaks of the memory: which bytes a channel occupies, and which
bytes a store through it can change. Addresses are computed with
wrap-around, as the code does, so a channel that runs past the end of
the address space occupies bytes at its beginning in the sense of
`StoresTo`.
-/
import ProjectsLibs.Ivc.Hostile

namespace ProjectsLibs.Ivc

/-- The size of `struct tegra_ivc_channel_header`. -/
def channelHeaderSize : Nat := 128

/-- The size of a channel: its header and its frames. -/
def channelSize (nframes frameSize : UInt32) : Nat :=
  channelHeaderSize + nframes.toNat * frameSize.toNat

/-- The byte at `a` belongs to the channel at `base`. -/
def Occupies (ivc : TegraIvc) (base : UInt64) (a : Nat) : Prop :=
  base.toNat ≤ a ∧ a < base.toNat + channelSize ivc.nframes ivc.frameSize

/-- The bytes that are stored to through the channel at `base`: those of
the words of the header, and those of the frames. -/
inductive StoresTo (ivc : TegraIvc) (base : UInt64) : UInt64 → Prop
  | header {w : UInt64} {k : Nat} :
      w = wCountAddr base ∨ w = stateAddr base ∨ w = rCountAddr base →
      k < 4 → StoresTo ivc base (w + UInt64.ofNat k)
  | frame {frame : UInt32} {addr : UInt64} {k : Nat} :
      tegraIvcFrameAddr ivc base frame = some addr →
      k < ivc.frameSize.toNat → StoresTo ivc base (addr + UInt64.ofNat k)

/-- A store through the channel at `base` changes no byte of the channel
at `other`. -/
def Spares (ivc : TegraIvc) (base other : UInt64) : Prop :=
  ∀ (mem : UInt64 → UInt8) (a : UInt64) (v : UInt8), StoresTo ivc base a →
    ∀ i : UInt64, Occupies ivc other i.toNat →
      Function.update mem a v i = mem i

/-- The channels end in the address space, have no byte in common, and a
store through one of them does not change the other. -/
structure Apart (ivc : TegraIvc) : Prop where
  rx_ends : ivc.rxBase.toNat + channelSize ivc.nframes ivc.frameSize
    ≤ 2 ^ 64
  tx_ends : ivc.txBase.toNat + channelSize ivc.nframes ivc.frameSize
    ≤ 2 ^ 64
  disjoint : ∀ a, Occupies ivc ivc.rxBase a → ¬Occupies ivc ivc.txBase a
  rx_stores : Spares ivc ivc.rxBase ivc.txBase
  tx_stores : Spares ivc ivc.txBase ivc.rxBase

/-- The parameters that pass the tests of `check_ivc_params` in front of
that for an overlap: the frames take less than 4 GiB, and the bases and
the size of a frame are multiples of 64. -/
structure Shaped (rxBase txBase : UInt64) (nframes frameSize : UInt32) :
    Prop where
  frames : nframes.toNat * frameSize.toNat < 2 ^ 32
  rx : rxBase &&& 63 = 0
  tx : txBase &&& 63 = 0
  frame : frameSize &&& 63 = 0

/-- The mistakes of the overlap test, on bases in their order. It compares
the end of the first channel's frames, as if they began at its base, with
the second base: this one may be within the last 128 bytes of the first
channel, or so high that the second channel runs past the end of the
address space; or the sum itself wraps, to a small number that passes. -/
def Slips (low high : UInt64) (nframes frameSize : UInt32) : Prop :=
  let frames := nframes.toNat * frameSize.toNat
  (low.toNat + frames ≤ high.toNat
      ∧ high.toNat < low.toNat + frames + channelHeaderSize)
    ∨ (low.toNat + frames ≤ high.toNat
      ∧ 2 ^ 64 < high.toNat + frames + channelHeaderSize)
    ∨ 2 ^ 64 ≤ low.toNat + frames

end ProjectsLibs.Ivc
