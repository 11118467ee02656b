/-
libsdhcdrivers: a block transfer, from the block number to the registers
of the controller (transfer_data of mmc.c).

The memory a call is given is an `Allocs`: where the command is put, and
whether the two further allocations succeed. While a caller waits,
interrupts are handled, and the callbacks of commands that were queued
before may send more.

# What is expected of a transfer

A call computes the argument of the command and the size of the buffer,
sends the command, and waits or returns. The specification takes the side
of the card: some command is being served when the argument and the block
count are in the registers, and a card counts addresses in blocks or in
bytes by its kind. `AddressedOrFails` says that a result that is not
negative is the number of bytes, for the blocks that were asked for, that
every other call gives a negative number, and that none ends in a fault
or goes on waiting. The condition is on what a call is given: the block
range, the buffer, and the status words of the interrupts that come while
it waits.
-/
import ProjectsLibs.Lib.Fields
import ProjectsLibs.Sdhc.System

namespace ProjectsLibs.Sdhc

open Lib

-- ============================================================= the call

/-- `mmc_block_size`. -/
def mmcBlockSize : Nat := 512

/-- What of `struct mmc_card` a transfer depends on. -/
structure MmcCard where
  highCapacity : Bool

/-- What `malloc` gives to one call. -/
structure Allocs where
  cmd : Option CmdId
  data : Bool
  token : Bool

/-- How a call ends: it still waits, it returns, or the number of bytes is
not an `int`. -/
inductive Return
  | waits
  | value (v : Int)
  | overflow
  deriving DecidableEq, Repr

/-- The argument: `start`, or `start * block_size` as an `unsigned long`,
cut off to 32 bits. -/
def transferArg (card : MmcCard) (start : UInt64) : UInt32 :=
  if card.highCapacity then start.toUInt32
  else (start * UInt64.ofNat mmcBlockSize).toUInt32

/-- `mmc_cmd_new`, on memory that holds `old`. -/
def mmcCmdNew (index : Nat) (arg : UInt32) (rspType : RspType)
    (old : MmcCmd) : MmcCmd :=
  { old with
    index := index
    arg := arg
    rspType := rspType
    data := none
    cb := none
    next := none
    complete := 0 }

/-- `mmc_cmd_add_data`; the parameters are `uint32_t`. -/
def mmcCmdAddData (vbuf : Option (Nat → UInt32)) (pbuf : Nat)
    (blockSize blocks : UInt32) (cmd : MmcCmd) : MmcCmd :=
  { cmd with data := some ⟨pbuf, vbuf, blockSize.toNat, blocks.toNat⟩ }

/-- The end of `transfer_data`: `ret` is what the sending returned. -/
def transferResult (cb : Bool) (nblocks ret : Int) : Return :=
  let bytes := if cb then 0 else (mmcBlockSize : Int) * nblocks
  if -2 ^ 31 ≤ bytes ∧ bytes < 2 ^ 31 then
    .value (if ret = 0 then bytes else ret)
  else .overflow

/-- The inputs that a caller handles while it waits, each with what the
callback sends if one is made. -/
abbrev Waits := List (Input × List (CmdId × Option Callback))

/-- What the wait polls. -/
def Waits.inputs (waits : Waits) :
    List (Input × (Host → Except Fault Host)) :=
  waits.map fun w => (w.1, sendAll w.2)

/-- `transfer_data`; `cb` says whether a callback was given. -/
def transferData (ndebug : Bool) (mem : Allocs) (waits : Waits)
    (card : MmcCard) (start : UInt64) (nblocks : Int)
    (vbuf : Option (Nat → UInt32)) (pbuf : Nat) (cb : Bool)
    (command : Nat) (s : Host) : Except Fault (Return × Host) :=
  match mem.cmd with
  | none => .ok (.value (-1), s)
  | some c =>
      let s := s.setCmd c (mmcCmdNew command (transferArg card start) .r1)
      if mem.data = false then .ok (transferResult cb nblocks (-1), s)
      else
        let s := s.setCmd c (mmcCmdAddData vbuf pbuf
          (UInt32.ofNat mmcBlockSize)
          (UInt32.ofNat (nblocks % 2 ^ 32).toNat))
        if cb then
          if mem.token = false then
            .ok (transferResult cb nblocks (-1), s)
          else do
            let s ← sdhcSendCmd s c (some .blockop)
            .ok (transferResult cb nblocks 0, s)
        else do
          match ← sdhcSendCmdWait ndebug s c waits.inputs with
          | (none, s) => .ok (.waits, s)
          | (some ret, s) => .ok (transferResult cb nblocks ret, s)

/-- `mmc_block_read`. -/
def mmcBlockRead (ndebug : Bool) (mem : Allocs) (waits : Waits)
    (card : MmcCard) (start : UInt64) (nblocks : Int)
    (vbuf : Option (Nat → UInt32)) (pbuf : Nat) (cb : Bool) (s : Host) :
    Except Fault (Return × Host) :=
  transferData ndebug mem waits card start nblocks vbuf pbuf cb
    mmcReadSingleBlock s

/-- `mmc_block_write`. -/
def mmcBlockWrite (ndebug : Bool) (mem : Allocs) (waits : Waits)
    (card : MmcCard) (start : UInt64) (nblocks : Int)
    (vbuf : Option (Nat → UInt32)) (pbuf : Nat) (cb : Bool) (s : Host) :
    Except Fault (Return × Host) :=
  transferData ndebug mem waits card start nblocks vbuf pbuf cb
    mmcWriteBlock s

-- ==================================================== the specification

/-- The address of a block on the card, as the card counts: in blocks, or
in bytes. -/
def cardAddress (card : MmcCard) (start : UInt64) : Nat :=
  if card.highCapacity then start.toNat else start.toNat * mmcBlockSize

/-- The commands that a run may send are new, each is sent once, and the
caller's is none of them. -/
structure New (s : Host) (c : CmdId) (waits : Waits) : Prop where
  self : c ∉ s.submitted
  nodup : (c :: waits.flatMap fun w => w.2.map Prod.fst).Nodup
  others : ∀ d ∈ waits.flatMap fun w => w.2.map Prod.fst, d ∉ s.submitted

/-- Command `c` is not being served, or with these values in the
registers. -/
def Programmed (c : CmdId) (arg count : Nat) (s : Host) : Prop :=
  s.cmdListHead = some c → s.regs.cmdArg.toNat = arg
    ∧ (take 16 16 s.regs.blkAtt).toNat = count

/-- The controller serves command `c` at some time of the wait, and has
these values in its registers as long as it does. The states of the wait
are those in which the call still waits after the inputs so far. -/
structure Served (call : Waits → Except Fault (Return × Host))
    (c : CmdId) (waits : Waits) (arg count : Nat) : Prop where
  someTime : ∃ before after s, waits = before ++ after
    ∧ call before = .ok (.waits, s) ∧ s.cmdListHead = some c
  programmed : ∀ before after s, waits = before ++ after →
    call before = .ok (.waits, s) → Programmed c arg count s

/-- A call returns. A value that is not negative is the number of bytes it
was asked for, and then the controller has been told of the range that they
are in. A call that stops at an assertion, dereferences NULL, computes a
number of bytes that is not an `int` or still polls does not do that. -/
structure AddressedOrFails (call : Waits → Except Fault (Return × Host))
    (mem : Allocs) (waits : Waits) (card : MmcCard) (start : UInt64)
    (nblocks : Int) : Prop where
  returns : ∃ v s', call waits = .ok (.value v, s')
  addressed : ∀ v s', call waits = .ok (.value v, s') → 0 ≤ v →
    v = nblocks * mmcBlockSize ∧ ∃ c, mem.cmd = some c
      ∧ Served call c waits (cardAddress card start) nblocks.toNat

/-- The command of a call is built and sent; from there on the caller
polls. -/
def sendTransfer (card : MmcCard) (start : UInt64) (nblocks : Int)
    (vbuf : Option (Nat → UInt32)) (pbuf command : Nat) (s : Host)
    (c : CmdId) : Except Fault Host :=
  let s := s.setCmd c (mmcCmdNew command (transferArg card start) .r1)
  let s := s.setCmd c (mmcCmdAddData vbuf pbuf (UInt32.ofNat mmcBlockSize)
    (UInt32.ofNat (nblocks % 2 ^ 32).toNat))
  sdhcSendCmd s c none

/-- The block range of a call has room in the registers. -/
structure InRange (card : MmcCard) (start : UInt64) (nblocks : Int) :
    Prop where
  address : cardAddress card start < 2 ^ 32
  count : nblocks < 2 ^ 16

end ProjectsLibs.Sdhc
