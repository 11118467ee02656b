/-
libsdhcdrivers: the command queue of the SDHC host controller driver
(sdhc.c) and the completion of block transfers (mmc.c).

Commands are numbers, and the memory they are in is a map; the list of
commands is threaded through their `next` fields, with a tail that points
into the last of them. What the controller hands over when an interrupt
is handled (the status word, the response registers, the words of the
data port) comes with it as an `Input`. What the driver does to the
outside is logged: commands issued, words written to the data port,
callbacks made.

The waits on the present state register are taken to end. `ndebug` says
whether `assert` is compiled out. The number of blocks that remain is an
`int` in the source, and the fields of `struct mmc_data` are `uint32_t`s:
here they are natural numbers, so counts of blocks from 2^31 on, where the
`int` would be negative, are left out.
-/
import Mathlib.Logic.Function.Basic
import ProjectsLibs.Lib.Bits

namespace ProjectsLibs.Sdhc

open Lib

-- ================================================================ types

/-- What ends a run. -/
inductive Fault
  | assert
  | null
  deriving DecidableEq, Repr

/-- `enum mmc_rsp_type`. -/
inductive RspType
  | none | r1 | r1b | r2 | r3 | r4 | r5 | r5b | r6
  deriving DecidableEq, Repr

abbrev CmdId := Nat

/-- `struct mmc_data`; the buffer is the words from `vbuf` on. -/
structure MmcData where
  pbuf : Nat
  vbuf : Option (Nat → UInt32)
  blockSize : Nat
  blocks : Nat

/-- What a command calls when it has completed: a callback of the user of
the driver, or `mmc_blockop_completion_cb`. -/
inductive Callback
  | user
  | blockop
  deriving DecidableEq, Repr

/-- `struct mmc_cmd`. -/
structure MmcCmd where
  index : Nat
  arg : UInt32
  response : Nat → UInt32
  data : Option MmcData
  rspType : RspType
  cb : Option Callback
  next : Option CmdId
  complete : Int

/-- Where `cmd_list_tail` points: at `cmd_list_head`, or at the `next` of
a command. -/
inductive Tail
  | head
  | next (c : CmdId)
  deriving DecidableEq, Repr

/-- The registers that `sdhc_next_cmd` writes. -/
structure Regs where
  intStatusEn : UInt32
  cmdArg : UInt32
  sysCtrl : UInt32
  blkAtt : UInt32
  wtmkLvl : UInt32
  mixCtrl : UInt32
  dsAddr : UInt32
  cmdXfrTyp : UInt32

/-- `struct sdhc`, with the memory of the commands and what the driver
has done to the outside. -/
structure Host where
  cmdListHead : Option CmdId
  cmdListTail : Tail
  blocksRemaining : Nat
  version : Nat
  regs : Regs
  cmds : CmdId → MmcCmd
  /-- commands handed to `sdhc_send_cmd` -/
  submitted : List CmdId
  /-- commands that `sdhc_next_cmd` has issued -/
  started : List CmdId
  /-- callbacks made, with the status they were given -/
  called : List (CmdId × Int)
  /-- calls of the `mmc_cb` of a block transfer: status and bytes -/
  reported : List (CmdId × Int × Nat)
  /-- words written to the data port -/
  portOut : List UInt32

/-- What the controller hands over to one run of the handler. -/
structure Input where
  status : UInt32
  rsp : Nat → UInt32
  port : Nat → UInt32

namespace Host

/-- Change one command. -/
def setCmd (s : Host) (c : CmdId) (f : MmcCmd → MmcCmd) : Host :=
  { s with cmds := Function.update s.cmds c (f (s.cmds c)) }

/-- `cmd->complete = v`. -/
def setComplete (s : Host) (c : CmdId) (v : Int) : Host :=
  s.setCmd c fun x => { x with complete := v }

end Host

-- ================================================================= bits

/-- A bit of the interrupt status register is set. -/
def has (status : UInt32) (b : Nat) : Bool := status &&& mask b ≠ 0

def intStatusDmae : Nat := 28
def intStatusAdmae : Nat := 25
def intStatusAc12e : Nat := 24
def intStatusOvrcure : Nat := 23
def intStatusDebe : Nat := 22
def intStatusDce : Nat := 21
def intStatusDtoe : Nat := 20
def intStatusCie : Nat := 19
def intStatusCebe : Nat := 18
def intStatusCce : Nat := 17
def intStatusCtoe : Nat := 16
def intStatusErr : Nat := 15
def intStatusCrm : Nat := 7
def intStatusCins : Nat := 6
def intStatusBrr : Nat := 5
def intStatusBwr : Nat := 4
def intStatusTc : Nat := 1
def intStatusCc : Nat := 0

/-- The bits that make the handler set `complete` to -1, in its order. -/
def errorBits : List Nat :=
  [intStatusErr, intStatusAc12e, intStatusDmae, intStatusAdmae,
    intStatusDebe, intStatusDce, intStatusDtoe, intStatusCie,
    intStatusCebe, intStatusCce, intStatusCtoe, intStatusCrm]

def mmcStopTransmission : Nat := 12
def mmcReadSingleBlock : Nat := 17
def mmcWriteBlock : Nat := 24

-- ====================================================== issuing commands

/-- `get_dma_mode` is `DMA_MODE_NONE`. -/
def dmaModeNone (cmd : MmcCmd) : Bool :=
  match cmd.data with
  | none => true
  | some d => d.pbuf = 0

/-- The interrupts that `sdhc_next_cmd` enables. -/
def intStatusEn (cmd : MmcCmd) : UInt32 :=
  let val := mask intStatusAdmae ||| mask intStatusOvrcure
    ||| mask intStatusDebe ||| mask intStatusDce ||| mask intStatusDtoe
    ||| mask intStatusCrm ||| mask intStatusCins ||| mask intStatusCie
    ||| mask intStatusCebe ||| mask intStatusCce ||| mask intStatusCtoe
    ||| mask intStatusTc ||| mask intStatusCc
  if dmaModeNone cmd then val ||| mask intStatusBrr ||| mask intStatusBwr
  else val

/-- The mixer control word of a data command. -/
def mixCtrl (cmd : MmcCmd) (d : MmcData) : UInt32 :=
  let v := mask 1
  let v := if d.blocks > 1 then v ||| mask 5 else v
  let v := if cmd.index = mmcReadSingleBlock then v ||| mask 4 else v
  if dmaModeNone cmd then v else v ||| mask 0

/-- The registers of the data segment. -/
def dataRegs (r : Regs) (cmd : MmcCmd) (d : MmcData) : Regs :=
  let words := UInt32.ofNat (min (d.blockSize / 4) 0x80)
  { r with
    sysCtrl := (r.sysCtrl &&& ~~~(0xff0000 : UInt32)) ||| (0xe0000 : UInt32)
    blkAtt := (UInt32.ofNat d.blockSize &&& (0xfff : UInt32))
      ||| (UInt32.ofNat d.blocks <<< (16 : UInt32))
    wtmkLvl := if cmd.index = mmcReadSingleBlock then words
      else words <<< (16 : UInt32)
    dsAddr := if dmaModeNone cmd then r.dsAddr else UInt32.ofNat d.pbuf }

/-- The response type, as the transfer type register has it. -/
def rspBits : RspType → UInt32
  | .r2 => mask 16 ||| mask 19
  | .r3 | .r4 => mask 17
  | .r1 | .r5 | .r6 => mask 17 ||| mask 20 ||| mask 19
  | .r1b | .r5b => mask 17 ||| mask 16 ||| mask 20 ||| mask 19
  | .none => 0

/-- `sdhc_next_cmd`. -/
def sdhcNextCmd (s : Host) : Except Fault Host :=
  match s.cmdListHead with
  | none => .error .null
  | some c =>
      let cmd := s.cmds c
      let r := { s.regs with
        intStatusEn := intStatusEn cmd
        cmdArg := cmd.arg }
      let val :=
        (UInt32.ofNat cmd.index &&& (0x3f : UInt32)) <<< (24 : UInt32)
      match cmd.data with
      | none =>
          .ok { s with
            regs := { r with cmdXfrTyp := val ||| rspBits cmd.rspType }
            started := s.started ++ [c] }
      | some d =>
          let r := dataRegs r cmd d
          let mix := mixCtrl cmd d
          -- some controllers have the mixer control in the transfer type
          let r := if s.version = 2 then r else { r with mixCtrl := mix }
          let val := if s.version = 2 then val ||| mix else val
          .ok { s with
            regs := { r with
              cmdXfrTyp := val ||| rspBits cmd.rspType ||| mask 21 }
            blocksRemaining := d.blocks
            started := s.started ++ [c] }

-- =================================================== the interrupt handler

/-- `assert(p)`. -/
def assert (ndebug : Bool) (p : Prop) [Decidable p] : Except Fault Unit :=
  if ndebug = true ∨ p then .ok () else .error .assert

/-- The errors of a status word. -/
def markErrors (s : Host) (c : CmdId) (status : UInt32) : Host :=
  errorBits.foldl
    (fun s b => if has status b then s.setComplete c (-1) else s) s

/-- The response registers that a command reads. -/
def readResponse (cmd : MmcCmd) (rsp : Nat → UInt32) : MmcCmd :=
  match cmd.rspType with
  | .r2 => { cmd with
      response := fun i => if i < 4 then rsp i else cmd.response i }
  | .r1b =>
      if cmd.index = mmcStopTransmission then
        { cmd with response := Function.update cmd.response 3 (rsp 3) }
      else { cmd with response := Function.update cmd.response 0 (rsp 0) }
  | .none => cmd
  | _ => { cmd with response := Function.update cmd.response 0 (rsp 0) }

/-- Command complete. -/
def commandComplete (ndebug : Bool) (s : Host) (c : CmdId) (i : Input) :
    Except Fault Host :=
  if has i.status intStatusCc then
    let s := s.setCmd c fun cmd => readResponse cmd i.rsp
    match (s.cmds c).data with
    | some _ => .ok s
    | none => do
        assert ndebug ((s.cmds c).complete = 0)
        .ok (s.setComplete c 1)
  else .ok s

/-- The words that a block of `n` bytes takes. -/
def blockWords (n : Nat) : Nat := (n + 3) / 4

/-- A block read from the data port to the start of a buffer. -/
def readBlock (buf port : Nat → UInt32) (n : Nat) : Nat → UInt32 :=
  fun j => if j < blockWords n then port j else buf j

/-- The words of a block at the start of a buffer. -/
def writeBlock (buf : Nat → UInt32) (n : Nat) : List UInt32 :=
  (List.range (blockWords n)).map buf

/-- The words of one block are moved between the data port and the start of
the buffer. For a block of no bytes the buffer is not looked at. -/
def moveData (s : Host) (c : CmdId) (i : Input) (d : MmcData) :
    Except Fault Host :=
  match d.vbuf with
  | none => if d.blockSize = 0 then .ok s else .error .null
  | some buf =>
      if has i.status intStatusBrr then
        .ok (s.setCmd c fun cmd => { cmd with
          data := some { d with
            vbuf := some (readBlock buf i.port d.blockSize) } })
      else .ok { s with portOut := s.portOut ++ writeBlock buf d.blockSize }

/-- Programmed IO. With the assertions compiled out, the data segment is
looked at only if blocks remain. -/
def programmedIo (ndebug : Bool) (s : Host) (c : CmdId) (i : Input) :
    Except Fault Host :=
  if has i.status intStatusBrr || has i.status intStatusBwr then do
    assert ndebug ((s.cmds c).data.isSome)
    assert ndebug ((s.cmds c).data.any fun d => d.vbuf.isSome)
    assert ndebug ((s.cmds c).complete = 0)
    if s.blocksRemaining ≠ 0 then
      match (s.cmds c).data with
      | none => .error .null
      | some d => do
          let s ← moveData s c i d
          .ok { s with blocksRemaining := s.blocksRemaining - 1 }
    else .ok s
  else .ok s

/-- Data complete. -/
def dataComplete (ndebug : Bool) (s : Host) (c : CmdId) (i : Input) :
    Except Fault Host :=
  if has i.status intStatusTc then do
    assert ndebug ((s.cmds c).complete = 0)
    .ok (s.setComplete c 1)
  else .ok s

/-- `mmc_blockop_completion_cb`, up to the call of the registered
function. -/
def mmcBlockopCompletionCb (s : Host) (stat : Int) (c : CmdId) :
    Except Fault Host :=
  if stat = 0 then
    match (s.cmds c).data with
    | none => .error .null
    | some d => .ok { s with
        reported := s.reported ++
          [(c, stat, d.blockSize * d.blocks % 2 ^ 32)] }
  else .ok { s with reported := s.reported ++ [(c, stat, 0)] }

/-- The call of a command's callback; `body` is what the code of the user
does. -/
def callCb (body : Host → Except Fault Host) (s : Host) (c : CmdId)
    (stat : Int) : Except Fault Host :=
  match (s.cmds c).cb with
  | none => .ok s
  | some .user => body { s with called := s.called ++ [(c, stat)] }
  | some .blockop => do
      let s ← mmcBlockopCompletionCb
        { s with called := s.called ++ [(c, stat)] } stat c
      body s

/-- The list moves on: it is empty, or the next command is issued. -/
def advanceList (s : Host) (c : CmdId) : Except Fault Host :=
  match (s.cmds c).next with
  | none => .ok { s with cmdListHead := none, cmdListTail := .head }
  | some n => sdhcNextCmd { s with cmdListHead := some n }

/-- The end of the handler: a command that has finished leaves the list
and is called back. -/
def finishCmd (body : Host → Except Fault Host) (s : Host) (c : CmdId) :
    Except Fault Host :=
  if (s.cmds c).complete ≠ 0 then do
    let s ← advanceList s c
    let s := s.setCmd c fun cmd => { cmd with next := none }
    callCb body s c 0
  else .ok s

/-- `sdhc_handle_irq`. -/
def sdhcHandleIrq (ndebug : Bool) (body : Host → Except Fault Host)
    (s : Host) (i : Input) : Except Fault Host :=
  match s.cmdListHead with
  | none => .ok s
  | some c => do
      let s := markErrors s c i.status
      let s ← commandComplete ndebug s c i
      let s ← programmedIo ndebug s c i
      let s ← dataComplete ndebug s c i
      finishCmd body s c

-- =========================================================== sending

/-- `*host->cmd_list_tail = cmd`. -/
def storeTail (s : Host) (c : CmdId) : Host :=
  match s.cmdListTail with
  | .head => { s with cmdListHead := some c }
  | .next p => s.setCmd p fun cmd => { cmd with next := some c }

/-- `sdhc_send_cmd` up to where it waits or returns. -/
def sdhcSendCmd (s : Host) (c : CmdId) (cb : Option Callback) :
    Except Fault Host :=
  let s := { s with submitted := s.submitted ++ [c] }.setCmd c fun cmd =>
    { cmd with complete := 0, next := none, cb := cb }
  let s : Host := { storeTail s c with cmdListTail := .next c }
  if s.cmdListHead = some c then sdhcNextCmd s else .ok s

/-- The wait of a blocking `sdhc_send_cmd` over the inputs it polls, each
with what the code of the user does if a callback is made: the value it
returns, or none if it still waits. -/
def waitComplete (ndebug : Bool) (c : CmdId) :
    List (Input × (Host → Except Fault Host)) → Host →
      Except Fault (Option Int × Host)
  | inputs, s =>
      if (s.cmds c).complete = 0 then
        match inputs with
        | [] => .ok (none, s)
        | i :: rest => do
            let s ← sdhcHandleIrq ndebug i.2 s i.1
            waitComplete ndebug c rest s
      else if (s.cmds c).complete < 0 then
        .ok (some (s.cmds c).complete, s)
      else .ok (some 0, s)

/-- `sdhc_send_cmd` without a callback. -/
def sdhcSendCmdWait (ndebug : Bool) (s : Host) (c : CmdId)
    (inputs : List (Input × (Host → Except Fault Host))) :
    Except Fault (Option Int × Host) := do
  let s ← sdhcSendCmd s c none
  waitComplete ndebug c inputs s

end ProjectsLibs.Sdhc
