/-
The life of the BPMP driver: `tx2_bpmp_init` with the `tx2_hsp_init` that
it starts with, and `bpmp_destroy`. All users share one set of static
variables.

# The surroundings

What the functions outside of this library return is an input of a call,
one value for each place where they are called (`InitArgs`, `HspSteps`).
A mapping is known by the address that `ps_pmem_map` returned for it, and
a null pointer is the address 0. The handshake sees the channels of
`looks`, whatever the BPMP makes of them.

The node of the HSP has one register region, as an assertion of its
callback says. Allocated memory and the lengths of the regions are left
out: they do not take part in what is mapped.
-/
import ProjectsLibs.Bpmp.Frame
import ProjectsLibs.Lib.Run
import Mathlib.Data.Finset.Insert
import Mathlib.Data.Finset.Erase

namespace ProjectsLibs.Bpmp

open Ivc

-- ================================================================= data

/-- Why `tx2_bpmp_init` returned an error. -/
inductive InitErr
  | einval
  | enomem
  | enodev
  | etimedout
  | ivc (e : Errno)
  | interface (e : Int)
  deriving DecidableEq, Repr

/-- The static variables of the driver, and what is mapped; `handles`
counts the handles that were obtained and not yet destroyed. -/
structure Driver where
  bpmpInitialised : Bool
  bpmpRefcount : UInt32
  hspInitialised : Bool
  hspBase : UInt64
  txBase : UInt64
  rxBase : UInt64
  ivc : Option TegraIvc
  mapped : Finset UInt64
  handles : Nat
  deriving DecidableEq

/-- The driver before any call. -/
def Driver.start : Driver :=
  { bpmpInitialised := false, bpmpRefcount := 0, hspInitialised := false,
    hspBase := 0, txBase := 0, rxBase := 0, ivc := none, mapped := ∅,
    handles := 0 }

/-- What the steps of `tx2_hsp_init` find: `reg` is what `ps_pmem_map`
returns, if the walk gets to the register. -/
structure HspSteps where
  calloc : Bool
  readPath : Bool
  reg : Option UInt64
  walk : Bool
  cleanup : Bool
  deriving DecidableEq, Repr

/-- The arguments of `tx2_bpmp_init`, and what its steps find. `regs` is
what `ps_pmem_map` returns for each register that the walk gets to. -/
structure InitArgs where
  null : Bool
  hsp : HspSteps
  readPath : Bool
  regs : List UInt64
  walk : Bool
  cleanup : Bool
  looks : Looks
  register : Int

-- ============================================================= mappings

/-- `ps_pmem_map`, which returned `base`. -/
def Driver.map (s : Driver) (base : UInt64) : Driver :=
  if base = 0 then s else { s with mapped := insert base s.mapped }

/-- `ps_io_unmap`, of a pointer that may be null. -/
def Driver.unmap (s : Driver) (base : UInt64) : Driver :=
  if base = 0 then s else { s with mapped := s.mapped.erase base }

-- ================================================================= code

/-- `tx2_hsp_init`. -/
def tx2HspInit (e : HspSteps) (s : Driver) :
    Except InitErr Unit × Driver :=
  if !e.calloc then (.error .enomem, s)
  else if !e.readPath then (.error .enodev, s)
  else
    let hspBase := e.reg.getD 0
    let s := s.map hspBase
    if e.reg = some 0 ∨ !e.walk then (.error .enodev, s)
    else if hspBase = 0 then (.error .enomem, s)
    else if !e.cleanup then (.error .enodev, s)
    else (.ok (), { s with hspBase := hspBase })

/-- `hsp_destroy`. -/
def hspDestroy (s : Driver) : Driver := s.unmap s.hspBase

/-- `bpmp_destroy`. -/
def bpmpDestroy (s : Driver) : Driver :=
  let s := { s with bpmpRefcount := s.bpmpRefcount - 1 }
  if s.bpmpRefcount ≠ 0 then s
  else
    let s := if s.hspInitialised then hspDestroy s else s
    let s := s.unmap s.txBase
    s.unmap s.rxBase

/-- `allocate_register_callback`: false when it returns an error. -/
def allocateRegisterCallback (base : UInt64) (currNum : Nat) (s : Driver) :
    Bool × Driver :=
  if currNum = 1 then
    let s := { s.map base with txBase := base }
    (decide (base ≠ 0), s)
  else if currNum = 2 then
    let s := { s.map base with rxBase := base }
    (decide (base ≠ 0), s)
  else (true, s)

/-- `ps_fdt_walk_registers` over the registers from `currNum` on. -/
def walkRegisters : List UInt64 → Nat → Driver → Bool × Driver
  | [], _, s => (true, s)
  | base :: regs, currNum, s =>
      match allocateRegisterCallback base currNum s with
      | (true, s) => walkRegisters regs (currNum + 1) s
      | (false, s) => (false, s)

/-- The loop that waits for the handshake: whether it ended before its
counter did. -/
def awaitReset (looks : Looks) : Nat → Nat → TegraIvc → Bool × TegraIvc
  | 0, _, ivc => (false, ivc)
  | timeout + 1, n, ivc =>
      match tegraIvcChannelNotified ivc (looks n).1 (looks n).2 with
      | (.ok (), ivc, _) => (true, ivc)
      | (.error _, ivc, _) => awaitReset looks timeout (n + 1) ivc

/-- The label `fail` of `tx2_bpmp_init`. -/
def initFail (e : InitErr) (s : Driver) : Except InitErr Unit × Driver :=
  (.error e, bpmpDestroy s)

/-- The label `success` of `tx2_bpmp_init`. -/
def initSuccess (s : Driver) : Except InitErr Unit × Driver :=
  (.ok (), { s with
    bpmpRefcount := s.bpmpRefcount + 1, bpmpInitialised := true })

/-- `tx2_bpmp_init` from the handshake on. -/
def initReset (a : InitArgs) (ivc : TegraIvc) (s : Driver) :
    Except InitErr Unit × Driver :=
  match awaitReset a.looks timeoutThreshold 0 ivc with
  | (false, ivc) => initFail .etimedout { s with ivc := some ivc }
  | (true, ivc) =>
      let s := { s with ivc := some ivc }
      if a.register ≠ 0 then initFail (.interface a.register) s
      else initSuccess s

/-- `tx2_bpmp_init` behind `tx2_hsp_init`. -/
def initChannels (a : InitArgs) (s : Driver) :
    Except InitErr Unit × Driver :=
  let s := { s with hspInitialised := true }
  if !a.readPath then (.error .enodev, s)
  else
    match walkRegisters a.regs 0 s with
    | (false, s) => (.error .enodev, s)
    | (true, s) =>
        if !a.walk then (.error .enodev, s)
        else if !a.cleanup then (.error .enodev, s)
        else
          match tegraIvcInit s.rxBase s.txBase 1 128 with
          | .error e => initFail (.ivc e) s
          | .ok ivc => initReset a ivc s

/-- `tx2_bpmp_init`. -/
def tx2BpmpInit (a : InitArgs) (s : Driver) :
    Except InitErr Unit × Driver :=
  if a.null then (.error .einval, s)
  else if s.bpmpInitialised then initSuccess s
  else
    match tx2HspInit a.hsp s with
    | (.error e, s) => (.error e, s)
    | (.ok (), s) => initChannels a s

-- ================================================================= runs

/-- A call of a user. -/
inductive Call
  | init (a : InitArgs)
  | destroy

/-- One call. A user destroys only a handle that it has. -/
def lifeStep (s : Driver) : Call → Option Driver
  | .init a =>
      match tx2BpmpInit a s with
      | (.ok (), s) => some { s with handles := s.handles + 1 }
      | (.error _, s) => some s
  | .destroy =>
      if s.handles = 0 then none
      else some { bpmpDestroy s with handles := s.handles - 1 }

-- ====================================================== what is expected

/-- The channels are mapped and the IVC uses them. -/
structure Connected (s : Driver) : Prop where
  tx : s.txBase ∈ s.mapped
  rx : s.rxBase ∈ s.mapped
  ivc : ∃ ivc, s.ivc = some ivc ∧ ivc.txBase = s.txBase
    ∧ ivc.rxBase = s.rxBase

/-- The reference count is right; the channels are there for the live
handles, and without one everything is unmapped. -/
structure Sound (s : Driver) : Prop where
  refcount : s.bpmpRefcount.toNat = s.handles
  live : 0 < s.handles → Connected s
  dead : s.handles = 0 → s.mapped = ∅

/-- A call leads to a sound state; one that fails changes neither the
reference count nor the mappings nor `bpmp_initialised`, and one that
succeeds without a live handle connects to channels of its own. -/
def CallRight (s : Driver) (c : Call) (s' : Driver) : Prop :=
  Sound s' ∧
    match c with
    | .init a =>
        match (tx2BpmpInit a s).1 with
        | .error _ => s'.bpmpRefcount = s.bpmpRefcount
            ∧ s'.mapped = s.mapped
            ∧ s'.bpmpInitialised = s.bpmpInitialised
        | .ok () => s.handles = 0 →
            a.regs[1]? = some s'.txBase ∧ a.regs[2]? = some s'.rxBase
    | .destroy => True

-- ======================================================== the condition

/-- `tx2_hsp_init` does not get to map anything. -/
def HspSteps.MapsNothing (e : HspSteps) : Prop :=
  e.calloc = false ∨ e.readPath = false ∨ e.reg.getD 0 = 0

/-- Every step of `tx2_bpmp_init` succeeds, and the node of the BPMP has
the registers of both channels. -/
structure InitArgs.Succeeds (a : InitArgs) : Prop where
  calloc : a.hsp.calloc = true
  hsp_path : a.hsp.readPath = true
  hsp_reg : a.hsp.reg.getD 0 ≠ 0
  hsp_walk : a.hsp.walk = true
  hsp_cleanup : a.hsp.cleanup = true
  path : a.readPath = true
  channels : ∃ reg tx rx regs, a.regs = reg :: tx :: rx :: regs
    ∧ tx ≠ 0 ∧ rx ≠ 0 ∧ checkIvcParams rx tx 1 128 = true
    ∧ (awaitReset a.looks timeoutThreshold 0
        { rxBase := rx, txBase := tx, rPos := 0, wPos := 0, nframes := 1,
          frameSize := 128 }).1 = true
  walk : a.walk = true
  cleanup : a.cleanup = true
  register : a.register = 0

/-- The condition on a call: no first one fails behind a mapping, and no
other one comes when the count is 0 or cannot be increased. -/
def CallMeets (s : Driver) : Call → Prop
  | .init a => a.null = true ∨
      if s.bpmpInitialised then
        s.bpmpRefcount ≠ 0 ∧ s.bpmpRefcount + 1 ≠ 0
      else a.hsp.MapsNothing ∨ a.Succeeds
  | .destroy => True

end ProjectsLibs.Bpmp
