/-
The stages of a transfer: which descriptors `qtd_alloc` makes of a list of
packets, and what they tell the controller.

The blocks that are allocated are a supply, `block i` the one that is
allocated `i`-th; the transfer takes as many of them as it has
descriptors.

# What is expected

The specifications are in the terms of the device: a control transfer is
a setup packet, data packets that begin with the toggle 1 and alternate,
and a status packet in the other direction with the toggle 1. How many
packets the bytes of a transaction are is a quotient by the packet size,
and the toggle of a descriptor follows from the number of packets in
front of it.

The list has both the links of the driver and those of the controller,
and both have to lead through the same descriptors; `Listed` says so.
A bulk OUT transfer is ended by a packet that is not full, which is an
empty one if the data fills the last (`Terminated`).
-/
import ProjectsLibs.Lib.Chain
import ProjectsLibs.Lib.Fields
import ProjectsLibs.Ehci.Proofs.Groups

namespace ProjectsLibs.Ehci

open Lib

-- ================================================================ reading

/-- The PID field of a token. -/
def pidField (token : UInt32) : UInt32 := take 2 8 token

/-- The other direction. -/
def XactType.opposite : XactType → XactType
  | .pidIn => .pidOut
  | .pidOut => .pidIn
  | .pidSetup => .pidIn

/-- The packets that the bytes of a transaction take. -/
def packets (maxPkt len : Nat) : Nat := (len + maxPkt - 1) / maxPkt

/-- The packets of the first `i` transactions. -/
def packetsBefore (maxPkt : Nat) (xact : List Xact) (i : Nat) : Nat :=
  ((xact.take i).map fun x => packets maxPkt x.len.toNat).sum

/-- The bytes of a list of transactions. -/
def lenSum (xact : List Xact) : Nat := (xact.map fun x => x.len.toNat).sum

/-- An allocator that never gives out a block twice, and aligns them. -/
structure Supply (block : Nat → TdId × UInt32) : Prop where
  fresh : ∀ i j, (block i).1 = (block j).1 → i = j
  aligned : ∀ i, (block i).2 &&& 0x1f = 0

/-- The descriptors after `qtd_alloc`, given the first `n` blocks. -/
def alloced (ep : Endpoint) (speed : Speed) (xact : List Xact)
    (cb : Option Nat) (block : Nat → TdId × UInt32) (n : Nat)
    (tdns : TdId → TDn) : TdId → TDn :=
  qtdAlloc ep speed xact cb ((List.range n).map block) tdns

-- ========================================================= specifications

/-- A list of exactly `k + 1` descriptors, each with its `struct TD`: the
links of the driver and of the controller agree, and only the last is the
end, interrupts and has the callback. -/
structure Listed (tdns : TdId → TDn) (block : Nat → TdId × UInt32)
    (cb : Option Nat) (k : Nat) : Prop where
  mapped : Mapped tdns ((List.range (k + 1)).map fun i => (block i).1)
  next : Leads (fun t => (tdns t).next) (some (block 0).1)
    ((List.range (k + 1)).map fun i => (block i).1) none
  ptd : ∀ i ≤ k, (tdns (block i).1).ptd = (block i).2
  tdNext : ∀ i < k, (tdns (block i).1).tdNext = (block (i + 1)).2
  terminated : ∀ i ≤ k,
    testBit (tdns (block i).1).tdNext 0 = decide (i = k)
  ioc : ∀ i ≤ k, hasIoc (tdns (block i).1) = decide (i = k)
  callback : ∀ i ≤ k,
    (tdns (block i).1).cb = if i = k then cb else none

/-- A descriptor asks for the bytes of a transaction, in its direction. -/
structure Carries (tdn : TDn) (x : Xact) : Prop where
  bytes : tdtokGetBytes tdn.token = x.len
  pid : pidField tdn.token = pidField (pidBits x.type)

/-- A control transfer as the device expects it: one descriptor for each
transaction, each with the toggle of its first packet, and a status stage
without data, with DATA1 and against the direction of the data. -/
structure ControlStages (tdns : TdId → TDn) (block : Nat → TdId × UInt32)
    (maxPkt : Nat) (xact data : List Xact) (dir : XactType)
    (cb : Option Nat) : Prop where
  listed : Listed tdns block cb xact.length
  carries : ∀ i (h : i < xact.length),
    Carries (tdns (block i).1) (xact.get ⟨i, h⟩)
  toggle : ∀ i < xact.length, testBit (tdns (block i).1).token tdtokDt
    = decide (packetsBefore maxPkt xact i % 2 = 1)
  status : Carries (tdns (block xact.length).1)
    ⟨if data = [] then .pidIn else dir.opposite, 0⟩
  statusToggle :
    testBit (tdns (block xact.length).1).token tdtokDt = true

/-- A list of OUT descriptors, one for each transaction, and one more
without data if `extra`. -/
structure OutStages (tdns : TdId → TDn) (block : Nat → TdId × UInt32)
    (xact : List Xact) (cb : Option Nat) (extra : Bool) : Prop where
  listed : Listed tdns block cb
    (if extra then xact.length else xact.length - 1)
  carries : ∀ i (h : i < xact.length),
    (xact.get ⟨i, h⟩).len.toNat < 2 ^ 15 →
    Carries (tdns (block i).1) ⟨.pidOut, (xact.get ⟨i, h⟩).len⟩
  last : extra = true → Carries (tdns (block xact.length).1) ⟨.pidOut, 0⟩

/-- A bulk OUT transfer has a packet without data at its end exactly if
its last packet is full. -/
def Terminated (tdns : TdId → TDn) (block : Nat → TdId × UInt32)
    (maxPkt : Nat) (xact : List Xact) (cb : Option Nat) : Prop :=
  OutStages tdns block xact cb (decide (lenSum xact % maxPkt = 0))

end ProjectsLibs.Ehci
