/-
libvswitch: the registry of the nodes that a component is linked to
(vswitch.c, vswitch.h).

A slot of the table is free when its address is the null address, and so
it is if a node with the null address was put there. `Switch` is the
registry in use, with the connects that succeeded and the slots that they
filled, which the code does not record.

# How the calls are judged

`Right` says what one further call and one lookup have to do: it is stated
of a registry in use and of the connects that succeeded, in their order.
The sequence of the connects is arbitrary, also one that asks for an
address again or for more nodes than there are slots. The condition
(`Meets`) is on this sequence and on what is looked up, not on the
registry that it leads to.

The registry does not follow the pointers to the queues: they are values
that are stored and handed out.
-/
import Mathlib.Data.Fintype.Pi
import Mathlib.Data.List.FinRange

namespace ProjectsLibs.Vswitch

-- ================================================================= data

/-- `VSWITCH_NUM_NODES`. -/
def vswitchNumNodes : Nat := 4

/-- `ETH_ALEN`. -/
def ethAlen : Nat := 6

/-- `struct ether_addr`. -/
abbrev EtherAddr := Fin ethAlen → UInt8

/-- `null_macaddr`. -/
def nullMacaddr : EtherAddr := fun _ => 0

/-- `vswitch_virtqueues_t`. A pointer is its value. -/
structure VswitchVirtqueues where
  sendQueue : UInt64
  recvQueue : UInt64
  deriving DecidableEq, Repr

/-- `vswitch_node_t`. -/
structure VswitchNode where
  addr : EtherAddr
  virtqueues : VswitchVirtqueues
  deriving DecidableEq

/-- `vswitch_t`. -/
structure Table where
  nConnected : Int
  nodes : Fin vswitchNumNodes → VswitchNode

/-- What ends a call: an assertion fails, or the access is outside of the
table. -/
inductive Fault
  | assertion
  | outOfBounds
  deriving DecidableEq, Repr

-- ============================================================ addresses

/-- `mac802_addr_eq_num`, for `num` up to `ETH_ALEN`. -/
def mac802AddrEqNum (addr₀ addr₁ : EtherAddr) (num : Nat) : Bool :=
  ((List.finRange ethAlen).take num).all fun i => addr₀ i = addr₁ i

/-- `mac802_addr_eq`. -/
def mac802AddrEq (addr₀ addr₁ : EtherAddr) : Bool :=
  mac802AddrEqNum addr₀ addr₁ ethAlen

-- ============================================================ the table

/-- The loops of `vswitch_find_free_slot` and of
`vswitch_get_destnode_index_by_macaddr`: the first node with an
address. -/
def indexOf (lib : Table) (mac : EtherAddr) : Int :=
  match (List.finRange vswitchNumNodes).find? (fun i =>
      mac802AddrEq (lib.nodes i).addr mac) with
  | some i => i
  | none => -1

/-- `vswitch_find_free_slot`. -/
def vswitchFindFreeSlot (lib : Table) : Int := indexOf lib nullMacaddr

/-- `vswitch_init`. -/
def vswitchInit : Table := ⟨0, fun _ => ⟨nullMacaddr, 0, 0⟩⟩

/-- The arguments of `vswitch_connect`. -/
structure Connect where
  guestMacaddr : EtherAddr
  sendVirtqueue : UInt64
  recvVirtqueue : UInt64
  deriving DecidableEq

/-- The node that a connect asks for. -/
def Connect.node (c : Connect) : VswitchNode :=
  ⟨c.guestMacaddr, c.sendVirtqueue, c.recvVirtqueue⟩

/-- `vswitch_connect`. -/
def vswitchConnect (lib : Table) (c : Connect) :
    Except Fault (Int × Table) :=
  if ¬lib.nConnected ≤ vswitchNumNodes then .error .assertion
  else if lib.nConnected = vswitchNumNodes then .ok (-1, lib)
  else
    let slot := vswitchFindFreeSlot lib
    if slot < 0 then .ok (-1, lib)
    else
      .ok (0, {
        nConnected := lib.nConnected + 1
        nodes := fun i => if (i : Int) = slot then c.node else lib.nodes i })

/-- `vswitch_get_destnode_index_by_macaddr`. -/
def vswitchGetDestnodeIndexByMacaddr (lib : Table) (mac : EtherAddr) :
    Int :=
  indexOf lib mac

/-- `vswitch_get_destnode_by_index`, which does not check its index. -/
def vswitchGetDestnodeByIndex (lib : Table) (index : Nat) :
    Except Fault (Option VswitchNode) :=
  if h : index < vswitchNumNodes then
    let node := lib.nodes ⟨index, h⟩
    if mac802AddrEq node.addr nullMacaddr then .ok none else .ok (some node)
  else .error .outOfBounds

/-- `vswitch_get_destnode_by_macaddr`. -/
def vswitchGetDestnodeByMacaddr (lib : Table) (mac : EtherAddr) :
    Except Fault (Option VswitchNode) :=
  let idx := vswitchGetDestnodeIndexByMacaddr lib mac
  if idx < 0 then .ok none else vswitchGetDestnodeByIndex lib idx.toNat

-- =============================================================== in use

/-- The registry, and the connects that succeeded in their order, each
with the slot that it filled. -/
structure Switch where
  lib : Table
  filled : List (Connect × Int)

/-- One call. -/
def connectStep (s : Switch) (c : Connect) : Except Fault Switch :=
  match vswitchConnect s.lib c with
  | .error e => .error e
  | .ok (ret, lib) =>
      if ret = 0 then
        .ok ⟨lib, s.filled ++ [(c, vswitchFindFreeSlot s.lib)]⟩
      else .ok ⟨lib, s.filled⟩

/-- The registry after a sequence of calls. -/
def connectAll (cs : List Connect) : Except Fault Switch :=
  cs.foldlM connectStep ⟨vswitchInit, []⟩

/-- The first connect with an address that succeeded. -/
def firstWith (s : Switch) (mac : EtherAddr) : Option Connect :=
  (s.filled.find? fun e => e.1.guestMacaddr = mac).map Prod.fst

/-- What the registry is for: what a further call does, and what the
lookups of an address and of an index find. -/
structure Right (s : Switch) (c : Connect) (mac : EtherAddr)
    (index : Nat) : Prop where
  connects : ∃ ret lib, vswitchConnect s.lib c = .ok (ret, lib)
    ∧ (ret ≠ 0 ↔ s.filled.length = vswitchNumNodes)
    ∧ (ret ≠ 0 → lib = s.lib)
  /-- none was overwritten -/
  slots : (s.filled.map Prod.snd).Nodup
  found : ∀ d, firstWith s mac = some d →
    ∃ node, vswitchGetDestnodeByMacaddr s.lib mac = .ok (some node)
      ∧ node.virtqueues = d.node.virtqueues
  absent : firstWith s mac = none →
    vswitchGetDestnodeByMacaddr s.lib mac = .ok none
      ∧ vswitchGetDestnodeIndexByMacaddr s.lib mac < 0
  byIndex : (∀ e ∈ s.filled, e.2 ≠ index) →
    vswitchGetDestnodeByIndex s.lib index = .ok none

/-- The condition, on the calls and on what is looked up: a connect with
the null address is the last that can succeed, the null address is only
looked up in a table full of others, and an index is one of the table. -/
structure Meets (cs : List Connect) (mac : EtherAddr) (index : Nat) :
    Prop where
  null_last : ∀ c ∈ (cs.take vswitchNumNodes).dropLast,
    c.guestMacaddr ≠ nullMacaddr
  lookup : mac = nullMacaddr → vswitchNumNodes ≤ cs.length
    ∧ ∀ c ∈ cs.take vswitchNumNodes, c.guestMacaddr ≠ nullMacaddr
  index_lt : index < vswitchNumNodes

end ProjectsLibs.Vswitch
