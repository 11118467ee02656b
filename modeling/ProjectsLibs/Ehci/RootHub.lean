/-
The ports of the EHCI root hub (hub.c), register access by register
access.

The change bits of a port register are cleared by writing a one to them;
the other bits are written as they are. Between any two accesses the
hardware may set change bits, of any port.

`ZF_LOGF` ends the run, unless a `return` stands behind it. None does in
these functions, so a check that fails has no outcome here.

# Accesses

A function of the driver is a sequence of reads and writes of registers,
and the hardware has a turn before each. What it sets is given for every
access number ahead (`Changes`), for each port, so a function of the
driver is a function of the state and of these turns, and to quantify over
them is to quantify over all interleavings. Every write records the change
bits that it clears (`clears`), which is what the statement about the
requests looks at.

`alone` is the hardware without the driver for the same number of
accesses: a port that a request leaves alone is as it would be then.
-/
import ProjectsLibs.Ehci.Basic
import ProjectsLibs.Usb.Hub

namespace ProjectsLibs.Ehci

open Lib Usb

-- ============================================================ registers

def ehciPortOwner : Nat := 13
def ehciPortPower : Nat := 12
def ehciPortJstate : Nat := 11
def ehciPortKstate : Nat := 10
def ehciPortReset : Nat := 8
def ehciPortSuspend : Nat := 7
def ehciPortForceResume : Nat := 6
def ehciPortOcurrentC : Nat := 5
def ehciPortOcurrent : Nat := 4
def ehciPortEnableC : Nat := 3
def ehciPortEnable : Nat := 2
def ehciPortConnectC : Nat := 1
def ehciPortConnect : Nat := 0

/-- `EHCI_PORT_CHANGE`. -/
def ehciPortChange : UInt32 :=
  mask ehciPortOcurrentC ||| mask ehciPortEnableC ||| mask ehciPortConnectC

/-- `EHCISTS_HCHALTED`. -/
def ehcistsHchalted : Nat := 12

/-- The registers and the part of `struct ehci_host` that the functions of
the root hub use. `power` has the calls of `board_pwren`, if the board has
that function; `cleared` has the change bits that writes have cleared, with
the register, and `time` counts the accesses. -/
structure RootHub where
  hcsparams : UInt32
  usbsts : UInt32
  portsc : Nat → UInt32
  bmresetC : UInt32
  boardPwren : Bool
  power : List (Nat × Bool)
  cleared : List (Nat × UInt32)
  time : Nat

/-- The change bits that the hardware sets before an access, by its number
and the register. -/
abbrev Changes := Nat → Nat → UInt32

namespace RootHub

variable (hw : Changes)

/-- The hardware has its turn. -/
def settle (s : RootHub) : RootHub :=
  { s with
    portsc := fun i => s.portsc i ||| hw s.time i &&& ehciPortChange
    time := s.time + 1 }

/-- The hardware alone, for a number of accesses. -/
def await (s : RootHub) : Nat → RootHub
  | 0 => s
  | n + 1 => (s.settle hw).await n

/-- The hardware alone, until the time of another state. -/
def alone (s s' : RootHub) : RootHub := s.await hw (s'.time - s.time)

/-- Read a port register. -/
def read (s : RootHub) (i : Nat) : UInt32 × RootHub :=
  ((s.settle hw).portsc i, s.settle hw)

/-- The port register after a write. -/
def written (old v : UInt32) : UInt32 :=
  v &&& ~~~ehciPortChange ||| old &&& ehciPortChange &&& ~~~v

/-- The change bits that a write clears. -/
def clears (i : Nat) (old v : UInt32) : List (Nat × UInt32) :=
  if old &&& ehciPortChange &&& v = 0 then []
  else [(i, old &&& ehciPortChange &&& v)]

/-- Write a port register. -/
def write (s : RootHub) (i : Nat) (v : UInt32) : RootHub :=
  let s := s.settle hw
  { s with
    portsc := Function.update s.portsc i (written (s.portsc i) v)
    cleared := s.cleared ++ clears i (s.portsc i) v }

/-- `board_pwren`, if it is there. -/
def callPwren (s : RootHub) (port : Nat) (state : Bool) : RootHub :=
  if s.boardPwren then { s with power := s.power ++ [(port, state)] } else s

/-- `EHCI_HCS_N_PORTS`. -/
def nports (s : RootHub) : Nat := (s.hcsparams &&& 0xf).toNat

end RootHub

-- ============================================================ functions

open RootHub

variable (hw : Changes)

/-- `_get_portsc`: the number of the register of a port. -/
def getPortsc (s : RootHub) (port : Nat) : Option Nat :=
  if port = 0 ∨ s.nports < port then none else some (port - 1)

/-- `while (*ps_reg & EHCI_PORT_RESET)`. -/
def waitReset (reg : Nat) : Nat → RootHub → Option RootHub
  | 0, _ => none
  | fuel + 1, s =>
      let (r, s) := s.read hw reg
      if r &&& mask ehciPortReset ≠ 0 then waitReset reg fuel s else some s

/-- The reset of a port. The driver ends it by a write, so the loop is left
after one read. -/
def resetPort (s : RootHub) (port reg : Nat) (v : UInt32) :
    Option (Int × RootHub) := do
  if s.usbsts &&& mask ehcistsHchalted ≠ 0 then none
  else
    let s := { s with bmresetC := mask port }
    let v := v &&& ~~~mask ehciPortEnable
    let v := v ||| mask ehciPortReset
    let s := s.write hw reg v
    -- `*ps_reg &= ~EHCI_PORT_RESET`
    let (r, s) := s.read hw reg
    let s := s.write hw reg (r &&& ~~~mask ehciPortReset)
    let s ← waitReset hw reg 1 s
    some (0, s)

/-- `_set_pf`. -/
def setPf (s : RootHub) (port : Nat) (feature : PortFeature) :
    Option (Int × RootHub) := do
  let reg ← getPortsc s port
  let (r, s) := s.read hw reg
  -- the change bits are write-1-to-clear
  let v := r &&& ~~~ehciPortChange
  match feature with
  | .enable => some (0, s.write hw reg (v ||| mask ehciPortEnable))
  | .power => some (0, (s.callPwren port true).write hw reg
      (v ||| mask ehciPortPower))
  | .reset => resetPort hw s port reg v
  | .suspend =>
      let (r, s) := s.read hw reg
      if r &&& mask ehciPortOwner ≠ 0 then none
      else some (0, s.write hw reg (v ||| mask ehciPortSuspend))
  | _ => some (-1, s)

/-- `_clr_pf`. -/
def clrPf (s : RootHub) (port : Nat) (feature : PortFeature) :
    Option (Int × RootHub) := do
  let reg ← getPortsc s port
  let (r, s) := s.read hw reg
  -- the change bits are write-1-to-clear
  let v := r &&& ~~~ehciPortChange
  match feature with
  | .enable => some (0, s.write hw reg (v &&& ~~~mask ehciPortEnable))
  | .overCurrent => some (0, s.write hw reg (v &&& ~~~mask ehciPortOcurrent))
  | .cEnable => some (0, s.write hw reg (v ||| mask ehciPortEnableC))
  | .cConnection => some (0, s.write hw reg (v ||| mask ehciPortConnectC))
  | .cOverCurrent => some (0, s.write hw reg (v ||| mask ehciPortOcurrentC))
  | .cReset => some (0, { s with
      bmresetC := s.bmresetC &&& ~~~mask port }.write hw reg v)
  | .power => some (0, (s.callPwren port false).write hw reg
      (v &&& ~~~mask ehciPortPower))
  | .suspend =>
      if v &&& mask ehciPortEnable = 0 then none
      else if v &&& mask ehciPortSuspend = 0 then none
      else some (0, s.write hw reg (v ||| mask ehciPortForceResume))
  | _ => some (-1, s)

/-- `(v & BIT(b)) ? BIT(f) : 0`. -/
def pick (v : UInt32) (b : Nat) (f : PortFeature) : UInt32 :=
  if v &&& mask b ≠ 0 then mask f.code else 0

/-- The speed bits of the status. -/
def speedBits (v : UInt32) : UInt32 :=
  if v &&& mask ehciPortJstate ≠ 0 then 0
  else if v &&& mask ehciPortKstate ≠ 0 then mask PortFeature.lowSpeed.code
  else mask PortFeature.highSpeed.code

/-- The emulated change at the end of a reset. -/
def resetChange (v bmresetC : UInt32) (port : Nat) : UInt32 :=
  if v &&& mask ehciPortReset = 0 ∧ bmresetC &&& mask port ≠ 0
  then mask PortFeature.reset.code else 0

/-- The status of a port, from its register. -/
def portStatus (v bmresetC : UInt32) (port : Nat) : PortStatus where
  wPortStatus := pick v ehciPortConnect .connection
    ||| pick v ehciPortEnable .enable
    ||| pick v ehciPortSuspend .suspend
    ||| pick v ehciPortOcurrent .overCurrent
    ||| pick v ehciPortReset .reset
    ||| pick v ehciPortPower .power ||| speedBits v
  wPortChange := pick v ehciPortConnectC .connection
    ||| pick v ehciPortEnableC .enable
    ||| pick v ehciPortOcurrentC .overCurrent
    ||| resetChange v bmresetC port

/-- `_get_pstat`. -/
def getPstat (s : RootHub) (port : Nat) : Option (PortStatus × RootHub) := do
  let reg ← getPortsc s port
  let (v, s) := s.read hw reg
  some (portStatus v s.bmresetC port, s)

-- =================================================== what is to be shown

/-- The change bit of the register that a request to clear names. -/
def namedChange : PortFeature → Option Nat
  | .cConnection => some ehciPortConnectC
  | .cEnable => some ehciPortEnableC
  | .cOverCurrent => some ehciPortOcurrentC
  | _ => none

/-- The requests about port `p` for a feature affect only what they name:
to set it clears no change bit, to clear it clears at most the change bit
that it names, and what port `q` reports is what it would report without
the request. -/
structure AffectsOnly (s : RootHub) (p q : Nat) (f : PortFeature) : Prop where
  set : ∀ ret s', setPf hw s p f = some (ret, s') →
    s'.cleared = s.cleared
  clr : ∀ ret s', clrPf hw s p f = some (ret, s') →
    s'.cleared = s.cleared ∨ ∃ c, namedChange f = some c
      ∧ s'.cleared = s.cleared ++ [(p - 1, mask c)]
  setOther : q ≠ p → ∀ ret s', setPf hw s p f = some (ret, s') →
    (getPstat hw s' q).map Prod.fst
      = (getPstat hw (s.alone hw s') q).map Prod.fst
  clrOther : q ≠ p → ∀ ret s', clrPf hw s p f = some (ret, s') →
    (getPstat hw s' q).map Prod.fst
      = (getPstat hw (s.alone hw s') q).map Prod.fst

end ProjectsLibs.Ehci
