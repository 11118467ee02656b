/-
libfdtgen (`fdtgen.c`): which nodes of a device tree are kept, and the
tree cut down to them.

# State

The two uthash tables keep their entries in the order they were added,
as their iteration does; an entry is found by its string, and a pointer
to one is that string. Entries are never removed before the context is
freed, so a pointer that the code holds stays good. `string_buf` is the
string the buffer holds: a store of the null at `len` cuts it there, and
does nothing if it has become shorter in the meantime.

The blob in `handle->buffer` only changes in `trim_tree`. The functions
before it take it as an argument, `trim_tree` returns it.

# Faults

- `outOfFuel`: a loop or recursion has not come to its end within the
  steps it was given.
- `badAccess`: a read outside a property, or through a null pointer.
- `overflow`: an `int` or `string_buf` overflows.
- `fatal`: `ZF_LOGF_IF`.

# Fuel

`register_node_dependencies` and the functions it calls call each other.
It is the one that recurses here; the others take it as an argument. The
loops and the walks over the tree count `lim` steps of their own.
-/
import Mathlib.Algebra.Ring.Int.Defs
import Mathlib.Algebra.Ring.Nat
import ProjectsLibs.Fdt.Libfdt

namespace ProjectsLibs.Fdtgen

open Fdt

-- ================================================================= data

/-- `MAX_FULL_PATH_LENGTH`. -/
def maxFullPathLength : Nat := 4096

/-- `enum device_flag`. -/
inductive DeviceFlag
  | keep
  | keepAndDisable
  deriving DecidableEq, Repr

/-- `path_node_t`. -/
structure PathNode where
  name : CStr
  offset : Int
  cnt : Nat
  flag : DeviceFlag
  deriving DecidableEq, Repr

/-- `props_with_dep`. -/
def propsWithDep : List CStr :=
  ["phy-handle".toList, "next-level-cache".toList,
   "interrupt-parent".toList, "interrupts-extended".toList,
   "clocks".toList, "power-domains".toList]

/-- `d_list_node_t`. -/
structure DListNode where
  toPath : CStr
  toPhandle : UInt32
  deriving DecidableEq, Repr

/-- `dependency_t`. -/
structure Dependency where
  fromPath : CStr
  toList : List DListNode
  deriving DecidableEq, Repr

/-- `struct fdtgen_context`, less the blob. -/
structure Context where
  nodesTable : List PathNode
  depTable : List Dependency
  rootOffset : Int
  bufsize : Nat
  stringBuf : CStr
  deriving DecidableEq, Repr

/-- What goes wrong in a run. -/
inductive Fault
  | outOfFuel
  | badAccess
  | overflow
  | fatal
  deriving DecidableEq, Repr

-- =============================================================== tables

/-- `HASH_FIND_STR` in `nodes_table`. -/
def findNode (table : List PathNode) (key : CStr) : Option PathNode :=
  table.find? fun e => e.name = key

/-- A store through the pointer to the entry `key` of `nodes_table`. -/
def updateNode (table : List PathNode) (key : CStr)
    (f : PathNode → PathNode) : List PathNode :=
  table.map fun e => if e.name = key then f e else e

/-- `HASH_FIND_STR` in `dep_table`. -/
def findDep (table : List Dependency) (key : CStr) : Option Dependency :=
  table.find? fun d => d.fromPath = key

/-- `list_append` to the list of the entry `key` of `dep_table`. -/
def appendDep (table : List Dependency) (key : CStr) (d : DListNode) :
    List Dependency :=
  table.map fun e =>
    if e.fromPath = key then { e with toList := e.toList ++ [d] } else e

-- ============================================================== strings

/-- `strcat` to `string_buf`. -/
def strcat (buf s : CStr) : Except Fault CStr :=
  if (buf ++ s).length < maxFullPathLength then .ok (buf ++ s)
  else .error .overflow

/-- The name of a child appended to `string_buf`. -/
def strcatChild (buf name : CStr) : Except Fault CStr :=
  match strcat buf ['/'] with
  | .error e => .error e
  | .ok buf' => strcat buf' name

/-- `fdt32_ld`. -/
def fdt32Ld (data : List UInt8) : Except Fault UInt32 :=
  match be32 data with
  | some w => .ok w
  | none => .error .badAccess

/-- The value of an `int` expression. -/
def int32 (x : Int) : Except Fault Int :=
  if -2 ^ 31 ≤ x ∧ x < 2 ^ 31 then .ok x else .error .overflow

/-- Conversion of a `uint32_t` to `int`. -/
def toInt (w : UInt32) : Int :=
  if w.toNat < 2 ^ 31 then w.toNat else w.toNat - 2 ^ 32

-- ============================================================= requests

/-- `init_keep_node`; `junk` is what `malloc` left in the `offset` of a
new entry. -/
def initKeepNode (junk : CStr → Int) (h : Context) (nodes : List CStr)
    (flag : DeviceFlag) : Context :=
  nodes.foldl (fun h node =>
    match findNode h.nodesTable node with
    | none =>
        { h with
          nodesTable := h.nodesTable ++ [⟨node, junk node, 0, flag⟩] }
    | some _ =>
        { h with
          nodesTable := updateNode h.nodesTable node
            fun e => { e with flag := flag } }) h

/-- `fdtgen_keep_nodes`. -/
def fdtgenKeepNodes (junk : CStr → Int) (h : Context)
    (nodes : List CStr) : Context :=
  initKeepNode junk h nodes .keep

/-- `fdtgen_keep_nodes_and_disable`. -/
def fdtgenKeepNodesAndDisable (junk : CStr → Int) (h : Context)
    (nodes : List CStr) : Context :=
  initKeepNode junk h nodes .keepAndDisable

/-- `fdtgen_new_context`. -/
def fdtgenNewContext (bufsize : Nat) : Context :=
  { nodesTable := [], depTable := [], rootOffset := 0, bufsize := bufsize,
    stringBuf := [] }

-- ========================================================= dependencies

section Dependencies

variable (L : Libfdt) (dtb : L.Blob)

/-- `register_node_dependencies`, as the functions it calls see it. -/
abbrev Register := Context → Int → Except Fault Context

/-- The loop of `keep_node_and_parents` over the children of `offset`;
`descend` is the recursive call. -/
def keepChildren (register : Register)
    (descend : Context → Int → Except Fault (Bool × Context))
    (offset : Int) : Context → List Int → Except Fault (Bool × Context)
  | h, [] => .ok (false, h)
  | h, child :: rest => do
      let newLen := h.stringBuf.length
      let curr ← strcatChild h.stringBuf (L.getName dtb child)
      let (keep, h) ← descend { h with stringBuf := curr } child
      if keep then
        let h := match findNode h.nodesTable curr with
          | none =>
              -- the parent's offset, not the child's
              { h with
                nodesTable := h.nodesTable ++ [⟨curr, offset, 0, .keep⟩] }
          | some _ => h
        let h ← match findDep h.depTable curr with
          | none => register h child
          | some _ => .ok h
        .ok (true, { h with stringBuf := h.stringBuf.take newLen })
      else
        keepChildren register descend offset
          { h with stringBuf := h.stringBuf.take newLen } rest

/-- `keep_node_and_parents`. -/
def keepNodeAndParents (register : Register) :
    Nat → Context → Int → Int → Except Fault (Bool × Context)
  | 0, _, _, _ => .error .outOfFuel
  | lim + 1, h, offset, target =>
      if target = h.rootOffset then .ok (false, h)
      else if target = offset then .ok (true, h)
      else
        keepChildren L dtb register
          (fun h child => keepNodeAndParents register lim h child target)
          offset h (L.subnodes dtb offset)

/-- `register_single_dependency`; `this` is the entry `fromPath` of
`dep_table`. -/
def registerSingleDependency (register : Register) (lim : Nat)
    (h : Context) (offset : Int) (data : List UInt8) (fromPath : CStr) :
    Except Fault Context := do
  let toPhandle ← fdt32Ld data
  let off := L.nodeOffsetByPhandle dtb toPhandle
  let h := { h with
    stringBuf := L.getPath dtb off h.stringBuf maxFullPathLength }
  let newNode : DListNode := ⟨h.stringBuf, toPhandle⟩
  match findDep h.depTable fromPath with
  | none => .error .badAccess
  | some this =>
      if offset = off
          ∨ this.toList.any (fun d => d.toPath = newNode.toPath) then
        .ok h
      else do
        let h := { h with
          depTable := appendDep h.depTable fromPath newNode
          stringBuf := [] }
        let (_, h) ← keepNodeAndParents L dtb register lim h h.rootOffset off
        register h off

/-- The loop that `register_clocks_dependency` and
`register_power_domains_dependency` share: `cellsProp` is the property
with the number of cells, `absent` what the loop makes of its absence. -/
def registerCellsLoop (register : Register) (lim : Nat) (cellsProp : CStr)
    (absent : Except Fault Int) (offset : Int) (data : List UInt8)
    (fromPath : CStr) : Nat → Context → Int → Except Fault Context
  | 0, _, _ => .error .outOfFuel
  | fuel + 1, h, done =>
      if done < data.length then
        if done < 0 then .error .badAccess
        else do
          let phandle ← fdt32Ld (data.drop done.toNat)
          let refersTo := L.nodeOffsetByPhandle dtb phandle
          let cells ← match L.getprop dtb refersTo cellsProp with
            | none => absent
            | some v => (fdt32Ld v).map toInt
          let h ← registerSingleDependency L dtb register lim h offset
            (data.drop done.toNat) fromPath
          let step ← int32 (cells * 4)
          let step ← int32 (4 + step)
          let done ← int32 (done + step)
          registerCellsLoop register lim cellsProp absent offset data
            fromPath fuel h done
      else .ok h

/-- `register_clocks_dependency`: without a `#clock-cells` it reads
through the null pointer. -/
def registerClocksDependency (register : Register) (lim : Nat)
    (h : Context) (offset : Int) (data : List UInt8) (fromPath : CStr) :
    Except Fault Context :=
  registerCellsLoop L dtb register lim "#clock-cells".toList
    (.error .badAccess) offset data fromPath lim h 0

/-- `register_power_domains_dependency`: no `#power-domain-cells` is
none. -/
def registerPowerDomainsDependency (register : Register) (lim : Nat)
    (h : Context) (offset : Int) (data : List UInt8) (fromPath : CStr) :
    Except Fault Context :=
  registerCellsLoop L dtb register lim "#power-domain-cells".toList
    (.ok 0) offset data fromPath lim h 0

/-- `register_node_dependency`. -/
def registerNodeDependency (register : Register) (lim : Nat) (h : Context)
    (offset : Int) (type : CStr) (pOffset : Int) : Except Fault Context :=
  let data := L.getpropByOffset dtb pOffset
  let h := { h with
    stringBuf := L.getPath dtb offset h.stringBuf maxFullPathLength }
  let fromPath := h.stringBuf
  let h := match findDep h.depTable fromPath with
    | none => { h with depTable := h.depTable ++ [⟨fromPath, []⟩] }
    | some _ => h
  if type = "clocks".toList then
    registerClocksDependency L dtb register lim h offset data fromPath
  else if type = "power-domains".toList then
    registerPowerDomainsDependency L dtb register lim h offset data fromPath
  else
    registerSingleDependency L dtb register lim h offset data fromPath

/-- `register_node_dependencies`. -/
def registerNodeDependencies (lim : Nat) : Nat → Register
  | 0 => fun _ _ => .error .outOfFuel
  | fuel + 1 => fun h offset =>
      if offset = h.rootOffset then .ok h
      else
        (L.propertyOffsets dtb offset).foldlM (fun h propOff =>
          propsWithDep.foldlM (fun h dep =>
            if L.propertyName dtb propOff = dep then
              registerNodeDependency L dtb
                (registerNodeDependencies lim fuel) lim h offset
                (L.propertyName dtb propOff) propOff
            else .ok h) h) h

/-- `HASH_ITER` over `nodes_table`, which grows meanwhile: `i` is the
entry visited, `more` whether there was a next one when the iteration
came to `i`. -/
def resolveLoop (register : Register) :
    Nat → Context → Nat → Bool → Except Fault Context
  | 0, _, _, _ => .error .outOfFuel
  | fuel + 1, h, i, more =>
      match h.nodesTable[i]? with
      | none => .ok h
      | some el => do
          let h ← register h el.offset
          if more then
            resolveLoop register fuel h (i + 1)
              (decide (i + 2 < h.nodesTable.length))
          else .ok h

/-- `resolve_all_dependencies`. -/
def resolveAllDependencies (fuel : Nat) (h : Context) :
    Except Fault Context :=
  resolveLoop (registerNodeDependencies L dtb fuel fuel) fuel h 0
    (decide (1 < h.nodesTable.length))

/-- The body of the loop of `find_nodes_to_keep`; `descend` is the
recursive call. -/
def findChild (descend : Context → Int → Except Fault (Bool × Context))
    (find : Bool) (h : Context) (child : Int) :
    Except Fault (Bool × Context) := do
  let lenOri := h.stringBuf.length
  let curr ← strcatChild h.stringBuf (L.getName dtb child)
  let (childIsKept, h) ← descend { h with stringBuf := curr } child
  let inKeepList := !childIsKept
    && (findNode h.nodesTable h.stringBuf).isSome
  let (find, h) :=
    if inKeepList || childIsKept then
      (true,
        match findNode h.nodesTable h.stringBuf with
        | none =>
            { h with
              nodesTable := h.nodesTable
                ++ [⟨h.stringBuf, child, 0, .keep⟩] }
        | some _ =>
            { h with
              nodesTable := updateNode h.nodesTable h.stringBuf
                fun e => { e with offset := child } })
    else (find, h)
  .ok (find, { h with stringBuf := h.stringBuf.take lenOri })

/-- `find_nodes_to_keep`. -/
def findNodesToKeep : Nat → Context → Int → Except Fault (Bool × Context)
  | 0, _, _ => .error .outOfFuel
  | fuel + 1, h, offset =>
      (L.subnodes dtb offset).foldlM
        (fun s child => findChild L dtb (findNodesToKeep fuel) s.1 s.2 child)
        (false, h)

end Dependencies

-- ============================================================= subtrees

section Subtrees

variable (L : Libfdt) (junk : CStr → Int) (fdtOri : L.Blob)
  (flag : DeviceFlag)

/-- The body of the loop of `keep_node_and_children`, where an entry is
looked up or made in the way of `init_keep_node`; `descend` is the
recursive call. -/
def keepChild (descend : Context → Int → Except Fault Context)
    (h : Context) (child : Int) : Except Fault Context := do
  let lenOri := h.stringBuf.length
  let curr ← strcatChild h.stringBuf (L.getName fdtOri child)
  let h := initKeepNode junk { h with stringBuf := curr } [curr] flag
  let h ← descend h child
  .ok { h with stringBuf := h.stringBuf.take lenOri }

/-- `keep_node_and_children`. -/
def keepNodeAndChildren : Nat → Context → Int → Except Fault Context
  | 0, _, _ => .error .outOfFuel
  | fuel + 1, h, offset =>
      (L.subnodes fdtOri offset).foldlM
        (fun h child =>
          keepChild L junk fdtOri flag (keepNodeAndChildren fuel) h child) h

/-- What the two requests for a subtree share. -/
def keepSubtree (fuel : Nat) (h : Context) (node : CStr) :
    Except Fault Context :=
  let child := L.pathOffset fdtOri node
  if child < 0 then .ok h
  else
    let h := { h with
      stringBuf := L.getPath fdtOri child h.stringBuf maxFullPathLength }
    let h := initKeepNode junk h [h.stringBuf] flag
    keepNodeAndChildren L junk fdtOri flag fuel h child

/-- `fdtgen_keep_node_subtree`. -/
def fdtgenKeepNodeSubtree (fuel : Nat) (h : Context) (node : CStr) :
    Except Fault Context :=
  keepSubtree L junk fdtOri .keep fuel h node

/-- `fdtgen_keep_node_subtree_disable`. -/
def fdtgenKeepNodeSubtreeDisable (fuel : Nat) (h : Context)
    (node : CStr) : Except Fault Context :=
  keepSubtree L junk fdtOri .keepAndDisable fuel h node

end Subtrees

-- ============================================================= trimming

section Trimming

variable (L : Libfdt)

/-- `trim_tree`, from the child `child` of `offset` on. -/
def trimFrom : Nat → Context → L.Blob → Int → Int →
    Except Fault (Context × L.Blob)
  | 0, _, _, _, _ => .error .outOfFuel
  | fuel + 1, h, dtb, offset, child =>
      if child < 0 then .ok (h, dtb)
      else do
        let lenOri := h.stringBuf.length
        let curr ← strcatChild h.stringBuf (L.getName dtb child)
        let h := { h with stringBuf := curr }
        match findNode h.nodesTable curr with
        | none =>
            match L.delNode dtb child with
            | (err, dtb) =>
                if err ≠ 0 then .error .fatal
                else
                  trimFrom fuel
                    { h with stringBuf := h.stringBuf.take lenOri } dtb
                    offset (L.firstSubnode dtb offset)
        | some this =>
            let h := { h with
              nodesTable := updateNode h.nodesTable curr
                fun e => { e with cnt := e.cnt + 1 } }
            if this.flag = .keepAndDisable ∧ this.cnt + 1 = 1 then
              match L.setpropString dtb child "status".toList
                  "disabled".toList with
              | (err, dtb) =>
                  if err ≠ 0 then .error .fatal
                  else
                    trimFrom fuel
                      { h with stringBuf := h.stringBuf.take lenOri } dtb
                      offset (L.firstSubnode dtb offset)
            else do
              let (h, dtb) ← trimFrom fuel h dtb child
                (L.firstSubnode dtb child)
              trimFrom fuel { h with stringBuf := h.stringBuf.take lenOri }
                dtb offset (L.nextSubnode dtb child)

/-- `trim_tree`. -/
def trimTree (fuel : Nat) (h : Context) (dtb : L.Blob) (offset : Int) :
    Except Fault (Context × L.Blob) :=
  trimFrom L fuel h dtb offset (L.firstSubnode dtb offset)

/-- `fdtgen_generate` on a context that is not null: its return value,
the context and the blob in its buffer. -/
def fdtgenGenerate (fuel : Nat) (h : Context) (fdtOri : L.Blob) :
    Except Fault (Int × Context × L.Blob) :=
  match L.openInto fdtOri h.bufsize with
  | (_, dtb) =>
      if L.checkFull dtb h.bufsize ≠ 0 then .ok (-1, h, dtb)
      else do
        let h := { h with
          rootOffset := L.pathOffset dtb ['/'], stringBuf := [] }
        let (_, h) ← findNodesToKeep L dtb fuel h h.rootOffset
        let h ← resolveAllDependencies L dtb fuel h
        let h := { h with
          nodesTable := h.nodesTable ++ [⟨['/'], h.rootOffset, 1, .keep⟩]
          stringBuf := [] }
        let (h, dtb) ← trimTree L fuel h dtb h.rootOffset
        if L.checkFull dtb h.bufsize ≠ 0 then .ok (-1, h, dtb)
        else .ok (0, h, dtb)

/-- `fdtgen_generate` after `fdt_open_into`, with `dtb` in the buffer. -/
def generateIn (fuel : Nat) (h : Context) (dtb : L.Blob) :
    Except Fault (Int × Context × L.Blob) :=
  if L.checkFull dtb h.bufsize ≠ 0 then .ok (-1, h, dtb)
  else do
    let h := { h with
      rootOffset := L.pathOffset dtb ['/'], stringBuf := [] }
    let (_, h) ← findNodesToKeep L dtb fuel h h.rootOffset
    let h ← resolveAllDependencies L dtb fuel h
    let h := { h with
      nodesTable := h.nodesTable ++ [⟨['/'], h.rootOffset, 1, .keep⟩]
      stringBuf := [] }
    let (h, dtb) ← trimTree L fuel h dtb h.rootOffset
    if L.checkFull dtb h.bufsize ≠ 0 then .ok (-1, h, dtb)
    else .ok (0, h, dtb)

/-- The error of `fdt_open_into` is not looked at. -/
theorem fdtgenGenerate_eq (fuel : Nat) (h : Context) (fdtOri : L.Blob) :
    fdtgenGenerate L fuel h fdtOri
      = generateIn L fuel h (L.openInto fdtOri h.bufsize).2 := rfl

/-- `fdtgen_generate` over what the buffer held before: that is still
there when `fdt_open_into` fails. -/
def fdtgenGenerateOver (fuel : Nat) (h : Context) (old fdtOri : L.Blob) :
    Except Fault (Int × Context × L.Blob) :=
  match L.openInto fdtOri h.bufsize with
  | (err, dtb) => generateIn L fuel h (if err = 0 then dtb else old)

end Trimming

end ProjectsLibs.Fdtgen
