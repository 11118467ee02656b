/-
What libfdtgen is for: the nodes a guest's tree needs.

`Keep` is the least set of nodes that contains the root and the requested
nodes and is closed under parents and, for nodes other than the root,
under the references of the six properties that `props_with_dep` lists.
`WellFormed` is what is asked of an input tree.

# Two closures

`Keep` is what the caller wants: parents, so that the tree stays one, and
dependencies, so that the guest finds its providers. The code also
follows references of nodes that it does not keep, and it takes a tree
as it comes: `KeepFrom` and `Reach` describe the set that comes out then,
for a tree and over what is read from a blob, so that it can be said when
this is the closure that was wanted.

`WellFormed` collects what an input has to be. Each of its parts is used
by the code without a test: that paths fit the buffer, that references
can be resolved, that lists are no longer than an `int` counts.
-/
import ProjectsLibs.Fdtgen.Basic

namespace ProjectsLibs.Fdtgen

open Fdt

-- =========================================================== references

/-- The number of cells that follow a reference to `ph` in a list, as the
provider's `cellsProp` says; `absent` stands for a provider without
one. -/
def cellCount (t : Tree) (cellsProp : CStr) (absent : Option Nat)
    (ph : UInt32) : Option Nat :=
  match t.byPhandle ph with
  | none => none
  | some q =>
      match getProp (t.propsAt q) cellsProp with
      | none => absent
      | some v => (be32 v).map UInt32.toNat

/-- The entries of a list of references: each a phandle, and the number
of cells after it. -/
def phandleList (cells : UInt32 → Option Nat) (bytes : List UInt8) :
    Option (List (UInt32 × Nat)) :=
  if _hne : bytes = [] then some []
  else
    match be32 bytes with
    | none => none
    | some ph =>
        match cells ph with
        | none => none
        | some c =>
            match phandleList cells (bytes.drop (4 + 4 * c)) with
            | none => none
            | some es => some ((ph, c) :: es)
termination_by bytes.length
decreasing_by
  have hpos := List.length_pos_iff.2 _hne
  rw [List.length_drop]
  omega

/-- What a property refers to: every entry of `clocks` and
`power-domains`, the first word of the other four; `none` when the value
cannot be read that way. -/
def propEntries (t : Tree) (pr : Property) :
    Option (List (UInt32 × Nat)) :=
  if pr.name = "clocks".toList then
    phandleList (cellCount t "#clock-cells".toList none) pr.value
  else if pr.name = "power-domains".toList then
    phandleList (cellCount t "#power-domain-cells".toList (some 0)) pr.value
  else if pr.name ∈ propsWithDep then (be32 pr.value).map fun ph => [(ph, 0)]
  else some []

/-- The bytes that entries take, with the cells their providers ask
for. -/
def entriesSize (es : List (UInt32 × Nat)) : Nat :=
  (es.map fun e => 4 + 4 * e.2).sum

/-- The node at `p` refers to the node at `q`. -/
def Edge (t : Tree) (p q : Path) : Prop :=
  ∃ pr ∈ t.propsAt p, ∃ es, propEntries t pr = some es
    ∧ ∃ e ∈ es, t.byPhandle e.1 = some q

/-- The dependency closure of a set of requested nodes. -/
inductive Keep (t : Tree) (requested : Path → Prop) : Path → Prop
  | root : Keep t requested []
  | request {p : Path} : p ∈ t.paths → requested p → Keep t requested p
  | parent {p : Path} {n : CStr} : Keep t requested (p ++ [n]) →
      Keep t requested p
  | edge {p q : Path} : Keep t requested p → p ≠ [] → Edge t p q →
      Keep t requested q

/-- The closure when the references of further nodes are followed, which
are not kept for that, not even if they refer to themselves. -/
inductive KeepFrom (t : Tree) (requested seed : Path → Prop) : Path → Prop
  | root : KeepFrom t requested seed []
  | request {p : Path} : p ∈ t.paths → requested p →
      KeepFrom t requested seed p
  | parent {p : Path} {n : CStr} : KeepFrom t requested seed (p ++ [n]) →
      KeepFrom t requested seed p
  | edge {p q : Path} : KeepFrom t requested seed p → p ≠ [] →
      Edge t p q → KeepFrom t requested seed q
  | seed {p q : Path} : seed p → p ≠ q → Edge t p q →
      KeepFrom t requested seed q

-- ================================================================ walks

section Walks

variable (L : Libfdt) (dtb : L.Blob)

/-- The number of cells that follow a phandle in a list, as the loops
over `clocks` and `power-domains` find it out. -/
def cellsOf (cellsProp : CStr) (absent : Except Fault Int)
    (phandle : UInt32) : Except Fault Int :=
  match L.getprop dtb (L.nodeOffsetByPhandle dtb phandle) cellsProp with
  | none => absent
  | some v => (fdt32Ld v).map toInt

/-- Where a loop goes on from `done`. -/
def advance (done cells : Int) : Except Fault Int := do
  let step ← int32 (cells * 4)
  let step ← int32 (4 + step)
  int32 (done + step)

/-- What a loop reads of a list from `done` on, in at most `n` rounds,
with nothing registered meanwhile: the phandles. -/
def listWalk (cellsProp : CStr) (absent : Except Fault Int)
    (data : List UInt8) : Nat → Int → Except Fault (List UInt32)
  | 0, _ => .error .outOfFuel
  | n + 1, done =>
      if done < data.length then
        if done < 0 then .error .badAccess
        else do
          let phandle ← fdt32Ld (data.drop done.toNat)
          let cells ← cellsOf L dtb cellsProp absent phandle
          let done ← advance done cells
          let rest ← listWalk cellsProp absent data n done
          .ok (phandle :: rest)
      else .ok []

/-- What is read of a property: all of a list, the first word of the
other four. -/
def propWalk (n : Nat) (pr : Property) : Except Fault (List UInt32) :=
  if pr.name = "clocks".toList then
    listWalk L dtb "#clock-cells".toList (.error .badAccess) pr.value n 0
  else if pr.name = "power-domains".toList then
    listWalk L dtb "#power-domain-cells".toList (.ok 0) pr.value n 0
  else if pr.name ∈ propsWithDep then
    (fdt32Ld pr.value).map fun ph => [ph]
  else .ok []

/-- A phandle that is read of a property of `p` is found at `q`. -/
def Refers (R : L.Reading) (p q : Path) : Prop :=
  ∃ pr ∈ (R.tree dtb).propsAt p, ∃ n phs,
    propWalk L dtb n pr = .ok phs ∧ ∃ ph ∈ phs,
      q ∈ (R.tree dtb).paths
        ∧ L.nodeOffsetByPhandle dtb ph = R.off dtb q

/-- `KeepFrom` for any blob: with the references that the code reads. -/
inductive Reach (R : L.Reading) (requested seed : Path → Prop) :
    Path → Prop
  | root : Reach R requested seed []
  | request {p : Path} : p ∈ (R.tree dtb).paths → requested p →
      Reach R requested seed p
  | parent {p : Path} {n : CStr} : Reach R requested seed (p ++ [n]) →
      Reach R requested seed p
  | edge {p q : Path} : Reach R requested seed p → p ≠ [] →
      Refers L dtb R p q → Reach R requested seed q
  | seed {p q : Path} : seed p → p ≠ q → Refers L dtb R p q →
      Reach R requested seed q

end Walks

-- ======================================================== input and output

/-- A tree libfdtgen can be given: besides being a tree, phandles are
unique, paths fit the buffer, references can be read and resolve, and
the lists of references fit the `int` that counts their bytes. -/
structure WellFormed (t : Tree) : Prop where
  wf : t.Wf
  phandles : t.UniquePhandles
  path_lt : ∀ p ∈ t.paths, (pathStr p).length < maxFullPathLength
  resolves : ∀ p ∈ t.paths, p ≠ [] → ∀ pr ∈ t.propsAt p,
    ∃ es, propEntries t pr = some es ∧ entriesSize es < 2 ^ 31
      ∧ ∀ e ∈ es, ∃ q, t.byPhandle e.1 = some q

/-- The requests made of a context, in order. -/
def request (junk : CStr → Int) (h : Context) :
    List (DeviceFlag × List CStr) → Context
  | [] => h
  | (.keep, nodes) :: rest =>
      request junk (fdtgenKeepNodes junk h nodes) rest
  | (.keepAndDisable, nodes) :: rest =>
      request junk (fdtgenKeepNodesAndDisable junk h nodes) rest

/-- A request names the node at `p`. -/
def Requested (reqs : List (DeviceFlag × List CStr)) (p : Path) : Prop :=
  ∃ r ∈ reqs, pathStr p ∈ r.2

/-- The flag of the last request for a path. -/
def lastFlag (reqs : List (DeviceFlag × List CStr)) (path : CStr) :
    Option DeviceFlag :=
  (reqs.reverse.find? fun r => path ∈ r.2).map Prod.fst

/-- The last request for the node at `p` asks for it to be disabled. -/
def Disabled (reqs : List (DeviceFlag × List CStr)) (p : Path) : Prop :=
  lastFlag reqs (pathStr p) = some .keepAndDisable

/-- `t'` is `t` cut down to the nodes that `keep` holds of, with the
status of those that `disabled` holds of set to "disabled". -/
structure Restricted (t : Tree) (keep disabled : Path → Prop) (t' : Tree) :
    Prop where
  mem_iff : ∀ p, p ∈ t'.paths ↔ p ∈ t.paths ∧ keep p
  /-- the order is that of `t`, of siblings in particular -/
  sublist : t'.paths.Sublist t.paths
  same : ∀ p ∈ t'.paths, ¬disabled p → t'.propsAt p = t.propsAt p
  status : ∀ p ∈ t'.paths, disabled p →
    PropSet "status".toList (strBytes "disabled".toList) (t.propsAt p)
      (t'.propsAt p)

-- ================================================================ calls

/-- The requests that a context takes. -/
inductive KeepRequest (L : Libfdt)
  | nodes (flag : DeviceFlag) (nodes : List CStr)
  | subtree (flag : DeviceFlag) (fdtOri : L.Blob) (node : CStr)

/-- Requests one after the other. -/
def keepRequests (L : Libfdt) (fuel : Nat) (junk : CStr → Int)
    (h : Context) (reqs : List (KeepRequest L)) : Except Fault Context :=
  reqs.foldlM (fun h r =>
    match r with
    | .nodes flag nodes => .ok (initKeepNode junk h nodes flag)
    | .subtree flag fdtOri node =>
        keepSubtree L junk fdtOri flag fuel h node) h

/-- Calls of `fdtgen_generate` one after the other, with what the buffer
holds before each of them: what they return and leave in the buffer. -/
def generateAll (L : Libfdt) (fuel : Nat) (fdtOri : L.Blob) :
    Context → List L.Blob → Except Fault (List (Int × L.Blob))
  | _, [] => .ok []
  | h, old :: olds => do
      let (r, h, dtb) ← fdtgenGenerateOver L fuel h old fdtOri
      let rest ← generateAll L fuel fdtOri h olds
      .ok ((r, dtb) :: rest)

end ProjectsLibs.Fdtgen
