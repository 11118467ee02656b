/-
The part of libfdt that libfdtgen uses, as a parameter: its functions,
and what their documentation promises.

libfdt is not part of this repository, so nothing is said about how it
works. `Libfdt` lists the functions; `Libfdt.Reading` is a way to read a
blob as a tree and its offsets as nodes, and `Libfdt.Documented` says
that the functions do to the tree what the documentation says. Two
functions change the blob; the offsets of a node's ancestors, and for
`fdt_setprop_string` its own, survive the change.

A loop `fdt_for_each_subnode` over a blob that does not change runs over
`subnodes`, and `fdt_for_each_property_offset` over `propertyOffsets`.
-/
import ProjectsLibs.Fdt.Tree

namespace ProjectsLibs.Fdt

/-- The functions, with the blob they work on. -/
structure Libfdt where
  Blob : Type
  /-- `fdt_open_into`: error code and the buffer -/
  openInto : Blob → Nat → Int × Blob
  /-- `fdt_check_full` -/
  checkFull : Blob → Nat → Int
  /-- `fdt_path_offset` -/
  pathOffset : Blob → CStr → Int
  /-- the offsets `fdt_for_each_subnode` runs over -/
  subnodes : Blob → Int → List Int
  /-- `fdt_first_subnode` -/
  firstSubnode : Blob → Int → Int
  /-- `fdt_next_subnode` -/
  nextSubnode : Blob → Int → Int
  /-- `fdt_get_name` -/
  getName : Blob → Int → CStr
  /-- the offsets `fdt_for_each_property_offset` runs over -/
  propertyOffsets : Blob → Int → List Int
  /-- `fdt_get_string` of the `nameoff` of `fdt_get_property_by_offset` -/
  propertyName : Blob → Int → CStr
  /-- `fdt_getprop_by_offset` -/
  getpropByOffset : Blob → Int → List UInt8
  /-- `fdt_getprop` -/
  getprop : Blob → Int → CStr → Option (List UInt8)
  /-- `fdt_node_offset_by_phandle` -/
  nodeOffsetByPhandle : Blob → UInt32 → Int
  /-- `fdt_get_path`: the contents of a buffer of the given size -/
  getPath : Blob → Int → CStr → Nat → CStr
  /-- `fdt_del_node`: error code and the blob -/
  delNode : Blob → Int → Int × Blob
  /-- `fdt_setprop_string` -/
  setpropString : Blob → Int → CStr → CStr → Int × Blob

-- ===================================================== what a tree says

/-- A big-endian 32-bit word. -/
def be32 : List UInt8 → Option UInt32
  | b₀ :: b₁ :: b₂ :: b₃ :: _ =>
      some (UInt32.ofNat (((b₀.toNat * 256 + b₁.toNat) * 256 + b₂.toNat)
        * 256 + b₃.toNat))
  | _ => none

/-- The value of the first property of that name. -/
def getProp (ps : List Property) (name : CStr) : Option (List UInt8) :=
  (ps.find? fun pr => pr.name = name).map Property.value

/-- The value of a property that is one 32-bit word. -/
def getWord (ps : List Property) (name : CStr) : Option UInt32 :=
  match getProp ps name with
  | some v => if v.length = 4 then be32 v else none
  | none => none

/-- The phandle of a node: 0 and all ones do not count. -/
def phandleOf (ps : List Property) : Option UInt32 :=
  match (getWord ps "phandle".toList).or
      (getWord ps "linux,phandle".toList) with
  | some ph => if ph = 0 ∨ ph = 0xffffffff then none else some ph
  | none => none

/-- The node with a phandle. -/
def Tree.byPhandle (t : Tree) (ph : UInt32) : Option Path :=
  (t.find? fun x => phandleOf x.props = some ph).map Node.path

/-- No two nodes have the same phandle. -/
def Tree.UniquePhandles (t : Tree) : Prop :=
  ∀ x ∈ t, ∀ y ∈ t, ∀ ph, phandleOf x.props = some ph →
    phandleOf y.props = some ph → x.path = y.path

/-- `ps'` is `ps` with `name` set to `value`: in the place of the old
value, or where there was none at a place that is not documented. -/
def PropSet (name : CStr) (value : List UInt8)
    (ps ps' : List Property) : Prop :=
  ∃ l₁ l₂, ps' = l₁ ++ ⟨name, value⟩ :: l₂
    ∧ (∀ pr ∈ l₁, pr.name ≠ name)
    ∧ ((∃ old, old.name = name ∧ ps = l₁ ++ old :: l₂)
      ∨ (ps = l₁ ++ l₂ ∧ ∀ pr ∈ l₂, pr.name ≠ name))

/-- `t'` is `t` with a property of the node at `p` set. -/
structure SetAt (t : Tree) (p : Path) (name : CStr) (value : List UInt8)
    (t' : Tree) : Prop where
  paths : t'.paths = t.paths
  other : ∀ q, q ≠ p → t'.propsAt q = t.propsAt q
  here : PropSet name value (t.propsAt p) (t'.propsAt p)

/-- The bytes of a C string, its closing null included. -/
def strBytes (s : CStr) : List UInt8 :=
  s.map (fun c => UInt8.ofNat c.toNat) ++ [0]

-- ======================================================== documentation

/-- A way to read blobs: the tree a blob holds, the offsets of its nodes,
the space the blob takes and has, and the space that setting a property
takes at most. -/
structure Libfdt.Reading (L : Libfdt) where
  tree : L.Blob → Tree
  off : L.Blob → Path → Int
  size : L.Blob → Nat
  cap : L.Blob → Nat
  propSize : CStr → CStr → Nat

/-- What the documentation says of each function, for a blob that holds a
tree. -/
structure Libfdt.Documented (L : Libfdt) (R : L.Reading) : Prop where
  off_nonneg : ∀ b p, (R.tree b).Wf → p ∈ (R.tree b).paths →
    0 ≤ R.off b p
  off_inj : ∀ b p q, (R.tree b).Wf → p ∈ (R.tree b).paths →
    q ∈ (R.tree b).paths → R.off b p = R.off b q → p = q
  openInto_ok : ∀ b n, (R.tree b).Wf → R.size b ≤ n →
    R.tree (L.openInto b n).2 = R.tree b ∧ R.cap (L.openInto b n).2 = n
      ∧ R.size (L.openInto b n).2 = R.size b
  checkFull_ok : ∀ b, (R.tree b).Wf → L.checkFull b (R.cap b) = 0
  pathOffset_root : ∀ b, (R.tree b).Wf →
    L.pathOffset b ['/'] = R.off b []
  subnodes_eq : ∀ b p, (R.tree b).Wf → p ∈ (R.tree b).paths →
    L.subnodes b (R.off b p) = ((R.tree b).children p).map (R.off b)
  firstSubnode_none : ∀ b p, (R.tree b).Wf → p ∈ (R.tree b).paths →
    (R.tree b).children p = [] → L.firstSubnode b (R.off b p) < 0
  firstSubnode_some : ∀ b p c l, (R.tree b).Wf → p ∈ (R.tree b).paths →
    (R.tree b).children p = c :: l →
    L.firstSubnode b (R.off b p) = R.off b c
  nextSubnode_none : ∀ b p l c, (R.tree b).Wf → p ∈ (R.tree b).paths →
    (R.tree b).children p = l ++ [c] → L.nextSubnode b (R.off b c) < 0
  nextSubnode_some : ∀ b p l c d l', (R.tree b).Wf →
    p ∈ (R.tree b).paths → (R.tree b).children p = l ++ c :: d :: l' →
    L.nextSubnode b (R.off b c) = R.off b d
  getName_eq : ∀ b p n, (R.tree b).Wf → p ++ [n] ∈ (R.tree b).paths →
    L.getName b (R.off b (p ++ [n])) = n
  propertyOffsets_eq : ∀ b p, (R.tree b).Wf → p ∈ (R.tree b).paths →
    (L.propertyOffsets b (R.off b p)).map
        (fun po => ⟨L.propertyName b po, L.getpropByOffset b po⟩)
      = (R.tree b).propsAt p
  getprop_eq : ∀ b p name, (R.tree b).Wf → p ∈ (R.tree b).paths →
    L.getprop b (R.off b p) name = getProp ((R.tree b).propsAt p) name
  nodeOffsetByPhandle_eq : ∀ b ph p, (R.tree b).Wf →
    (R.tree b).UniquePhandles → (R.tree b).byPhandle ph = some p →
    L.nodeOffsetByPhandle b ph = R.off b p
  getPath_eq : ∀ b p buf n, (R.tree b).Wf → p ∈ (R.tree b).paths →
    (fullPath p).length < n → L.getPath b (R.off b p) buf n = fullPath p
  delNode_ok : ∀ b p, (R.tree b).Wf → p ∈ (R.tree b).paths →
    p ≠ [] →
    (L.delNode b (R.off b p)).1 = 0
      ∧ R.tree (L.delNode b (R.off b p)).2 = (R.tree b).remove p
      ∧ R.cap (L.delNode b (R.off b p)).2 = R.cap b
      ∧ R.size (L.delNode b (R.off b p)).2 ≤ R.size b
      ∧ ∀ q, q <+: p → q ≠ p →
          R.off (L.delNode b (R.off b p)).2 q = R.off b q
  setpropString_ok : ∀ b p name v, (R.tree b).Wf →
    p ∈ (R.tree b).paths →
    R.size b + R.propSize name v ≤ R.cap b →
    (L.setpropString b (R.off b p) name v).1 = 0
      ∧ SetAt (R.tree b) p name (strBytes v)
          (R.tree (L.setpropString b (R.off b p) name v).2)
      ∧ R.cap (L.setpropString b (R.off b p) name v).2 = R.cap b
      ∧ R.size (L.setpropString b (R.off b p) name v).2
          ≤ R.size b + R.propSize name v
      ∧ ∀ q, q <+: p →
          R.off (L.setpropString b (R.off b p) name v).2 q = R.off b q

/-- What the documentation says of calls that fail: an offset that is no
node's has no properties, a phandle is that of a node or an error is
returned, and a buffer that is too small is left alone, with an error. -/
structure Libfdt.Refuses (L : Libfdt) (R : L.Reading) : Prop where
  propertyOffsets_none : ∀ b o, (R.tree b).Wf →
    (∀ p ∈ (R.tree b).paths, o ≠ R.off b p) → L.propertyOffsets b o = []
  getprop_none : ∀ b o name, (R.tree b).Wf →
    (∀ p ∈ (R.tree b).paths, o ≠ R.off b p) → L.getprop b o name = none
  nodeOffsetByPhandle_cases : ∀ b ph, (R.tree b).Wf →
    (∃ p ∈ (R.tree b).paths, L.nodeOffsetByPhandle b ph = R.off b p)
      ∨ L.nodeOffsetByPhandle b ph < 0
  openInto_fits : ∀ b n, (R.tree b).Wf → R.size b ≤ n →
    (L.openInto b n).1 = 0
  openInto_nospace : ∀ b n, (R.tree b).Wf → n < R.size b →
    (L.openInto b n).1 ≠ 0

end ProjectsLibs.Fdt
