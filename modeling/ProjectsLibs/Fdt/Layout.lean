/-
A libfdt that does what its documentation says: trees with the offsets
their nodes and properties have in the structure block of a version 17
blob.

A node takes a tag, its name with the closing null padded to words, its
properties, what is below it and a closing tag; a property a tag, its
length, the offset of its name and its value padded to words. New
properties come first, and a name that is not in the strings block is
added there.

# Why offsets

The functions of libfdt take and give offsets into the structure block,
and the code keeps them while it changes the blob. A removal or a new
property moves everything behind it and nothing in front of it, so the
offsets of the nodes above a change stay (`offset_remove`, `offset_set`),
which is what the documentation promises and the third pass relies on.
The layout is computed, and different nodes have different offsets, so
an offset determines a node.

The lemmas at the end say that this library meets the documentation that
`Libfdt` states, which shows that the statements about an arbitrary libfdt
are about something, and gives the samples a library to run on.
-/
import Mathlib.Algebra.Order.BigOperators.Group.List
import Mathlib.Algebra.Order.Ring.Nat
import ProjectsLibs.Fdt.Libfdt

namespace ProjectsLibs.Fdt

-- =============================================================== layout

/-- Rounded up to words. -/
def padded (n : Nat) : Nat := (n + 3) / 4 * 4

/-- The bytes of a property. -/
def propertySize (pr : Property) : Nat := 12 + padded pr.value.length

/-- The tag of a node and its name. -/
def headerSize (x : Node) : Nat :=
  4 + padded ((x.path.getLast?.getD []).length + 1)

/-- The bytes of a node up to what is below it. -/
def beginSize (x : Node) : Nat :=
  headerSize x + (x.props.map propertySize).sum

/-- The closing tag of `x`, if it comes before the node at `p`. -/
def endSize (p : Path) (x : Node) : Nat := if x.path <+: p then 0 else 4

namespace Tree

/-- The nodes before the one at `p`. -/
def before (t : Tree) (p : Path) : List Node :=
  t.takeWhile fun x => x.path ≠ p

/-- The offset of the node at `p`. -/
def offset (t : Tree) (p : Path) : Nat :=
  ((t.before p).map fun x => beginSize x + endSize p x).sum

/-- The node at an offset. -/
def nodeAt (t : Tree) (o : Int) : Option Node :=
  t.find? fun x => (t.offset x.path : Int) = o

/-- Properties with their offsets, the first at `base`. -/
def propsFrom (base : Nat) : List Property → List (Nat × Property)
  | [] => []
  | pr :: prs => (base, pr) :: propsFrom (base + propertySize pr) prs

/-- The properties of a node with their offsets. -/
def propsOf (t : Tree) (x : Node) : List (Nat × Property) :=
  propsFrom (t.offset x.path + headerSize x) x.props

/-- The property at an offset. -/
def propAt (t : Tree) (o : Int) : Option Property :=
  ((t.flatMap t.propsOf).find? fun e => (e.1 : Int) = o).map Prod.snd

/-- The bytes of the structure block. -/
def structSize (t : Tree) : Nat :=
  (t.map fun x => beginSize x + 4).sum + 4

/-- The sibling after `c`. -/
def sibling (t : Tree) (c : Path) : Option Path :=
  ((t.children c.dropLast).dropWhile fun d => d ≠ c).tail.head?

end Tree

/-- The property set in place, or added in front. -/
def setProperty (name : CStr) (value : List UInt8) (ps : List Property) :
    List Property :=
  if ps.any fun pr => pr.name = name then replace ps
  else ⟨name, value⟩ :: ps
where
  replace : List Property → List Property
    | [] => []
    | pr :: prs =>
        if pr.name = name then ⟨name, value⟩ :: prs else pr :: replace prs

/-- A blob: a tree, the strings block and the size of the buffer. -/
structure Blob where
  tree : Tree
  strings : List CStr
  total : Nat
  deriving DecidableEq

/-- The bytes in use: header, an empty reservation block and the two
blocks. -/
def Blob.used (b : Blob) : Nat :=
  56 + b.tree.structSize + (b.strings.map fun s => s.length + 1).sum

/-- A node, with the property set if it is the one at `p`. -/
def setNode (p : Path) (name : CStr) (value : List UInt8) (x : Node) :
    Node :=
  if x.path = p then { x with props := setProperty name value x.props }
  else x

/-- The tree with a property of the node at `p` set. -/
def Tree.set (t : Tree) (p : Path) (name : CStr) (value : List UInt8) :
    Tree :=
  t.map (setNode p name value)

/-- The bytes that setting a property takes at most. -/
def setSize (name v : CStr) : Nat :=
  12 + padded (strBytes v).length + name.length + 1

/-- `fdt_setprop_string`. -/
def Blob.setpropString (b : Blob) (o : Int) (name v : CStr) : Int × Blob :=
  match b.tree.nodeAt o with
  | none => (-4, b)
  | some x =>
      let b' : Blob :=
        { tree := b.tree.set x.path name (strBytes v)
          strings := if name ∈ b.strings then b.strings
            else b.strings ++ [name]
          total := b.total }
      if b'.used ≤ b.total then (0, b') else (-3, b)

/-- The offset of a node that may not be there, or `-FDT_ERR_NOTFOUND`. -/
def Blob.offsetOf (b : Blob) : Option Path → Int
  | none => -1
  | some p => b.tree.offset p

namespace Blob

/-- `fdt_open_into`. -/
def openInto (b : Blob) (n : Nat) : Int × Blob :=
  if b.used ≤ n then (0, { b with total := n }) else (-3, b)

/-- `fdt_check_full`. -/
def checkFull (b : Blob) (n : Nat) : Int := if b.total ≤ n then 0 else -8

/-- `fdt_path_offset`. -/
def pathOffset (b : Blob) (s : CStr) : Int :=
  b.offsetOf (b.tree.paths.find? fun p => fullPath p = s)

/-- `fdt_for_each_subnode`. -/
def subnodes (b : Blob) (o : Int) : List Int :=
  match b.tree.nodeAt o with
  | none => []
  | some x => (b.tree.children x.path).map fun c => (b.tree.offset c : Int)

/-- `fdt_first_subnode`. -/
def firstSubnode (b : Blob) (o : Int) : Int :=
  match b.tree.nodeAt o with
  | none => -4
  | some x => b.offsetOf (b.tree.children x.path).head?

/-- `fdt_next_subnode`. -/
def nextSubnode (b : Blob) (o : Int) : Int :=
  match b.tree.nodeAt o with
  | none => -4
  | some x => b.offsetOf (b.tree.sibling x.path)

/-- `fdt_get_name`. -/
def getName (b : Blob) (o : Int) : CStr :=
  match b.tree.nodeAt o with
  | none => []
  | some x => x.path.getLast?.getD []

/-- `fdt_for_each_property_offset`. -/
def propertyOffsets (b : Blob) (o : Int) : List Int :=
  match b.tree.nodeAt o with
  | none => []
  | some x => (b.tree.propsOf x).map fun e => (e.1 : Int)

/-- The property at an offset. -/
def property (b : Blob) (o : Int) : Property :=
  (b.tree.propAt o).getD ⟨[], []⟩

/-- `fdt_getprop`. -/
def getprop (b : Blob) (o : Int) (name : CStr) : Option (List UInt8) :=
  match b.tree.nodeAt o with
  | none => none
  | some x => getProp x.props name

/-- `fdt_get_path`. -/
def getPath (b : Blob) (o : Int) (buf : CStr) (n : Nat) : CStr :=
  match b.tree.nodeAt o with
  | none => buf
  | some x => if (fullPath x.path).length < n then fullPath x.path else buf

/-- `fdt_del_node`. -/
def delNode (b : Blob) (o : Int) : Int × Blob :=
  match b.tree.nodeAt o with
  | none => (-4, b)
  | some x => (0, { b with tree := b.tree.remove x.path })

end Blob

/-- A documented libfdt. -/
def layout : Libfdt where
  Blob := Blob
  openInto := Blob.openInto
  checkFull := Blob.checkFull
  pathOffset := Blob.pathOffset
  subnodes := Blob.subnodes
  firstSubnode := Blob.firstSubnode
  nextSubnode := Blob.nextSubnode
  getName := Blob.getName
  propertyOffsets := Blob.propertyOffsets
  propertyName b o := (b.property o).name
  getpropByOffset b o := (b.property o).value
  getprop := Blob.getprop
  nodeOffsetByPhandle b ph := b.offsetOf (b.tree.byPhandle ph)
  getPath := Blob.getPath
  delNode := Blob.delNode
  setpropString := Blob.setpropString

/-- How its blobs are read. -/
def layoutReading : layout.Reading where
  tree := Blob.tree
  off b p := b.tree.offset p
  size := Blob.used
  cap := Blob.total
  propSize := setSize

-- ============================================================== offsets

namespace Tree

variable {t : Tree} {p q : Path} {x y : Node}

/-- A node, with what is before and after it. -/
theorem Wf.split (h : t.Wf) (hp : p ∈ t.paths) :
    ∃ l₁ x l₂, t = l₁ ++ x :: l₂ ∧ x.path = p
      ∧ (∀ y ∈ l₁, y.path ≠ p) ∧ ∀ y ∈ l₂, y.path ≠ p := by
  obtain ⟨x, hx, rfl⟩ := List.mem_map.1 hp
  obtain ⟨l₁, l₂, rfl⟩ := List.append_of_mem hx
  have hnd := h.nodup
  unfold paths at hnd
  rw [List.map_append, List.map_cons, List.nodup_append,
    List.nodup_cons] at hnd
  refine ⟨l₁, x, l₂, rfl, rfl, ?_, ?_⟩
  · intro y hy
    exact hnd.2.2 _ (List.mem_map_of_mem hy) _ (List.mem_cons_self ..)
  · intro y hy heq
    exact hnd.2.1.1 (heq ▸ List.mem_map_of_mem hy)

/-- The nodes before a path are those in front of the first node that has
it. -/
theorem before_split {l₁ l₂ : List Node} (hx : x.path = p)
    (hl₁ : ∀ y ∈ l₁, y.path ≠ p) : before
    (l₁ ++ x :: l₂) p = l₁ := by
  unfold before
  rw [List.takeWhile_append_of_pos]
  · simp [hx]
  · intro y hy
    exact decide_eq_true (hl₁ y hy)

/-- A node before another one ends before it begins, its children
aside. -/
theorem Wf.offset_lt (h : t.Wf) {l₁ l₂ l₃ : List Node}
    (ht : t = l₁ ++ x :: l₂ ++ y :: l₃) :
    t.offset x.path + beginSize x ≤ t.offset y.path := by
  have hnd := h.nodup
  have hx : t.before x.path = l₁ := by
    rw [ht, List.append_assoc, List.cons_append]
    apply before_split rfl
    intro z hz heq
    subst ht
    unfold paths at hnd
    simp only [List.map_append, List.map_cons, List.append_assoc,
      List.cons_append, List.nodup_append] at hnd
    exact hnd.2.2 _ (List.mem_map_of_mem hz) _ (List.mem_cons_self ..) heq
  have hy : t.before y.path = l₁ ++ x :: l₂ := by
    rw [ht]
    apply before_split rfl
    intro z hz heq
    subst ht
    unfold paths at hnd
    rw [List.map_append, List.nodup_append] at hnd
    exact hnd.2.2 _ (List.mem_map_of_mem hz) _ (List.mem_cons_self ..) heq
  -- what is closed before `x` is closed before `y`
  have hle : ∀ z ∈ l₁, endSize x.path z ≤ endSize y.path z := by
    intro z hz
    unfold endSize
    by_cases hzy : z.path <+: y.path
    · have hzx : z.path <+: x.path := by
        apply h.contiguous z.path x.path y.path ?_ hzy
        have hzl : [z].Sublist l₁ := List.singleton_sublist.2 hz
        have hyl : [y].Sublist (l₂ ++ y :: l₃) :=
          List.singleton_sublist.2
            (List.mem_append_right _ (List.mem_cons_self ..))
        have hsub : [z, x, y].Sublist t := by
          rw [ht, List.append_assoc, List.cons_append]
          exact hzl.append (hyl.cons_cons x)
        exact hsub.map Node.path
      rw [if_pos hzx]
      exact Nat.zero_le _
    · rw [if_neg hzy]
      split <;> omega
  unfold offset
  rw [hx, hy, List.map_append, List.map_cons, List.sum_append,
    List.sum_cons]
  have hsum : (l₁.map fun z => beginSize z + endSize x.path z).sum
      ≤ (l₁.map fun z => beginSize z + endSize y.path z).sum :=
    List.sum_le_sum fun z hz => Nat.add_le_add_left (hle z hz) _
  omega

/-- Of two nodes one comes first. -/
theorem pair_split (hx : x ∈ t) (hy : y ∈ t) (hne : x ≠ y) :
    (∃ l₁ l₂ l₃, t = l₁ ++ x :: l₂ ++ y :: l₃)
      ∨ ∃ l₁ l₂ l₃, t = l₁ ++ y :: l₂ ++ x :: l₃ := by
  obtain ⟨l₁, l₂, rfl⟩ := List.append_of_mem hx
  rw [List.mem_append, List.mem_cons] at hy
  cases hy with
  | inl hy =>
      obtain ⟨a, b, rfl⟩ := List.append_of_mem hy
      exact .inr ⟨a, b, l₂, rfl⟩
  | inr hy =>
      cases hy with
      | inl heq => exact absurd heq.symm hne
      | inr hy =>
          obtain ⟨a, b, rfl⟩ := List.append_of_mem hy
          refine .inl ⟨l₁, a, b, ?_⟩
          rw [List.append_assoc, List.cons_append]

theorem headerSize_pos (x : Node) : 0 < headerSize x := by
  unfold headerSize
  omega

/-- The header is part of what begins a node. -/
theorem headerSize_le (x : Node) : headerSize x ≤ beginSize x :=
  Nat.le_add_right _ _

/-- What begins within one node does not begin within another. -/
theorem Wf.node_eq (h : t.Wf) (hx : x ∈ t) (hy : y ∈ t) {o : Nat}
    (hxo : t.offset x.path ≤ o) (hox : o < t.offset x.path + beginSize x)
    (hyo : t.offset y.path ≤ o) (hoy : o < t.offset y.path + beginSize y) :
    x = y := by
  by_contra hne
  cases pair_split hx hy hne with
  | inl hxy =>
      obtain ⟨l₁, l₂, l₃, ht⟩ := hxy
      have hlt := h.offset_lt ht
      omega
  | inr hyx =>
      obtain ⟨l₁, l₂, l₃, ht⟩ := hyx
      have hlt := h.offset_lt ht
      omega

/-- Nodes have different offsets. -/
theorem Wf.offset_injective (h : t.Wf) (hx : x ∈ t) (hy : y ∈ t)
    (heq : t.offset x.path = t.offset y.path) : x = y := by
  have hx0 := headerSize_pos x
  have hy0 := headerSize_pos y
  have hxb := headerSize_le x
  have hyb := headerSize_le y
  exact h.node_eq hx hy (Nat.le_refl _) (by omega) (by omega) (by omega)

/-- A node is found by its offset. -/
theorem Wf.nodeAt_offset (h : t.Wf) (hx : x ∈ t) :
    t.nodeAt (t.offset x.path) = some x := by
  unfold nodeAt
  cases hf : t.find? fun y => (t.offset y.path : Int) = t.offset x.path with
  | none =>
      rw [List.find?_eq_none] at hf
      exact absurd (decide_eq_true rfl) (hf x hx)
  | some y =>
      have hy := List.mem_of_find?_eq_some hf
      have heq := List.find?_some hf
      have heq : (t.offset y.path : Int) = t.offset x.path :=
        of_decide_eq_true heq
      rw [h.offset_injective hy hx (by omega)]

/-- The node at the offset of a path is the one with that path. -/
theorem Wf.nodeAt_path (h : t.Wf) (hp : p ∈ t.paths) :
    t.nodeAt (t.offset p) = some ⟨p, t.propsAt p⟩ :=
  h.nodeAt_offset (mem_of_mem_paths hp)

-- ----------------------------------------------------------- properties

/-- Laying properties out in a row keeps them in order. -/
theorem propsFrom_snd (base : Nat) (prs : List Property) :
    (propsFrom base prs).map Prod.snd = prs := by
  induction prs generalizing base with
  | nil => rfl
  | cons pr prs ih => rw [propsFrom, List.map_cons, ih]

/-- Properties lie within their node, one after the other. -/
theorem mem_propsFrom {base : Nat} {prs : List Property}
    {e : Nat × Property} (he : e ∈ propsFrom base prs) :
    base ≤ e.1
      ∧ e.1 + propertySize e.2 ≤ base + (prs.map propertySize).sum := by
  induction prs generalizing base with
  | nil => cases he
  | cons pr prs ih =>
      rw [List.map_cons, List.sum_cons]
      cases he with
      | head =>
          refine ⟨Nat.le_refl _, ?_⟩
          show base + propertySize pr ≤ _
          omega
      | tail _ he =>
          have hrec := ih he
          omega

/-- Two properties do not begin at one offset. -/
theorem propsFrom_injective {base : Nat} {prs : List Property}
    {e e' : Nat × Property} (he : e ∈ propsFrom base prs)
    (he' : e' ∈ propsFrom base prs) (heq : e.1 = e'.1) : e = e' := by
  induction prs generalizing base with
  | nil => cases he
  | cons pr prs ih =>
      have hpos : 0 < propertySize pr := by
        unfold propertySize
        omega
      cases he with
      | head =>
          cases he' with
          | head => rfl
          | tail _ he' =>
              have hle := (mem_propsFrom he').1
              have heq : base = e'.1 := heq
              omega
      | tail _ he =>
          cases he' with
          | head =>
              have hle := (mem_propsFrom he).1
              have heq : e.1 = base := heq
              omega
          | tail _ he' => exact ih he he'

/-- A property is found by its offset. -/
theorem Wf.propAt_eq (h : t.Wf) (hx : x ∈ t) {e : Nat × Property}
    (he : e ∈ t.propsOf x) : t.propAt e.1 = some e.2 := by
  have hwithin : ∀ z, ∀ d ∈ t.propsOf z, t.offset z.path ≤ d.1
      ∧ d.1 < t.offset z.path + beginSize z := by
    intro z d hd
    have hin := mem_propsFrom hd
    have hpos : 0 < propertySize d.2 := by
      unfold propertySize
      omega
    unfold beginSize
    omega
  have hmem : e ∈ t.flatMap t.propsOf := List.mem_flatMap.2 ⟨x, hx, he⟩
  unfold propAt
  cases hf : (t.flatMap t.propsOf).find? fun d => (d.1 : Int) = e.1 with
  | none =>
      rw [List.find?_eq_none] at hf
      exact absurd (decide_eq_true rfl) (hf e hmem)
  | some d =>
      have hd := List.mem_of_find?_eq_some hf
      have heq := List.find?_some hf
      have heq : (d.1 : Int) = e.1 := of_decide_eq_true heq
      have heq : d.1 = e.1 := by omega
      obtain ⟨y, hy, hdy⟩ := List.mem_flatMap.1 hd
      have hxe := hwithin x e he
      have hyd := hwithin y d hdy
      have hxy : y = x := h.node_eq hy hx hyd.1 hyd.2 (by omega) (by omega)
      subst hxy
      rw [propsFrom_injective hdy he heq]
      rfl

-- -------------------------------------------------------------- changes

/-- Nothing that comes before a node is at or below it. -/
theorem Wf.before_not_below (h : t.Wf) {l₁ l₂ : List Node}
    (ht : t = l₁ ++ x :: l₂) (hy : y ∈ l₁) : ¬x.path <+: y.path := by
  have hord := h.ordered
  unfold paths at hord
  rw [ht, List.map_append, List.pairwise_append] at hord
  exact hord.2.2 _ (List.mem_map_of_mem hy) _ (List.mem_cons_self ..)

/-- A removal does not move the nodes above. -/
theorem Wf.offset_remove (h : t.Wf) (hq : q ∈ t.paths) (hqp : q <+: p)
    (hne : q ≠ p) : (t.remove p).offset q = t.offset q := by
  obtain ⟨l₁, x, l₂, ht, hx, hl₁, -⟩ := h.split hq
  have hkeep : ∀ y ∈ l₁, ¬p <+: y.path := by
    intro y hy hpy
    exact h.before_not_below ht hy (hx ▸ hqp.trans hpy)
  have hxp : ¬p <+: x.path := by
    rw [hx]
    intro hpq
    exact hne (hqp.eq_of_length_le hpq.length_le)
  have hfilter : t.remove p
      = l₁ ++ x :: l₂.filter fun y => ¬p <+: y.path := by
    unfold Tree.remove
    rw [ht, List.filter_append, List.filter_cons_of_pos]
    · rw [List.filter_eq_self.2]
      intro y hy
      exact decide_eq_true (hkeep y hy)
    · exact decide_eq_true hxp
  unfold offset
  rw [hfilter, before_split hx hl₁, ht, before_split hx hl₁]

variable {name : CStr} {value : List UInt8}

/-- Setting a property does not move the node. -/
theorem setNode_path (x : Node) : (setNode p name value x).path = x.path := by
  unfold setNode
  split <;> rfl

/-- The other nodes stay. -/
theorem map_setNode {l : List Node} (hl : ∀ y ∈ l, y.path ≠ p) :
    l.map (setNode p name value) = l := by
  conv => rhs; rw [← List.map_id l]
  refine List.map_congr_left fun y hy => ?_
  unfold setNode
  rw [if_neg (hl y hy)]
  rfl

theorem paths_set : (t.set p name value).paths = t.paths := by
  unfold Tree.set paths
  rw [List.map_map]
  exact List.map_congr_left fun x _ => setNode_path x

/-- A new property does not move the nodes above. -/
theorem Wf.offset_set (h : t.Wf) (hq : q ∈ t.paths) (hqp : q <+: p) :
    (t.set p name value).offset q = t.offset q := by
  obtain ⟨l₁, x, l₂, ht, hx, hl₁, -⟩ := h.split hq
  have hkeep : ∀ y ∈ l₁, y.path ≠ p := by
    intro y hy heq
    exact h.before_not_below ht hy (hx ▸ heq ▸ hqp)
  have hset : t.set p name value
      = l₁ ++ setNode p name value x :: l₂.map (setNode p name value) := by
    unfold Tree.set
    rw [ht, List.map_append, List.map_cons, map_setNode hkeep]
  have hx' : (setNode p name value x).path = q := by
    rw [setNode_path, hx]
  unfold offset
  rw [hset, before_split hx' hl₁, ht, before_split hx hl₁]

/-- The properties after one is set. -/
theorem propsAt_set (hp : p ∈ t.paths) :
    (t.set p name value).propsAt q
      = if q = p then setProperty name value (t.propsAt p)
        else t.propsAt q := by
  unfold propsAt Tree.set
  rw [List.find?_map]
  have hcomp : ((fun x : Node => decide (x.path = q))
      ∘ setNode p name value) = fun x => decide (x.path = q) := by
    funext x
    rw [Function.comp_apply, setNode_path]
  rw [hcomp]
  cases hf : t.find? fun x => x.path = q with
  | none =>
      rw [if_neg]
      · rfl
      · intro heq
        subst heq
        obtain ⟨x, hx, hxq⟩ := List.mem_map.1 hp
        rw [List.find?_eq_none] at hf
        exact hf x hx (decide_eq_true hxq)
  | some x =>
      have hxq := List.find?_some hf
      have hxq : x.path = q := of_decide_eq_true hxq
      by_cases hqp : q = p
      · subst hqp
        rw [if_pos rfl, hf]
        simp [setNode, hxq]
      · rw [if_neg hqp]
        have hxp : x.path ≠ p := hxq ▸ hqp
        simp [setNode, hxp]

end Tree

-- ==================================================== setting a property

section Set

variable {name : CStr} {value : List UInt8} {ps : List Property}

/-- An existing property is replaced in its place. -/
theorem replace_eq {l₁ l₂ : List Property} {old : Property}
    (hold : old.name = name) (hl₁ : ∀ pr ∈ l₁, pr.name ≠ name) :
    setProperty.replace name value (l₁ ++ old :: l₂)
      = l₁ ++ ⟨name, value⟩ :: l₂ := by
  induction l₁ with
  | nil => simp [setProperty.replace, hold]
  | cons pr l₁ ih =>
      have hpr := hl₁ pr (List.mem_cons_self ..)
      rw [List.cons_append, setProperty.replace, if_neg hpr,
        ih fun pr' h' => hl₁ pr' (List.mem_cons_of_mem _ h')]
      rfl

/-- The first property of a name, and those before it. -/
theorem first_split (hex : ∃ pr ∈ ps, pr.name = name) :
    ∃ l₁ old l₂, ps = l₁ ++ old :: l₂ ∧ old.name = name
      ∧ ∀ pr ∈ l₁, pr.name ≠ name := by
  induction ps with
  | nil =>
      obtain ⟨pr, hpr, -⟩ := hex
      cases hpr
  | cons pr ps ih =>
      by_cases hpr : pr.name = name
      · exact ⟨[], pr, ps, rfl, hpr, by simp⟩
      · obtain ⟨pr', hmem, hname⟩ := hex
        cases hmem with
        | head => exact absurd hname hpr
        | tail _ hmem =>
            obtain ⟨l₁, old, l₂, rfl, hold, hl₁⟩ :=
              ih ⟨pr', hmem, hname⟩
            refine ⟨pr :: l₁, old, l₂, rfl, hold, ?_⟩
            intro pr'' h''
            cases h'' with
            | head => exact hpr
            | tail _ h'' => exact hl₁ pr'' h''

/-- A property is set in place or added, and takes no more than its
size. -/
theorem propSet_setProperty (name : CStr) (value : List UInt8)
    (ps : List Property) :
    PropSet name value ps (setProperty name value ps)
      ∧ ((setProperty name value ps).map propertySize).sum
        ≤ (ps.map propertySize).sum + (12 + padded value.length) := by
  unfold setProperty
  by_cases hex : ∃ pr ∈ ps, pr.name = name
  · rw [if_pos (by simpa using hex)]
    obtain ⟨l₁, old, l₂, rfl, hold, hl₁⟩ := first_split hex
    rw [replace_eq hold hl₁]
    refine ⟨⟨l₁, l₂, rfl, hl₁, .inl ⟨old, hold, rfl⟩⟩, ?_⟩
    simp only [List.map_append, List.map_cons, List.sum_append,
      List.sum_cons]
    have hnew : propertySize ⟨name, value⟩ = 12 + padded value.length := rfl
    omega
  · rw [if_neg (by simpa using hex)]
    refine ⟨⟨[], ps, rfl, by simp, .inr ⟨rfl, ?_⟩⟩, ?_⟩
    · intro pr hpr hname
      exact hex ⟨pr, hpr, hname⟩
    · rw [List.map_cons, List.sum_cons]
      have hnew : propertySize ⟨name, value⟩ = 12 + padded value.length :=
        rfl
      omega

end Set

-- ======================================================== documentation

/-- Removing a node does not make the structure block longer. -/
theorem structSize_remove (t : Tree) (p : Path) :
    (t.remove p).structSize ≤ t.structSize := by
  unfold Tree.structSize Tree.remove
  refine Nat.add_le_add_right ?_ 4
  apply List.Sublist.sum_le_sum
  · exact List.filter_sublist.map _
  · intro n _
    exact Nat.zero_le n

/-- Setting a property makes it longer by that property at most. -/
theorem structSize_set {t : Tree} (h : t.Wf) {p : Path} (hp : p ∈ t.paths)
    (name : CStr) (value : List UInt8) :
    (t.set p name value).structSize
      ≤ t.structSize + (12 + padded value.length) := by
  obtain ⟨l₁, x, l₂, ht, hx, hl₁, hl₂⟩ := h.split hp
  have hset : t.set p name value
      = l₁ ++ setNode p name value x :: l₂ := by
    unfold Tree.set
    rw [ht, List.map_append, List.map_cons, Tree.map_setNode hl₁,
      Tree.map_setNode hl₂]
  have hnode : setNode p name value x
      = { x with props := setProperty name value x.props } := if_pos hx
  have hle := (propSet_setProperty name value x.props).2
  have hbegin : beginSize (setNode p name value x)
      ≤ beginSize x + (12 + padded value.length) := by
    rw [hnode]
    unfold beginSize
    have hhead : headerSize { x with props := setProperty name value x.props }
        = headerSize x := rfl
    rw [hhead]
    show headerSize x + ((setProperty name value x.props).map
      propertySize).sum ≤ _
    omega
  unfold Tree.structSize
  rw [hset, ht]
  simp only [List.map_append, List.map_cons, List.sum_append,
    List.sum_cons]
  omega

/-- The bytes of the strings block after a name has been looked up. -/
theorem strings_add_le (strings : List CStr) (name : CStr) :
    ((if name ∈ strings then strings else strings ++ [name]).map
        fun s => s.length + 1).sum
      ≤ (strings.map fun s => s.length + 1).sum + (name.length + 1) := by
  split
  · omega
  · rw [List.map_append, List.sum_append]
    simp

namespace Blob

variable {b : Blob} {p : Path}

/-- `fdt_setprop_string` succeeds if there is room, and sets the property
at this node only. -/
theorem setpropString_eq (h : b.tree.Wf) (hp : p ∈ b.tree.paths)
    {name v : CStr} (hfits : b.used + setSize name v ≤ b.total) :
    ∃ strings, b.setpropString (b.tree.offset p) name v
        = (0, ⟨b.tree.set p name (strBytes v), strings, b.total⟩)
      ∧ used ⟨b.tree.set p name (strBytes v), strings, b.total⟩
        ≤ b.used + setSize name v := by
  have hstruct := structSize_set h hp name (strBytes v)
  have hstrings := strings_add_le b.strings name
  have hused : used ⟨b.tree.set p name (strBytes v),
      if name ∈ b.strings then b.strings else b.strings ++ [name],
      b.total⟩ ≤ b.used + setSize name v := by
    unfold used setSize
    dsimp only
    omega
  refine ⟨_, ?_, hused⟩
  unfold setpropString
  rw [h.nodeAt_path hp]
  exact if_pos (Nat.le_trans hused hfits)

/-- `fdt_del_node` removes the node with everything below it. -/
theorem delNode_eq (h : b.tree.Wf) (hp : p ∈ b.tree.paths) :
    b.delNode (b.tree.offset p)
      = (0, { b with tree := b.tree.remove p }) := by
  unfold delNode
  rw [h.nodeAt_path hp]

theorem firstSubnode_eq (h : b.tree.Wf) (hp : p ∈ b.tree.paths) :
    b.firstSubnode (b.tree.offset p)
      = b.offsetOf (b.tree.children p).head? := by
  unfold firstSubnode
  rw [h.nodeAt_path hp]

/-- `fdt_next_subnode` finds the child behind the one given. -/
theorem nextSubnode_eq (h : b.tree.Wf) {c : Path} {l₁ l₂ : List Path}
    (hl : b.tree.children p = l₁ ++ c :: l₂) :
    b.nextSubnode (b.tree.offset c) = b.offsetOf l₂.head? := by
  have hmem : c ∈ b.tree.children p := by
    rw [hl]
    exact List.mem_append_right _ (List.mem_cons_self ..)
  obtain ⟨hc, n, rfl⟩ := Tree.mem_children.1 hmem
  have hnd := h.children_nodup p
  rw [hl, List.nodup_append] at hnd
  unfold nextSubnode
  rw [h.nodeAt_path hc]
  show b.offsetOf (Tree.sibling _ (p ++ [n])) = _
  unfold Tree.sibling
  rw [List.dropLast_concat, hl, List.dropWhile_append_of_pos]
  · simp
  · intro d hd
    exact decide_eq_true (hnd.2.2 d hd _ (List.mem_cons_self ..))

/-- The path of the root is found. -/
theorem pathOffset_root (h : b.tree.Wf) :
    b.pathOffset ['/'] = b.tree.offset [] := by
  have hfind : b.tree.paths.find? (fun p => fullPath p = ['/'])
      = some [] := by
    cases hf : b.tree.paths.find? fun p => fullPath p = ['/'] with
    | none =>
        rw [List.find?_eq_none] at hf
        exact absurd (decide_eq_true rfl) (hf [] h.root)
    | some p =>
        have hp := List.mem_of_find?_eq_some hf
        have heq := List.find?_some hf
        have heq : fullPath p = fullPath [] := of_decide_eq_true heq
        rw [h.fullPath_injective hp h.root heq]
  unfold pathOffset
  rw [hfind]
  rfl

/-- Walking the properties of a node finds them all, in order. -/
theorem properties_eq (h : b.tree.Wf) (hp : p ∈ b.tree.paths) :
    (b.propertyOffsets (b.tree.offset p)).map b.property
      = b.tree.propsAt p := by
  unfold propertyOffsets
  rw [h.nodeAt_path hp]
  show List.map b.property (List.map _ (Tree.propsOf _ _)) = _
  rw [List.map_map]
  have hsnd : (b.tree.propsOf ⟨p, b.tree.propsAt p⟩).map Prod.snd
      = b.tree.propsAt p := Tree.propsFrom_snd _ _
  refine Eq.trans (List.map_congr_left fun e he => ?_) hsnd
  rw [Function.comp_apply, property,
    h.propAt_eq (Tree.mem_of_mem_paths hp) he]
  rfl

/-- `fdt_open_into` copies the tree if the buffer is large enough. -/
theorem openInto_ok {n : Nat} (hn : b.used ≤ n) :
    (b.openInto n).2.tree = b.tree ∧ (b.openInto n).2.total = n
      ∧ (b.openInto n).2.used = b.used := by
  unfold openInto
  rw [if_pos hn]
  exact ⟨rfl, rfl, rfl⟩

/-- Walking the subnodes of a node finds its children, in order. -/
theorem subnodes_eq (h : b.tree.Wf) (hp : p ∈ b.tree.paths) :
    b.subnodes (b.tree.offset p)
      = (b.tree.children p).map fun c => (b.tree.offset c : Int) := by
  unfold subnodes
  rw [h.nodeAt_path hp]

/-- The name of a node is the last part of its path. -/
theorem getName_eq (h : b.tree.Wf) {n : CStr}
    (hn : p ++ [n] ∈ b.tree.paths) :
    b.getName (b.tree.offset (p ++ [n])) = n := by
  unfold getName
  rw [h.nodeAt_path hn]
  simp

/-- `fdt_getprop` finds the first property of that name. -/
theorem getprop_eq (h : b.tree.Wf) (hp : p ∈ b.tree.paths) (name : CStr) :
    b.getprop (b.tree.offset p) name = getProp (b.tree.propsAt p) name := by
  unfold getprop
  rw [h.nodeAt_path hp]

/-- `fdt_get_path` writes the full path, if the buffer has room for it. -/
theorem getPath_eq (h : b.tree.Wf) (hp : p ∈ b.tree.paths) {buf : CStr}
    {n : Nat} (hlt : (fullPath p).length < n) :
    b.getPath (b.tree.offset p) buf n = fullPath p := by
  unfold getPath
  rw [h.nodeAt_path hp]
  exact if_pos hlt

/-- What callers rely on when a node is removed: offsets of the nodes above
stay. -/
theorem delNode_ok (h : b.tree.Wf) (hp : p ∈ b.tree.paths) :
    (b.delNode (b.tree.offset p)).1 = 0
      ∧ (b.delNode (b.tree.offset p)).2.tree = b.tree.remove p
      ∧ (b.delNode (b.tree.offset p)).2.total = b.total
      ∧ (b.delNode (b.tree.offset p)).2.used ≤ b.used
      ∧ ∀ q, q <+: p → q ≠ p →
          ((b.delNode (b.tree.offset p)).2.tree.offset q : Int)
            = b.tree.offset q := by
  rw [delNode_eq h hp]
  refine ⟨rfl, rfl, rfl, ?_, ?_⟩
  · have hle := structSize_remove b.tree p
    unfold used
    dsimp only
    omega
  · intro q hqp hne
    have hoff := h.offset_remove (h.mem_above hp hqp) hqp hne
    dsimp only
    rw [hoff]

/-- What callers rely on when a property is set, likewise. -/
theorem setpropString_ok (h : b.tree.Wf) (hp : p ∈ b.tree.paths)
    {name v : CStr} (hfits : b.used + setSize name v ≤ b.total) :
    (b.setpropString (b.tree.offset p) name v).1 = 0
      ∧ SetAt b.tree p name (strBytes v)
          (b.setpropString (b.tree.offset p) name v).2.tree
      ∧ (b.setpropString (b.tree.offset p) name v).2.total = b.total
      ∧ (b.setpropString (b.tree.offset p) name v).2.used
          ≤ b.used + setSize name v
      ∧ ∀ q, q <+: p →
          ((b.setpropString (b.tree.offset p) name v).2.tree.offset q : Int)
            = b.tree.offset q := by
  obtain ⟨strings, heq, hused⟩ := setpropString_eq h hp hfits
  rw [heq]
  refine ⟨rfl, ⟨Tree.paths_set, ?_, ?_⟩, rfl, hused, ?_⟩
  · intro q hq
    rw [Tree.propsAt_set hp, if_neg hq]
  · rw [Tree.propsAt_set hp, if_pos rfl]
    exact (propSet_setProperty name (strBytes v) _).1
  · intro q hqp
    have hoff : (b.tree.set p name (strBytes v)).offset q
        = b.tree.offset q := h.offset_set (h.mem_above hp hqp) hqp
    dsimp only
    rw [hoff]

end Blob

/-- What this libfdt does is documented. -/
theorem layout_documented : layout.Documented layoutReading where
  off_nonneg b p _ _ := Int.natCast_nonneg _
  off_inj b p q h hp hq heq := by
    have hnode := h.offset_injective (Tree.mem_of_mem_paths hp)
      (Tree.mem_of_mem_paths hq) (Int.ofNat.inj heq)
    exact congrArg Node.path hnode
  openInto_ok b n _ hn := Blob.openInto_ok hn
  checkFull_ok b _ := if_pos (Nat.le_refl _)
  pathOffset_root b h := Blob.pathOffset_root h
  subnodes_eq b p h hp := Blob.subnodes_eq h hp
  firstSubnode_none b p h hp hc := by
    have hfirst := Blob.firstSubnode_eq h hp
    have hnone : Blob.offsetOf b (List.head? (Tree.children b.tree p)) = -1 :=
      congrArg (fun l => Blob.offsetOf b (List.head? l)) hc
    exact lt_of_eq_of_lt (hfirst.trans hnone) (by decide)
  firstSubnode_some b p c l h hp hc := by
    have hfirst := Blob.firstSubnode_eq h hp
    exact hfirst.trans
      (congrArg (fun l => Blob.offsetOf b (List.head? l)) hc)
  nextSubnode_none b p l c h _ hl :=
    lt_of_eq_of_lt (Blob.nextSubnode_eq h hl) (show (-1 : Int) < 0 by decide)
  nextSubnode_some b p l c d l' h _ hl := Blob.nextSubnode_eq h hl
  getName_eq b p n h hn := Blob.getName_eq h hn
  propertyOffsets_eq b p h hp := Blob.properties_eq h hp
  getprop_eq b p name h hp := Blob.getprop_eq h hp name
  nodeOffsetByPhandle_eq b ph p _ _ hp := congrArg (Blob.offsetOf b) hp
  getPath_eq b p buf n h hp hlt := Blob.getPath_eq h hp hlt
  delNode_ok b p h hp _ := Blob.delNode_ok h hp
  setpropString_ok b p name v h hp hfits := Blob.setpropString_ok h hp hfits

/-- An offset at which no node begins has no node. -/
theorem Tree.nodeAt_none {t : Tree} {o : Int}
    (hnone : ∀ p ∈ t.paths, o ≠ t.offset p) : t.nodeAt o = none := by
  unfold nodeAt
  rw [List.find?_eq_none]
  intro x hx heq
  exact hnone x.path (List.mem_map_of_mem hx) (of_decide_eq_true heq).symm

theorem Blob.propertyOffsets_none {b : Blob} {o : Int}
    (hnone : ∀ p ∈ b.tree.paths, o ≠ b.tree.offset p) :
    b.propertyOffsets o = [] := by
  unfold propertyOffsets
  rw [Tree.nodeAt_none hnone]

theorem Blob.getprop_none {b : Blob} {o : Int} (name : CStr)
    (hnone : ∀ p ∈ b.tree.paths, o ≠ b.tree.offset p) :
    b.getprop o name = none := by
  unfold getprop
  rw [Tree.nodeAt_none hnone]

/-- A phandle leads to a node of the tree or to an error. -/
theorem Blob.offsetOf_byPhandle (b : Blob) (ph : UInt32) :
    (∃ p ∈ b.tree.paths,
        b.offsetOf (b.tree.byPhandle ph) = b.tree.offset p)
      ∨ b.offsetOf (b.tree.byPhandle ph) < 0 := by
  cases hph : b.tree.byPhandle ph with
  | none =>
      refine .inr ?_
      show (-1 : Int) < 0
      decide
  | some p =>
      obtain ⟨x, hx, rfl⟩ := Option.map_eq_some_iff.1 hph
      exact .inl ⟨x.path,
        List.mem_map_of_mem (List.mem_of_find?_eq_some hx), rfl⟩

/-- A buffer that is too small is an error. -/
theorem Blob.openInto_nospace {b : Blob} {n : Nat} (hn : n < b.used) :
    (b.openInto n).1 ≠ 0 := by
  unfold openInto
  rw [if_neg (Nat.not_le_of_lt hn)]
  show (-3 : Int) ≠ 0
  decide

/-- It refuses what the documentation says. -/
theorem layout_refuses : layout.Refuses layoutReading where
  propertyOffsets_none _ _ _ hnone := Blob.propertyOffsets_none hnone
  getprop_none _ _ name _ hnone := Blob.getprop_none name hnone
  nodeOffsetByPhandle_cases b ph _ := Blob.offsetOf_byPhandle b ph
  openInto_fits _ _ _ hn := congrArg Prod.fst (if_pos hn)
  openInto_nospace _ _ _ hn := Blob.openInto_nospace hn

end ProjectsLibs.Fdt
