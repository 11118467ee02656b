/-
Device trees, as the libfdt documentation speaks of them.

A tree is the list of its nodes in the order of the structure block, each
with its full path and its properties. Siblings have different names, so
a path says which node is meant; the order of the list is the order of
siblings, and everything below a node follows it without a gap.

Strings are lists of characters, as C sees them: without the closing
null.

# Trees as lists

A tree is the list of its nodes in the order of the structure block, each
with its path and its properties. `Wf` says which lists are trees: the
root comes first, no path comes twice, every node has its parent, and the
nodes below a node stand together behind it. Removal is a filter, and
setting a property a map, so what they keep is a fact about sublists.
Paths are lists of names, and the strings that the code uses for them are
injective in trees whose names have no slash.

The last section has checks that can be evaluated: a list that passes
them is a tree, which is how samples are shown to be trees.
-/
import Mathlib.Data.List.Induction
import Mathlib.Data.List.Nodup
import Mathlib.Data.List.Perm.Subperm
import Mathlib.Tactic.Common

namespace ProjectsLibs.Fdt

/-- A C string. -/
abbrev CStr := List Char

instance : LawfulBEq CStr := inferInstance

/-- A node's name and those of its ancestors, from the root's child
down. -/
abbrev Path := List CStr

/-- A property. -/
structure Property where
  name : CStr
  value : List UInt8
  deriving DecidableEq

/-- A node: where it is and what it holds. -/
structure Node where
  path : Path
  props : List Property
  deriving DecidableEq

/-- The nodes in the order of the structure block. -/
abbrev Tree := List Node

namespace Tree

/-- The paths of the nodes. -/
def paths (t : Tree) : List Path := t.map Node.path

/-- The properties of the node at `p`. -/
def propsAt (t : Tree) (p : Path) : List Property :=
  ((t.find? fun x => x.path = p).map Node.props).getD []

/-- The children of `p`, in order. -/
def children (t : Tree) (p : Path) : List Path :=
  t.paths.filter fun q => q ≠ [] ∧ q.dropLast = p

/-- The tree without the node at `p` and everything below it. -/
def remove (t : Tree) (p : Path) : Tree := t.filter fun x => ¬p <+: x.path

/-- What makes a list of nodes a tree. -/
structure Wf (t : Tree) : Prop where
  root : [] ∈ t.paths
  parent : ∀ p n, p ++ [n] ∈ t.paths → p ∈ t.paths
  /-- names are not empty and have no `/` in them -/
  names : ∀ p ∈ t.paths, ∀ n ∈ p, n ≠ [] ∧ '/' ∉ n
  /-- ancestors come first, and no path comes twice -/
  ordered : t.paths.Pairwise fun x y => ¬y <+: x
  /-- what is below a node follows it without a gap -/
  contiguous : ∀ x y z, [x, y, z].Sublist t.paths → x <+: z → x <+: y

end Tree

-- ======================================================== path strings

/-- The path with a `/` before each name; empty for the root. -/
def pathStr (p : Path) : CStr := p.flatMap fun n => '/' :: n

/-- The path as `fdt_get_path` prints it. -/
def fullPath (p : Path) : CStr := if p = [] then ['/'] else pathStr p

/-- One more part is written behind a slash. -/
theorem pathStr_append (p : Path) (n : CStr) :
    pathStr (p ++ [n]) = pathStr p ++ '/' :: n := by
  simp [pathStr]

theorem fullPath_of_ne {p : Path} (hp : p ≠ []) : fullPath p = pathStr p :=
  if_neg hp

/-- Each part of a path takes at least its slash. -/
theorem length_le_pathStr (p : Path) : p.length ≤ (pathStr p).length := by
  induction p with
  | nil => exact Nat.le_refl _
  | cons n p ih =>
      have hcons : pathStr (n :: p) = '/' :: n ++ pathStr p := rfl
      rw [hcons, List.length_append, List.length_cons, List.length_cons]
      omega

/-- What follows a name in a path string starts with a `/`. -/
theorem takeWhile_name {n : CStr} (hn : '/' ∉ n) (p : Path) :
    (n ++ pathStr p).takeWhile (· ≠ '/') = n := by
  have hall : ∀ c ∈ n, decide (c ≠ '/') = true := by
    intro c hc
    refine decide_eq_true fun h => ?_
    exact hn (h ▸ hc)
  rw [List.takeWhile_append_of_pos hall]
  cases p with
  | nil => simp [pathStr]
  | cons m p => simp [pathStr]

/-- Different paths are printed differently. -/
theorem pathStr_injective {p q : Path} (hp : ∀ n ∈ p, '/' ∉ n)
    (hq : ∀ n ∈ q, '/' ∉ n) (h : pathStr p = pathStr q) : p = q := by
  induction p generalizing q with
  | nil =>
      cases q with
      | nil => rfl
      | cons m q => simp [pathStr] at h
  | cons n p ih =>
      cases q with
      | nil => simp [pathStr] at h
      | cons m q =>
          have htail : n ++ pathStr p = m ++ pathStr q := by
            simpa [pathStr] using h
          have hn := takeWhile_name (hp n (List.mem_cons_self ..)) p
          have hm := takeWhile_name (hq m (List.mem_cons_self ..)) q
          have hnm : n = m := by rw [← hn, ← hm, htail]
          subst hnm
          have hrest := List.append_cancel_left htail
          rw [ih (fun k hk => hp k (List.mem_cons_of_mem _ hk))
            (fun k hk => hq k (List.mem_cons_of_mem _ hk)) hrest]

-- =============================================================== paths

/-- The way down from a proper prefix. -/
theorem exists_child_above {P q : Path} (hPq : P <+: q) (hne : P ≠ q) :
    ∃ n, P ++ [n] <+: q := by
  obtain ⟨tail, rfl⟩ := hPq
  cases tail with
  | nil => exact absurd (List.append_nil P).symm hne
  | cons n tail =>
      refine ⟨n, tail, ?_⟩
      rw [List.append_assoc, List.singleton_append]

/-- What is on the way below `P` is at or below the child on the way. -/
theorem child_above_of_above {P q : Path} {n : CStr} {m : Path}
    (hnq : P ++ [n] <+: q) (hPm : P <+: m) (hne : m ≠ P) (hmq : m <+: q) :
    P ++ [n] <+: m := by
  apply List.prefix_of_prefix_length_le hnq hmq
  have hlen : P.length ≠ m.length := by
    intro heq
    exact hne (hPm.eq_of_length heq).symm
  have hle := hPm.length_le
  rw [List.length_append, List.length_singleton]
  omega

-- ========================================================== tree facts

namespace Tree

variable {t : Tree}

theorem length_paths (t : Tree) : t.paths.length = t.length :=
  List.length_map _

/-- The children of a node are no more than the nodes. -/
theorem children_length_le (t : Tree) (P : Path) :
    (t.children P).length ≤ t.length :=
  Nat.le_trans (List.length_filter_le _ _) (Nat.le_of_eq (length_paths t))

/-- No two nodes have the same path. -/
theorem Wf.nodup (h : t.Wf) : t.paths.Nodup := by
  refine h.ordered.imp ?_
  intro x y hxy heq
  exact hxy (heq ▸ List.prefix_rfl)

/-- In a tree path strings tell the nodes apart. -/
theorem Wf.pathStr_injective (h : t.Wf) {p q : Path} (hp : p ∈ t.paths)
    (hq : q ∈ t.paths) (heq : pathStr p = pathStr q) : p = q :=
  Fdt.pathStr_injective (fun n hn => (h.names p hp n hn).2)
    (fun n hn => (h.names q hq n hn).2) heq

/-- No path string is that of `fdt_get_path` for the root. -/
theorem Wf.pathStr_ne (h : t.Wf) {p : Path} (hp : p ∈ t.paths) :
    pathStr p ≠ ['/'] := by
  intro hroot
  cases p with
  | nil => cases hroot
  | cons n p =>
      have hn := (h.names _ hp n (List.mem_cons_self ..)).1
      simp [pathStr, hn] at hroot

/-- So does `fdt_get_path`. -/
theorem Wf.fullPath_injective (h : t.Wf) {p q : Path} (hp : p ∈ t.paths)
    (hq : q ∈ t.paths) (heq : fullPath p = fullPath q) : p = q := by
  unfold fullPath at heq
  by_cases hp0 : p = []
  · by_cases hq0 : q = []
    · rw [hp0, hq0]
    · rw [if_pos hp0, if_neg hq0] at heq
      exact absurd heq.symm (h.pathStr_ne hq)
  · by_cases hq0 : q = []
    · rw [if_neg hp0, if_pos hq0] at heq
      exact absurd heq (h.pathStr_ne hp)
    · rw [if_neg hp0, if_neg hq0] at heq
      exact h.pathStr_injective hp hq heq

/-- Ancestors of a node are nodes. -/
theorem Wf.mem_above (h : t.Wf) {p q : Path} (hq : q ∈ t.paths)
    (hp : p <+: q) : p ∈ t.paths := by
  obtain ⟨r, rfl⟩ := hp
  induction r using List.reverseRecOn with
  | nil => simpa using hq
  | append_singleton r n ih =>
      refine ih (h.parent (p ++ r) n ?_)
      rwa [List.append_assoc]

/-- The children of a node have one more part in their path. -/
theorem mem_children {p q : Path} :
    q ∈ t.children p ↔ q ∈ t.paths ∧ ∃ n, q = p ++ [n] := by
  unfold children
  rw [List.mem_filter]
  refine and_congr_right fun _ => ?_
  rw [decide_eq_true_eq]
  constructor
  · intro h
    obtain ⟨hne, rfl⟩ := h
    exact ⟨q.getLast hne, (List.dropLast_append_getLast hne).symm⟩
  · intro h
    obtain ⟨n, rfl⟩ := h
    exact ⟨by simp, by simp⟩

theorem Wf.children_nodup (h : t.Wf) (p : Path) : (t.children p).Nodup :=
  h.nodup.filter _

/-- What is below `P` is at or below one of its children. -/
theorem below_iff_children (hw : t.Wf) {P m : Path}
    (hm : m ∈ t.paths) :
    (∃ c ∈ t.children P, c <+: m) ↔ P <+: m ∧ m ≠ P := by
  constructor
  · intro hex
    obtain ⟨c, hc, hcm⟩ := hex
    obtain ⟨-, n, rfl⟩ := mem_children.1 hc
    refine ⟨(List.prefix_append P [n]).trans hcm, ?_⟩
    intro heq
    have hle := hcm.length_le
    rw [heq, List.length_append, List.length_singleton] at hle
    omega
  · intro hbelow
    obtain ⟨n, hn⟩ := exists_child_above hbelow.1 (Ne.symm hbelow.2)
    exact ⟨_, mem_children.2 ⟨hw.mem_above hm hn, n, rfl⟩, hn⟩

/-- The subtrees of a node's children have nothing in common. -/
theorem Wf.children_disjoint (h : t.Wf) {P c : Path} {l₁ l₂ : List Path}
    (hl : t.children P = l₁ ++ c :: l₂) (m : Path)
    (hm : ∃ d ∈ l₁, d <+: m) : ¬c <+: m := by
  intro hcm
  obtain ⟨d, hd, hdm⟩ := hm
  have hdc : d ∈ t.children P := by
    rw [hl]
    exact List.mem_append_left _ hd
  have hcc : c ∈ t.children P := by
    rw [hl]
    exact List.mem_append_right _ (List.mem_cons_self ..)
  obtain ⟨-, n, rfl⟩ := mem_children.1 hdc
  obtain ⟨-, k, rfl⟩ := mem_children.1 hcc
  have heq : P ++ [n] = P ++ [k] := by
    apply (List.prefix_of_prefix_length_le hdm hcm ?_).eq_of_length
    · simp
    · simp
  have hnd := h.children_nodup P
  rw [hl, List.nodup_append] at hnd
  exact hnd.2.2 _ hd _ (List.mem_cons_self ..) heq

/-- The node at `p` has the properties `propsAt` says. -/
theorem mem_of_mem_paths {p : Path} (hp : p ∈ t.paths) :
    ⟨p, t.propsAt p⟩ ∈ t := by
  obtain ⟨x, hx, rfl⟩ := List.mem_map.1 hp
  cases hf : t.find? (fun y => y.path = x.path) with
  | none =>
      rw [List.find?_eq_none] at hf
      exact absurd (decide_eq_true rfl) (hf x hx)
  | some y =>
      have hy := List.find?_some hf
      have hmem := List.mem_of_find?_eq_some hf
      have hpath : y.path = x.path := of_decide_eq_true hy
      unfold propsAt
      rw [hf, ← hpath]
      exact hmem

/-- Where no path comes twice a path determines the properties. -/
theorem propsAt_of_nodup (hnd : t.paths.Nodup) {x : Node} (hx : x ∈ t) :
    t.propsAt x.path = x.props := by
  have hmem := mem_of_mem_paths (List.mem_map_of_mem hx)
  have heq := List.inj_on_of_nodup_map hnd hmem hx rfl
  exact congrArg Node.props heq

/-- The properties at a path are those of its node. -/
theorem Wf.propsAt_eq (h : t.Wf) {x : Node} (hx : x ∈ t) :
    t.propsAt x.path = x.props :=
  propsAt_of_nodup h.nodup hx

/-- A tree is its paths and the properties at each. -/
theorem eq_of_paths {t' : Tree} (hnd : t.paths.Nodup)
    (hpaths : t'.paths = t.paths)
    (hprops : ∀ p ∈ t.paths, t'.propsAt p = t.propsAt p) : t' = t := by
  have hview : ∀ t : Tree, t.paths.Nodup →
      t = t.paths.map fun p => ⟨p, t.propsAt p⟩ := by
    intro t hnd
    unfold paths
    rw [List.map_map]
    conv => lhs; rw [← List.map_id t]
    refine List.map_congr_left fun x hx => ?_
    show x = ⟨x.path, t.propsAt x.path⟩
    rw [propsAt_of_nodup hnd hx]
  rw [hview t hnd, hview t' (hpaths ▸ hnd), hpaths]
  refine List.map_congr_left fun p hp => ?_
  rw [hprops p hp]

-- ============================================================== removal

theorem paths_remove (t : Tree) (p : Path) :
    (t.remove p).paths = t.paths.filter fun q => ¬p <+: q := by
  unfold remove paths
  rw [List.filter_map]
  rfl

/-- Removing a node removes those below it, too. -/
theorem mem_paths_remove {p q : Path} :
    q ∈ (t.remove p).paths ↔ q ∈ t.paths ∧ ¬p <+: q := by
  rw [paths_remove, List.mem_filter, decide_eq_true_eq]

/-- A tree stays one without a node that is not the root. -/
theorem Wf.remove (h : t.Wf) {p : Path} (hp : p ≠ []) :
    (t.remove p).Wf := by
  have hsub : (t.remove p).paths.Sublist t.paths := by
    rw [paths_remove]
    exact List.filter_sublist
  refine ⟨?_, ?_, ?_, h.ordered.sublist hsub, ?_⟩
  · rw [mem_paths_remove]
    exact ⟨h.root, fun hpre => hp (List.prefix_nil.1 hpre)⟩
  · intro q n hq
    rw [mem_paths_remove] at hq ⊢
    refine ⟨h.parent q n hq.1, ?_⟩
    intro hpre
    exact hq.2 (hpre.trans (List.prefix_append q [n]))
  · intro q hq
    exact h.names q (hsub.subset hq)
  · intro x y z hxyz
    exact h.contiguous x y z (hxyz.trans hsub)

/-- The nodes that stay keep their properties. -/
theorem Wf.propsAt_remove (h : t.Wf) {p q : Path}
    (hq : q ∈ (t.remove p).paths) :
    (t.remove p).propsAt q = t.propsAt q := by
  have hmem := mem_of_mem_paths hq
  have hold : ⟨q, (t.remove p).propsAt q⟩ ∈ t :=
    List.mem_of_mem_filter hmem
  exact (h.propsAt_eq hold).symm

/-- Being a tree is about the paths. -/
theorem Wf.of_paths {t' : Tree} (h : t.Wf) (heq : t'.paths = t.paths) :
    t'.Wf := by
  refine ⟨?_, ?_, ?_, ?_, ?_⟩
  · rw [heq]
    exact h.root
  · rw [heq]
    exact h.parent
  · rw [heq]
    exact h.names
  · rw [heq]
    exact h.ordered
  · rw [heq]
    exact h.contiguous

/-- The children of a node are the same in a part of the tree that has
all of them. -/
theorem Wf.children_eq {t' : Tree} (h : t.Wf)
    (hsub : t'.paths.Sublist t.paths) {P : Path}
    (hall : ∀ c ∈ t.children P, c ∈ t'.paths) :
    t'.children P = t.children P := by
  have hsub' : (t'.children P).Sublist (t.children P) := hsub.filter _
  apply hsub'.eq_of_length_le
  apply (List.subperm_of_subset (h.children_nodup P) ?_).length_le
  intro c hc
  obtain ⟨-, hn⟩ := mem_children.1 hc
  exact mem_children.2 ⟨hall c hc, hn⟩

-- =============================================================== checks

/-- Whether everything at or below the first path of a list follows it
without a gap, and so on for the rest. -/
def gapless : List Path → Bool
  | [] => true
  | x :: l =>
      (l.dropWhile fun y => x <+: y).all (fun y => ¬x <+: y) && gapless l

/-- Up to the last that is below `x`, all are. -/
theorem prefix_of_sublist {x y z : Path} {l : List Path}
    (hl : (l.dropWhile fun w => x <+: w).all (fun w => ¬x <+: w))
    (hyz : [y, z].Sublist l) (hz : x <+: z) : x <+: y := by
  induction l with
  | nil => cases hyz
  | cons w l ih =>
      by_cases hw : x <+: w
      · rw [List.dropWhile_cons_of_pos (by simpa using hw)] at hl
        cases hyz with
        | cons _ hyz => exact ih hl hyz
        | cons_cons _ _ => exact hw
      · rw [List.dropWhile_cons_of_neg (by simpa using hw)] at hl
        have hmem : z ∈ w :: l := hyz.subset (by simp)
        have hnot := List.all_eq_true.1 hl z hmem
        exact absurd hz (of_decide_eq_true hnot)

/-- The nodes below a node stand together if each one stands behind its
parent. -/
theorem contiguous_of_gapless {l : List Path} (hl : gapless l)
    (x y z : Path) (hxyz : [x, y, z].Sublist l) (hz : x <+: z) :
    x <+: y := by
  induction l with
  | nil => cases hxyz
  | cons w l ih =>
      rw [gapless, Bool.and_eq_true] at hl
      cases hxyz with
      | cons _ hxyz => exact ih hl.2 hxyz
      | cons_cons _ hyz => exact prefix_of_sublist hl.1 hyz hz

/-- A list of nodes that passes the checks is a tree. -/
theorem Wf.of_checks (hroot : [] ∈ t.paths)
    (hparent : ∀ p ∈ t.paths, p.dropLast ∈ t.paths)
    (hnames : ∀ p ∈ t.paths, ∀ n ∈ p, n ≠ [] ∧ '/' ∉ n)
    (hordered : t.paths.Pairwise fun x y => ¬y <+: x)
    (hgapless : gapless t.paths) : t.Wf := by
  refine ⟨hroot, ?_, hnames, hordered, contiguous_of_gapless hgapless⟩
  intro p n hp
  have hdrop := hparent _ hp
  rwa [List.dropLast_concat] at hdrop

end Tree

end ProjectsLibs.Fdt
