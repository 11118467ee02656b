/-
The blob and the two tables of a context, as the proofs look at them.

`Walkable` is what a walk over the blob needs: its functions behave.
`Readable` says besides that the paths fit `string_buf`. `nodes_table` is
looked at by the path of a node: `InTable`. `dep_table` is looked at by a
pair of paths: `recorded`, the target is in the list of the source.

# What the later modules use

Of the blob they use two facts: two nodes have the same offset only if
they are the same (`off_eq_iff`), and to append the name of a child to a
buffer with the path of a node gives the path of the child
(`strcatChild_eq`). How deep the tree may be for a walk with a bound on
its calls is `DeepEnough`, one level less with each call.

Of the tables they use what adding and updating do to a lookup. The hash
tables of the code are lists here, and a lookup takes the first entry with
the key. This does not matter as long as no key is there twice (`Single`).
`HASH_ADD_STR` does not look for the key, so each caller has to know that
it is new.
-/
import ProjectsLibs.Fdtgen.Spec

namespace ProjectsLibs.Fdtgen

open Fdt

-- ============================================================= the blob

/-- The name of a child is appended if there is room for it. -/
theorem strcatChild_ite (buf name : CStr) :
    strcatChild buf name
      = if (buf ++ '/' :: name).length < maxFullPathLength then
          .ok (buf ++ '/' :: name)
        else .error .overflow := by
  have hassoc : buf ++ ['/'] ++ name = buf ++ '/' :: name := by simp
  unfold strcatChild strcat
  by_cases hfit : (buf ++ '/' :: name).length < maxFullPathLength
  · have hfit' : (buf ++ ['/']).length < maxFullPathLength := by
      rw [List.length_append, List.length_cons] at hfit
      rw [List.length_append, List.length_singleton]
      omega
    rw [if_pos hfit', if_pos hfit]
    show (if (buf ++ ['/'] ++ name).length < _ then _ else _) = _
    rw [hassoc, if_pos hfit]
  · rw [if_neg hfit]
    split
    · rename_i heq
      split at heq
      · cases heq
      · rw [heq]
    · rename_i buf' heq
      split at heq
      · cases heq
        rw [hassoc, if_neg hfit]
      · cases heq

/-- The path of a node fits `string_buf`. -/
def Short (p : Path) : Prop := (pathStr p).length < maxFullPathLength

/-- The root is short enough for the buffer. -/
theorem short_nil : Short [] := by
  unfold Short maxFullPathLength
  decide

section Blob

variable {L : Libfdt} (R : L.Reading) (b : L.Blob)

/-- What is assumed of a blob with a tree. -/
structure Walkable : Prop where
  doc : L.Documented R
  wf : (R.tree b).Wf

/-- What is assumed of a blob whose nodes are walked over. -/
structure Readable : Prop where
  doc : L.Documented R
  wf : (R.tree b).Wf
  path_lt : ∀ p ∈ (R.tree b).paths, (pathStr p).length < maxFullPathLength

variable {R b} {P : Path}

/-- A tree that can be read can be walked. -/
theorem Readable.walkable (hb : Readable R b) : Walkable R b :=
  ⟨hb.doc, hb.wf⟩

/-- The name of a child is appended if its path fits. -/
theorem Walkable.strcatChild_eq (hb : Walkable R b) {n : CStr}
    (hn : P ++ [n] ∈ (R.tree b).paths) (hshort : Short (P ++ [n])) :
    strcatChild (pathStr P) (L.getName b (R.off b (P ++ [n])))
      = .ok (pathStr (P ++ [n])) := by
  unfold Short at hshort
  rw [hb.doc.getName_eq b P n hb.wf hn, strcatChild_ite, ← pathStr_append,
    if_pos hshort]

/-- If it could be appended the path has fit. -/
theorem Walkable.short_of_strcatChild (hb : Walkable R b) {n s : CStr}
    (hn : P ++ [n] ∈ (R.tree b).paths)
    (hrun : strcatChild (pathStr P) (L.getName b (R.off b (P ++ [n])))
      = .ok s) : Short (P ++ [n]) := by
  rw [hb.doc.getName_eq b P n hb.wf hn, strcatChild_ite,
    ← pathStr_append] at hrun
  by_contra hlong
  unfold Short at hlong
  rw [if_neg hlong] at hrun
  cases hrun

theorem Walkable.off_eq_iff (hb : Walkable R b) {p q : Path}
    (hp : p ∈ (R.tree b).paths) (hq : q ∈ (R.tree b).paths) :
    R.off b p = R.off b q ↔ p = q := by
  constructor
  · intro heq
    exact hb.doc.off_inj b p q hb.wf hp hq heq
  · intro heq
    rw [heq]

theorem Readable.off_eq_iff (hb : Readable R b) {p q : Path}
    (hp : p ∈ (R.tree b).paths) (hq : q ∈ (R.tree b).paths) :
    R.off b p = R.off b q ↔ p = q :=
  hb.walkable.off_eq_iff hp hq

/-- The buffer holds the path of a child after its name is appended. -/
theorem Readable.strcatChild_eq (hb : Readable R b) {n : CStr}
    (hn : P ++ [n] ∈ (R.tree b).paths) :
    strcatChild (pathStr P) (L.getName b (R.off b (P ++ [n])))
      = .ok (pathStr (P ++ [n])) :=
  hb.walkable.strcatChild_eq hn (hb.path_lt _ hn)

/-- The closing null put back where it was. -/
theorem take_pathStr (P : Path) (n : CStr) :
    (pathStr (P ++ [n])).take (pathStr P).length = pathStr P := by
  rw [pathStr_append, List.take_left]

variable {lim : Nat}

/-- Nothing below `P` is deeper than `lim` calls can go. -/
def DeepEnough (R : L.Reading) (b : L.Blob) (P : Path) (lim : Nat) : Prop :=
  ∀ r ∈ (R.tree b).paths, P <+: r → r.length < P.length + lim

/-- There is fuel for one more level. -/
theorem DeepEnough.pos (hd : DeepEnough R b P lim)
    (hP : P ∈ (R.tree b).paths) : ∃ lim', lim = lim' + 1 := by
  have hlt := hd P hP List.prefix_rfl
  exact ⟨lim - 1, by omega⟩

/-- One level down there is fuel for one level less. -/
theorem DeepEnough.child (hd : DeepEnough R b P (lim + 1)) (n : CStr) :
    DeepEnough R b (P ++ [n]) lim := by
  intro r hr hpre
  have hlt := hd r hr ((List.prefix_append P [n]).trans hpre)
  rw [List.length_append, List.length_singleton]
  omega

end Blob

-- ========================================================== nodes_table

/-- The node at `p` has an entry. -/
def InTable (table : List PathNode) (p : Path) : Prop :=
  (findNode table (pathStr p)).isSome

/-- A key is found if an entry has it as its name. -/
theorem findNode_isSome {table : List PathNode} {key : CStr} :
    (findNode table key).isSome ↔ key ∈ table.map PathNode.name := by
  unfold findNode
  rw [List.find?_isSome, List.mem_map]
  simp only [decide_eq_true_eq]

/-- The entry that is found has the name looked for. -/
theorem findNode_name {table : List PathNode} {key : CStr} {e : PathNode}
    (h : findNode table key = some e) : e.name = key := by
  have hdec := List.find?_some h
  exact of_decide_eq_true hdec

theorem findNode_append (table table' : List PathNode) (key : CStr) :
    findNode (table ++ table') key
      = (findNode table key).or (findNode table' key) :=
  List.find?_append

/-- `HASH_ADD_STR`: a new entry is found, the others as before. -/
theorem findNode_add {table : List PathNode} {e : PathNode}
    (hnew : findNode table e.name = none) (key : CStr) :
    findNode (table ++ [e]) key
      = if key = e.name then some e else findNode table key := by
  rw [findNode_append]
  by_cases hkey : key = e.name
  · rw [if_pos hkey, hkey, hnew]
    simp [findNode]
  · have hnot : ¬e.name = key := fun heq => hkey heq.symm
    rw [if_neg hkey]
    simp [findNode, hnot]

/-- `HASH_ADD_STR` of a key that is not there makes no duplicate. -/
theorem nodup_add {table : List PathNode} {e : PathNode}
    (hnd : (table.map PathNode.name).Nodup)
    (hnew : findNode table e.name = none) :
    ((table ++ [e]).map PathNode.name).Nodup := by
  rw [List.map_append, List.nodup_append]
  refine ⟨hnd, by simp, ?_⟩
  intro x hx y hy hxy
  have hxe : x = e.name := hxy.trans (List.mem_singleton.1 hy)
  have hsome := findNode_isSome.2 hx
  rw [hxe, hnew] at hsome
  cases hsome

/-- At most one entry has the key. -/
def Single (table : List PathNode) (key : CStr) : Prop :=
  (table.map PathNode.name).count key ≤ 1

/-- Names that differ are the only ones of their kind. -/
theorem single_of_nodup {table : List PathNode}
    (hnd : (table.map PathNode.name).Nodup) (key : CStr) :
    Single table key :=
  List.nodup_iff_count_le_one.1 hnd key

/-- `HASH_ADD_STR` of a key that is not there leaves it so. -/
theorem Single.add {table : List PathNode} {e : PathNode} {key : CStr}
    (hs : Single table key) (hnew : findNode table e.name = none) :
    Single (table ++ [e]) key := by
  unfold Single at hs ⊢
  rw [List.map_append, List.count_append]
  by_cases hkey : e.name = key
  · have hzero : (table.map PathNode.name).count key = 0 := by
      rw [List.count_eq_zero, ← findNode_isSome, ← hkey, hnew]
      simp
    rw [hzero, Nat.zero_add]
    exact List.count_le_length
  · simpa [hkey] using hs

/-- The entry of a key that is there once is the one found. -/
theorem Single.findNode_eq {table : List PathNode} {e : PathNode}
    (he : e ∈ table) (hs : Single table e.name) :
    findNode table e.name = some e := by
  induction table with
  | nil => cases he
  | cons x table ih =>
      unfold Single at hs
      rw [List.map_cons, List.count_cons] at hs
      unfold findNode
      rw [List.find?_cons]
      by_cases hx : x.name = e.name
      · rw [decide_eq_true hx]
        cases he with
        | head => rfl
        | tail _ he =>
            have hpos := List.count_pos_iff.2 (List.mem_map_of_mem
              (f := PathNode.name) he)
            rw [if_pos (beq_iff_eq.2 hx)] at hs
            omega
      · rw [decide_eq_false hx]
        cases he with
        | head => exact absurd rfl hx
        | tail _ he =>
            refine ih he ?_
            unfold Single
            omega

/-- An update that keeps a name keeps all names. -/
theorem updateNode_names {table : List PathNode} {key : CStr}
    {f : PathNode → PathNode} (hf : ∀ e, (f e).name = e.name) :
    (updateNode table key f).map PathNode.name
      = table.map PathNode.name := by
  unfold updateNode
  rw [List.map_map]
  refine List.map_congr_left fun e _ => ?_
  rw [Function.comp_apply]
  split
  · exact hf e
  · rfl

/-- A store through a pointer leaves the other entries. -/
theorem mem_updateNode {table : List PathNode} {key : CStr}
    {f : PathNode → PathNode} (hf : ∀ e, (f e).name = e.name)
    {e : PathNode} (hne : e.name ≠ key) :
    e ∈ updateNode table key f ↔ e ∈ table := by
  unfold updateNode
  rw [List.mem_map]
  constructor
  · rintro ⟨x, hx, rfl⟩
    by_cases hkey : x.name = key
    · rw [if_pos hkey, hf] at hne
      exact absurd hkey hne
    · rwa [if_neg hkey]
  · intro he
    exact ⟨e, he, if_neg hne⟩

/-- A store through a pointer changes that entry and no other. -/
theorem findNode_updateNode {table : List PathNode} {key k : CStr}
    {f : PathNode → PathNode} (hf : ∀ e, (f e).name = e.name) :
    findNode (updateNode table key f) k
      = if k = key then (findNode table key).map f
        else findNode table k := by
  induction table with
  | nil => simp [findNode, updateNode]
  | cons e table ih =>
      unfold findNode updateNode at ih ⊢
      rw [List.map_cons, List.find?_cons, List.find?_cons,
        List.find?_cons, ih]
      by_cases he : e.name = key
      · by_cases hk : k = key
        · simp [he, hf, hk]
        · have hk' : ¬key = k := fun h => hk h.symm
          simp [he, hf, hk, hk']
      · by_cases hk : k = key
        · simp [he, hk]
        · simp [he, hk]

/-- What is in a table is in a longer one. -/
theorem InTable.append {table : List PathNode} {p : Path}
    (h : InTable table p) (table' : List PathNode) :
    InTable (table ++ table') p := by
  unfold InTable at h ⊢
  rw [findNode_append, Option.isSome_or, h, Bool.true_or]

-- ============================================================ dep_table

/-- The entry `key` lists `s`. -/
def listed (table : List Dependency) (key s : CStr) : Bool :=
  (findDep table key).any fun d => d.toList.any fun x => x.toPath = s

/-- The dependency of `p` on `q` is in the table. -/
def recorded (h : Context) (p q : Path) : Bool :=
  listed h.depTable (pathStr p) (fullPath q)

theorem findDep_append (table table' : List Dependency) (key : CStr) :
    findDep (table ++ table') key
      = (findDep table key).or (findDep table' key) :=
  List.find?_append

/-- A target is added to one entry, at its end. -/
theorem findDep_appendDep (table : List Dependency) (key k : CStr)
    (d : DListNode) :
    findDep (appendDep table key d) k
      = if k = key then
          (findDep table key).map fun e => { e with toList := e.toList ++ [d] }
        else findDep table k := by
  induction table with
  | nil => simp [findDep, appendDep]
  | cons e table ih =>
      unfold findDep appendDep at ih ⊢
      rw [List.map_cons, List.find?_cons, List.find?_cons,
        List.find?_cons, ih]
      by_cases he : e.fromPath = key
      · by_cases hk : k = key
        · simp [he, hk]
        · have hk' : ¬key = k := fun h => hk h.symm
          simp [he, hk, hk']
      · by_cases hk : k = key
        · simp [he, hk]
        · simp [he, hk]

/-- Appending to the list of an entry adds that pair. -/
theorem listed_appendDep {table : List Dependency} {key : CStr}
    (hkey : (findDep table key).isSome) (d : DListNode) (k s : CStr) :
    listed (appendDep table key d) k s
      = (listed table k s || decide (k = key ∧ s = d.toPath)) := by
  obtain ⟨e, he⟩ := Option.isSome_iff_exists.1 hkey
  unfold listed
  rw [findDep_appendDep]
  by_cases hk : k = key
  · subst hk
    rw [if_pos rfl, he]
    simp [List.any_append, eq_comm]
  · simp [hk]

/-- A new entry has an empty list. -/
theorem listed_newDep {table : List Dependency} {key : CStr}
    (k s : CStr) :
    listed (table ++ [⟨key, []⟩]) k s = listed table k s := by
  unfold listed
  rw [findDep_append]
  cases hf : findDep table k with
  | some d => rfl
  | none =>
      simp only [Option.none_or, Option.any_none]
      unfold findDep
      rw [List.find?_singleton]
      split
      · rfl
      · rfl

end ProjectsLibs.Fdtgen
