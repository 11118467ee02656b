/-
`trim_tree`: the tree cut down to the entries of `nodes_table`.

# Shape of the argument

A node is open when it has no entry, or when its status is still to be
set. The walk starts a level over each time it has removed a node or set
a status, and each time one open node less is left (`todo`). Between two
such changes it goes down the tree and along the children of a node, so
that the three of them together, number of open nodes, depth, children to
go, say that it stops. The nodes it has left behind on a level are not
open (`Passed`); at its end that is so for everything below.

`Trimmed P` says what a walk below `P` may have changed. It is
transitive, so a walk that starts over is the change and the walk
afterwards.

The walk looks up nothing but nodes of the tree. On two tables that
`Agree` on these it does the same to the blob (`Follows`).
-/
import ProjectsLibs.Lib.Loop
import ProjectsLibs.Fdtgen.Proofs.Tables

namespace ProjectsLibs.Fdtgen

open Fdt Lib

-- ============================================================= counters

/-- The status of the node at `p` is still to be set. -/
def due (table : List PathNode) (p : Path) : Bool :=
  (findNode table (pathStr p)).any fun e =>
    decide (e.flag = .keepAndDisable ∧ e.cnt = 0)

/-- The node at `p` is still to be removed, or its status to be set. -/
def isOpen (table : List PathNode) (p : Path) : Bool :=
  !(findNode table (pathStr p)).isSome || due table p

/-- The number of open nodes. -/
def todo (t : Tree) (table : List PathNode) : Nat :=
  t.paths.countP (isOpen table)

/-- An entry without its counter. -/
def PathNode.uncounted (e : PathNode) : PathNode := { e with cnt := 0 }

/-- The tables differ in the counters, and these have only grown. -/
structure Counted (table table' : List PathNode) : Prop where
  rows : table'.map PathNode.uncounted = table.map PathNode.uncounted
  none : ∀ key, findNode table key = none → findNode table' key = none
  some : ∀ key e, findNode table key = some e →
    ∃ cnt, e.cnt ≤ cnt ∧ findNode table' key = some { e with cnt := cnt }

section Counters

variable {table table' table'' : List PathNode} {p : Path}

theorem Counted.refl (table : List PathNode) : Counted table table :=
  ⟨rfl, fun _ h => h, fun _ e h => ⟨e.cnt, Nat.le_refl _, h⟩⟩

theorem Counted.trans (hc : Counted table table')
    (hc' : Counted table' table'') : Counted table table'' := by
  refine ⟨hc'.rows.trans hc.rows,
    fun key h => hc'.none key (hc.none key h), ?_⟩
  intro key e he
  obtain ⟨cnt, hle, he'⟩ := hc.some key e he
  obtain ⟨cnt', hle', he''⟩ := hc'.some key _ he'
  exact ⟨cnt', Nat.le_trans hle hle', he''⟩

/-- `this->cnt++`. -/
theorem Counted.increment (table : List PathNode) (key : CStr) :
    Counted table
      (updateNode table key fun e => { e with cnt := e.cnt + 1 }) := by
  have hname : ∀ e : PathNode, { e with cnt := e.cnt + 1 }.name = e.name :=
    fun _ => rfl
  refine ⟨?_, ?_, ?_⟩
  · unfold updateNode
    rw [List.map_map]
    refine List.map_congr_left fun e _ => ?_
    rw [Function.comp_apply]
    split <;> rfl
  · intro k hk
    rw [findNode_updateNode hname]
    split
    · rename_i heq
      rw [← heq, hk]
      rfl
    · exact hk
  · intro k e he
    rw [findNode_updateNode hname]
    split
    · rename_i heq
      rw [← heq, he]
      exact ⟨e.cnt + 1, Nat.le_succ _, rfl⟩
    · exact ⟨e.cnt, Nat.le_refl _, he⟩

theorem Counted.isSome (hc : Counted table table') (key : CStr) :
    (findNode table' key).isSome = (findNode table key).isSome := by
  cases hf : findNode table key with
  | none => rw [hc.none key hf]
  | some e =>
      obtain ⟨cnt, -, he⟩ := hc.some key e hf
      rw [he]
      rfl

theorem Counted.inTable_iff (hc : Counted table table') :
    InTable table' p ↔ InTable table p := by
  unfold InTable
  rw [hc.isSome]

/-- What is due was due before. -/
theorem Counted.due (hc : Counted table table') (hd : due table' p) :
    due table p := by
  unfold Fdtgen.due at hd ⊢
  cases hf : findNode table (pathStr p) with
  | none =>
      rw [hc.none _ hf] at hd
      cases hd
  | some e =>
      obtain ⟨cnt, hle, he⟩ := hc.some _ e hf
      rw [he] at hd
      have hd := of_decide_eq_true hd
      have hzero : cnt = 0 := hd.2
      exact decide_eq_true ⟨hd.1, by omega⟩

/-- A node is no more open than it was. -/
theorem Counted.isOpen (hc : Counted table table')
    (ho : isOpen table' p) : isOpen table p := by
  unfold Fdtgen.isOpen at ho ⊢
  rw [Bool.or_eq_true] at ho ⊢
  rw [hc.isSome] at ho
  exact ho.imp_right hc.due

theorem inTable_of_not_open (ho : ¬isOpen table p) : InTable table p := by
  unfold isOpen at ho
  unfold InTable
  rw [Bool.or_eq_true, not_or, Bool.not_eq_true', Bool.not_eq_false] at ho
  exact ho.1

theorem not_due_of_not_open (ho : ¬isOpen table p) :
    due table p = false := by
  unfold isOpen at ho
  rw [Bool.or_eq_true, not_or] at ho
  simpa using ho.2

/-- The tables say the same of the nodes of a tree, the root aside. -/
structure Agree (t : Tree) (table table' : List PathNode) : Prop where
  inTable : ∀ p ∈ t.paths, p ≠ [] →
    (InTable table' p ↔ InTable table p)
  due : ∀ p ∈ t.paths, p ≠ [] → due table' p = due table p

/-- Two tables that agree on a tree agree on a part of it. -/
theorem Agree.sublist {t t' : Tree} (ha : Agree t table table')
    (hsub : t'.paths.Sublist t.paths) : Agree t' table table' :=
  ⟨fun p hp => ha.inTable p (hsub.subset hp),
    fun p hp => ha.due p (hsub.subset hp)⟩

end Counters

-- ============================================================== visits

/-- A walk below `P` comes to the node at `x`: what is in between has
entries. -/
def Reached (table : List PathNode) (P x : Path) : Prop :=
  P <+: x ∧ x ≠ P
    ∧ ∀ m, P <+: m → m ≠ P → m <+: x → m ≠ x → InTable table m

/-- The paths that a walk below `P` writes to `string_buf` fit. -/
def ShortBelow (t : Tree) (table : List PathNode) (P : Path) : Prop :=
  ∀ x ∈ t.paths, Reached table P x → Short x

section Visits

variable {t : Tree} {table table' : List PathNode} {P x : Path} {n : CStr}

/-- A child is come to. -/
theorem reached_child (table : List PathNode) (P : Path) (n : CStr) :
    Reached table P (P ++ [n]) := by
  refine ⟨List.prefix_append P [n], by simp, ?_⟩
  intro m hPm hne hmx hmn
  rcases List.prefix_concat_iff.1 hmx with heq | hmP
  · exact absurd heq hmn
  · exact absurd (hmP.eq_of_length_le hPm.length_le) hne

/-- What a walk below a child with an entry comes to. -/
theorem Reached.child (hin : InTable table (P ++ [n]))
    (hr : Reached table (P ++ [n]) x) : Reached table P x := by
  obtain ⟨hpre, hne, hbetween⟩ := hr
  have hPx := (List.prefix_append P [n]).trans hpre
  refine ⟨hPx, ?_, ?_⟩
  · intro heq
    have hle := hpre.length_le
    rw [heq, List.length_append, List.length_singleton] at hle
    omega
  · intro m hPm hmP hmx hmne
    by_cases hmn : m = P ++ [n]
    · exact hmn ▸ hin
    · exact hbetween m (child_above_of_above hpre hPm hmP hmx) hmn hmx hmne

/-- Which nodes the walk reaches does not depend on the counts. -/
theorem Counted.reached_iff (hc : Counted table table') :
    Reached table' P x ↔ Reached table P x := by
  unfold Reached
  simp only [hc.inTable_iff]

/-- All paths are short in a tree that can be read. -/
theorem Readable.shortBelow {L : Libfdt} {R : L.Reading} {b : L.Blob}
    (hb : Readable R b) (table : List PathNode) (P : Path) :
    ShortBelow (R.tree b) table P :=
  fun x hx _ => hb.path_lt x hx

/-- Below a child of the node, too. -/
theorem ShortBelow.child (hs : ShortBelow t table P)
    (hin : InTable table (P ++ [n])) : ShortBelow t table (P ++ [n]) :=
  fun x hx hr => hs x hx (hr.child hin)

/-- In what is left of the tree, too. -/
theorem ShortBelow.after {t' : Tree} (hs : ShortBelow t table P)
    (hsub : t'.paths.Sublist t.paths) (hc : Counted table table') :
    ShortBelow t' table' P :=
  fun x hx hr => hs x (hsub.subset hx) (hc.reached_iff.1 hr)

end Visits

-- ============================================================== changes

section Changes

variable {L : Libfdt} (R : L.Reading)

/-- The space that setting a status takes. -/
def statusSize : Nat :=
  R.propSize "status".toList "disabled".toList

/-- The number of nodes whose status is still to be set. -/
def dues (t : Tree) (table : List PathNode) : Nat :=
  t.paths.countP fun p => decide (p ≠ []) && due table p

/-- There is room for every status that is still to be set. -/
def Room (h : Context) (b : L.Blob) : Prop :=
  R.size b + dues (R.tree b) h.nodesTable * statusSize R ≤ R.cap b

/-- Fewer statuses need no more room. -/
theorem Room.of_due {R : L.Reading} {h h' : Context} {b : L.Blob}
    (hroom : Room R h b)
    (hdue : ∀ p ∈ (R.tree b).paths, p ≠ [] → due h'.nodesTable p →
      due h.nodesTable p) : Room R h' b := by
  have hle : dues (R.tree b) h'.nodesTable
      ≤ dues (R.tree b) h.nodesTable := by
    refine List.countP_mono_left fun p hp hd => ?_
    simp only [Bool.and_eq_true, decide_eq_true_eq] at hd ⊢
    exact ⟨hd.1, hdue p hp hd.1 hd.2⟩
  unfold Room at hroom ⊢
  have hmul := Nat.mul_le_mul_right (statusSize R) hle
  omega

/-- What a walk below `P` may have done. -/
structure Trimmed (P : Path) (h : Context) (b : L.Blob) (h' : Context)
    (b' : L.Blob) : Prop where
  context : h' = { h with nodesTable := h'.nodesTable }
  table : Counted h.nodesTable h'.nodesTable
  sublist : (R.tree b').paths.Sublist (R.tree b).paths
  gone : ∀ x ∈ (R.tree b).paths, x ∉ (R.tree b').paths →
    ∃ m, P <+: m ∧ m ≠ P ∧ m <+: x ∧ ¬InTable h.nodesTable m
  same : ∀ x ∈ (R.tree b').paths,
    due h'.nodesTable x = due h.nodesTable x →
    (R.tree b').propsAt x = (R.tree b).propsAt x
  status : ∀ x ∈ (R.tree b').paths, due h.nodesTable x →
    ¬due h'.nodesTable x →
    PropSet "status".toList (strBytes "disabled".toList)
      ((R.tree b).propsAt x) ((R.tree b').propsAt x)
  /-- the root is not visited -/
  top : due h'.nodesTable [] = due h.nodesTable []
  cap : R.cap b' = R.cap b
  off : ∀ q, q <+: P → R.off b' q = R.off b q

variable {R} {P : Path} {h h' h'' : Context} {b b' b'' : L.Blob}

theorem Trimmed.refl (h : Context) (b : L.Blob) :
    Trimmed R P h b h b := by
  refine ⟨rfl, Counted.refl _, List.Sublist.refl _, ?_, ?_, ?_, rfl, rfl,
    ?_⟩
  · intro x hx hnx
    exact absurd hx hnx
  · intro x _ _
    rfl
  · intro x _ hd hnd
    exact absurd hd hnd
  · intro q _
    rfl

theorem Trimmed.trans (ht : Trimmed R P h b h' b')
    (ht' : Trimmed R P h' b' h'' b'') : Trimmed R P h b h'' b'' := by
  refine ⟨?_, ht.table.trans ht'.table, ht'.sublist.trans ht.sublist,
    ?_, ?_, ?_, ht'.top.trans ht.top, ht'.cap.trans ht.cap, ?_⟩
  · rw [ht'.context, ht.context]
  · intro x hx hnx
    by_cases hx' : x ∈ (R.tree b').paths
    · obtain ⟨m, hPm, hne, hmx, hout⟩ := ht'.gone x hx' hnx
      rw [ht.table.inTable_iff] at hout
      exact ⟨m, hPm, hne, hmx, hout⟩
    · exact ht.gone x hx hx'
  · intro x hx hdue
    have hx' := ht'.sublist.subset hx
    -- due before and after is due in between
    have hmid : due h'.nodesTable x = due h.nodesTable x := by
      rw [Bool.eq_iff_iff]
      refine ⟨ht.table.due, ?_⟩
      intro hd
      exact ht'.table.due (hdue ▸ hd)
    rw [ht'.same x hx (hdue.trans hmid.symm), ht.same x hx' hmid]
  · intro x hx hd hnd
    have hx' := ht'.sublist.subset hx
    by_cases hd' : due h'.nodesTable x
    · rw [← ht.same x hx' (hd'.trans hd.symm)]
      exact ht'.status x hx hd' hnd
    · have heq : due h''.nodesTable x = due h'.nodesTable x := by
        rw [Bool.not_eq_true] at hnd hd'
        rw [hnd, hd']
      rw [ht'.same x hx heq]
      exact ht.status x hx' hd hd'
  · intro q hq
    rw [ht'.off q hq, ht.off q hq]

/-- A walk below a child is one below its parent. -/
theorem Trimmed.up {n : CStr} (ht : Trimmed R (P ++ [n]) h b h' b') :
    Trimmed R P h b h' b' := by
  refine ⟨ht.context, ht.table, ht.sublist, ?_, ht.same, ht.status, ht.top,
    ht.cap, ?_⟩
  · intro x hx hnx
    obtain ⟨m, hPm, -, hmx, hout⟩ := ht.gone x hx hnx
    refine ⟨m, (List.prefix_append P [n]).trans hPm, ?_, hmx, hout⟩
    intro heq
    have hle := hPm.length_le
    rw [heq, List.length_append, List.length_singleton] at hle
    omega
  · intro q hq
    exact ht.off q (hq.trans (List.prefix_append P [n]))

/-- There is never more to do than before. -/
theorem Trimmed.todo_le (ht : Trimmed R P h b h' b') :
    todo (R.tree b') h'.nodesTable ≤ todo (R.tree b) h.nodesTable := by
  calc todo (R.tree b') h'.nodesTable
      ≤ (R.tree b).paths.countP (isOpen h'.nodesTable) :=
        ht.sublist.countP_le
    _ ≤ todo (R.tree b) h.nodesTable :=
        List.countP_mono_left fun x _ ho => ht.table.isOpen ho

/-- The children of `P` after a walk below one of them. -/
theorem Trimmed.children_eq {n : CStr} (hw : (R.tree b).Wf)
    (ht : Trimmed R (P ++ [n]) h b h' b') :
    (R.tree b').children P = (R.tree b).children P := by
  apply hw.children_eq ht.sublist
  intro c hc
  obtain ⟨hmem, k, rfl⟩ := Tree.mem_children.1 hc
  by_contra hgone
  obtain ⟨m, hPm, hne, hmc, -⟩ := ht.gone _ hmem hgone
  have hle := hmc.length_le
  refine hne (hPm.eq_of_length_le ?_).symm
  rw [List.length_append, List.length_singleton] at hle ⊢
  exact hle

/-- The node below which is walked stays. -/
theorem Trimmed.mem_self (ht : Trimmed R P h b h' b')
    (hP : P ∈ (R.tree b).paths) : P ∈ (R.tree b').paths := by
  by_contra hgone
  obtain ⟨m, hPm, hne, hmP, -⟩ := ht.gone P hP hgone
  exact hne (hmP.eq_of_length_le hPm.length_le)

/-- Only the table of the context matters. -/
theorem Trimmed.rebase {h₀ : Context} (ht : Trimmed R P h₀ b h' b')
    (heq : h₀.nodesTable = h.nodesTable) :
    Trimmed R P h b { h with nodesTable := h'.nodesTable } b' := by
  refine ⟨rfl, heq ▸ ht.table, ht.sublist, heq ▸ ht.gone, heq ▸ ht.same,
    heq ▸ ht.status, heq ▸ ht.top, ht.cap, ht.off⟩

theorem Trimmed.length_le (ht : Trimmed R P h b h' b') :
    (R.tree b').length ≤ (R.tree b).length := by
  have hle := ht.sublist.length_le
  rwa [Tree.length_paths, Tree.length_paths] at hle

/-- The blob can still be walked over. -/
theorem Walkable.after (hb : Walkable R b) (hw : (R.tree b').Wf) :
    Walkable R b' :=
  ⟨hb.doc, hw⟩

theorem Trimmed.deepEnough (ht : Trimmed R P h b h' b') {Q : Path}
    {lim : Nat} (hd : DeepEnough R b Q lim) : DeepEnough R b' Q lim :=
  fun r hr => hd r (ht.sublist.subset hr)

end Changes

-- ============================================================ the steps

section Steps

variable {L : Libfdt} {R : L.Reading} {P c : Path} {h : Context}
  {b : L.Blob}

/-- A node without an entry is removed. -/
theorem Walkable.remove (hb : Walkable R b) {n : CStr}
    (hc : P ++ [n] ∈ (R.tree b).paths)
    (hout : findNode h.nodesTable (pathStr (P ++ [n])) = none)
    (hroom : Room R h b) :
    ∃ b', L.delNode b (R.off b (P ++ [n])) = (0, b')
      ∧ Trimmed R P h b h b' ∧ Walkable R b' ∧ Room R h b'
      ∧ todo (R.tree b') h.nodesTable < todo (R.tree b) h.nodesTable
      ∧ R.tree b' = (R.tree b).remove (P ++ [n]) := by
  have hne : P ++ [n] ≠ [] := by simp
  obtain ⟨herr, htree, hcap, hsize, hoff⟩ :=
    hb.doc.delNode_ok b _ hb.wf hc hne
  generalize hdel : L.delNode b (R.off b (P ++ [n])) = del at *
  obtain ⟨err, b'⟩ := del
  subst herr
  have hopen : isOpen h.nodesTable (P ++ [n]) := by
    unfold isOpen
    rw [hout]
    rfl
  -- the child was open, so there is one node less to be done
  have hlt : todo (R.tree b') h.nodesTable
      < todo (R.tree b) h.nodesTable := by
    unfold todo
    rw [htree, Tree.paths_remove, List.countP_filter]
    apply countP_lt_countP (a := P ++ [n]) ?_ hc hopen
    · simp
    · intro x _ hx
      exact (Bool.and_eq_true_iff.1 hx).1
  have ht : Trimmed R P h b h b' := by
    refine ⟨rfl, Counted.refl _, ?_, ?_, ?_, ?_, rfl, hcap, ?_⟩
    · rw [htree, Tree.paths_remove]
      exact List.filter_sublist
    · intro x hx hnx
      refine ⟨P ++ [n], List.prefix_append P [n], by simp, ?_, ?_⟩
      · rw [htree, Tree.mem_paths_remove] at hnx
        by_contra hpre
        exact hnx ⟨hx, hpre⟩
      · unfold InTable
        rw [hout]
        simp
    · intro x hx _
      rw [htree] at hx ⊢
      exact hb.wf.propsAt_remove hx
    · intro x _ hd hnd
      exact absurd hd hnd
    · intro q hq
      apply hoff q (hq.trans (List.prefix_append P [n]))
      intro heq
      have hle := hq.length_le
      rw [heq, List.length_append, List.length_singleton] at hle
      omega
  refine ⟨b', rfl, ht, hb.after ?_, ?_, hlt, htree⟩
  · rw [htree]
    exact hb.wf.remove hne
  · have hle : dues (R.tree b') h.nodesTable
        ≤ dues (R.tree b) h.nodesTable := ht.sublist.countP_le
    unfold Room at hroom ⊢
    have hmul := Nat.mul_le_mul_right (statusSize R) hle
    rw [hcap]
    show R.size b' + _ ≤ _
    have hsize : R.size b' ≤ R.size b := hsize
    omega

/-- The context after `this->cnt++` for the node at `c`. -/
def visit (h : Context) (c : Path) : Context :=
  { h with
    nodesTable := updateNode h.nodesTable (pathStr c)
      fun e => { e with cnt := e.cnt + 1 } }

/-- A visit is counted in one entry. -/
theorem counted_visit (h : Context) (c : Path) :
    Counted h.nodesTable (visit h c).nodesTable :=
  Counted.increment h.nodesTable (pathStr c)

/-- The counter of a node that has been visited is not zero. -/
theorem due_visit (h : Context) (c x : Path) :
    due (visit h c).nodesTable x
      = if pathStr x = pathStr c then false else due h.nodesTable x := by
  unfold due visit
  rw [findNode_updateNode (by intro e; rfl)]
  split
  · cases findNode h.nodesTable (pathStr c) with
    | none => rfl
    | some e => simp
  · rfl

/-- What is due after a visit was due before. -/
theorem due_of_visit {x : Path} (hd : due (visit h c).nodesTable x) :
    due h.nodesTable x := by
  rw [due_visit] at hd
  split at hd
  · cases hd
  · exact hd

/-- The same node is visited. -/
theorem Agree.visit {t : Tree} {g : Context}
    (ha : Agree t h.nodesTable g.nodesTable) (c : Path) :
    Agree t (visit h c).nodesTable (visit g c).nodesTable := by
  refine ⟨?_, ?_⟩
  · intro p hp hne
    rw [(counted_visit h c).inTable_iff, (counted_visit g c).inTable_iff]
    exact ha.inTable p hp hne
  · intro p hp hne
    rw [due_visit, due_visit, ha.due p hp hne]

/-- A visit of a node that is not due changes nothing. -/
theorem Trimmed.visit (hdue : due h.nodesTable c = false) :
    Trimmed R P h b (visit h c) b := by
  have hsame : ∀ x, due (Fdtgen.visit h c).nodesTable x
      = due h.nodesTable x := by
    intro x
    rw [due_visit]
    split
    · rename_i heq
      unfold due at hdue ⊢
      rw [heq, hdue]
    · rfl
  refine ⟨rfl, counted_visit h c, List.Sublist.refl _, ?_, ?_, ?_,
    hsame [], rfl, ?_⟩
  · intro x hx hnx
    exact absurd hx hnx
  · intro x _ _
    rfl
  · intro x _ hd hnd
    rw [hsame] at hnd
    exact absurd hd hnd
  · intro q _
    rfl

/-- The status of a node that is due is set. -/
theorem Walkable.setStatus (hb : Walkable R b)
    (hc : c ∈ (R.tree b).paths) (hne : c ≠ []) (hPc : P <+: c)
    (hdue : due h.nodesTable c) (hroom : Room R h b) :
    ∃ b', L.setpropString b (R.off b c) "status".toList
        "disabled".toList = (0, b')
      ∧ Trimmed R P h b (visit h c) b' ∧ Walkable R b'
      ∧ Room R (visit h c) b'
      ∧ todo (R.tree b') (visit h c).nodesTable
        < todo (R.tree b) h.nodesTable
      ∧ (R.tree b').paths = (R.tree b).paths := by
  have hopen : isOpen h.nodesTable c := by
    unfold isOpen
    rw [hdue, Bool.or_true]
  -- the visit is counted, so the child is not disabled again
  have hdone : ¬isOpen (visit h c).nodesTable c := by
    unfold isOpen
    rw [(counted_visit h c).isSome, due_visit, if_pos rfl, Bool.or_false]
    unfold due at hdue
    cases hf : findNode h.nodesTable (pathStr c) with
    | none =>
        rw [hf] at hdue
        cases hdue
    | some e => simp
  have hlt : (R.tree b).paths.countP (isOpen (visit h c).nodesTable)
      < todo (R.tree b) h.nodesTable :=
    countP_lt_countP (fun x _ ho => (counted_visit h c).isOpen ho) hc hopen
      hdone
  have hdues : (R.tree b).paths.countP (fun p => decide (p ≠ [])
        && due (visit h c).nodesTable p) < dues (R.tree b) h.nodesTable := by
    refine countP_lt_countP (fun x _ hx => ?_) hc (by simp [hne, hdue]) ?_
    · rw [Bool.and_eq_true] at hx ⊢
      exact ⟨hx.1, due_of_visit hx.2⟩
    · rw [due_visit, if_pos rfl]
      simp
  -- room was left for the status of each node that is due
  have hspace : R.size b + statusSize R ≤ R.cap b := by
    unfold Room at hroom
    have hmul := Nat.mul_le_mul_right (statusSize R)
      (Nat.succ_le_of_lt (Nat.zero_lt_of_lt hdues))
    omega
  obtain ⟨herr, hset, hcap, hsize, hoff⟩ :=
    hb.doc.setpropString_ok b c _ _ hb.wf hc hspace
  generalize hres : L.setpropString b (R.off b c) "status".toList
    "disabled".toList = res at *
  obtain ⟨err, b'⟩ := res
  subst herr
  have htop : due (visit h c).nodesTable [] = due h.nodesTable [] := by
    rw [due_visit, if_neg]
    intro heq
    exact hne (hb.wf.pathStr_injective hb.wf.root hc heq).symm
  have ht : Trimmed R P h b (visit h c) b' := by
    refine ⟨rfl, counted_visit h c, ?_, ?_, ?_, ?_, htop, hcap, ?_⟩
    · rw [hset.paths]
    · intro x hx hnx
      rw [hset.paths] at hnx
      exact absurd hx hnx
    · intro x _ heq
      apply hset.other
      intro hxc
      rw [due_visit, hxc, if_pos rfl, hdue] at heq
      cases heq
    · intro x hx hd hnd
      rw [due_visit] at hnd
      split at hnd
      · rename_i heq
        rw [hset.paths] at hx
        rw [hb.wf.pathStr_injective hx hc heq]
        exact hset.here
      · exact absurd hd hnd
    · intro q hq
      exact hoff q (hq.trans hPc)
  have hlt' : todo (R.tree b') (visit h c).nodesTable
      < todo (R.tree b) h.nodesTable := by
    unfold todo
    rw [hset.paths]
    exact hlt
  refine ⟨b', rfl, ht, hb.after (hb.wf.of_paths hset.paths), ?_, hlt',
    hset.paths⟩
  have hdues' : dues (R.tree b') (visit h c).nodesTable
      < dues (R.tree b) h.nodesTable := by
    unfold dues
    rw [hset.paths]
    exact hdues
  unfold Room at hroom ⊢
  have hmul := Nat.mul_le_mul_right (statusSize R)
    (Nat.succ_le_of_lt hdues')
  rw [Nat.succ_mul] at hmul
  have hcap : R.cap b' = R.cap b := hcap
  have hsize : R.size b' ≤ R.size b + statusSize R := hsize
  omega

end Steps

-- ============================================================= the walk

section Walk

variable {L : Libfdt} (R : L.Reading)

/-- Where a walk over the children of `P` stands: it has left `passed`
behind and comes to the first of `rest`. -/
structure Cursor (b : L.Blob) (P : Path) (passed rest : List Path)
    (child : Int) : Prop where
  split : (R.tree b).children P = passed ++ rest
  atEnd : rest = [] → child < 0
  atChild : ∀ c cs, rest = c :: cs → child = R.off b c

/-- Nothing is open at or below the nodes of a list. -/
def Passed (b : L.Blob) (table : List PathNode) (l : List Path) : Prop :=
  ∀ x ∈ (R.tree b).paths, (∃ d ∈ l, d <+: x) → ¬isOpen table x

/-- Any context that agrees with `h` is walked over in the same way. -/
def Follows (P : Path) (h : Context) (b : L.Blob) (child : Int) (n : Nat)
    (h' : Context) (b' : L.Blob) : Prop :=
  ∀ g : Context, g.stringBuf = pathStr P →
    Agree (R.tree b) h.nodesTable g.nodesTable →
    ∃ table, (∀ fuel, n ≤ fuel → trimFrom L fuel g b (R.off b P) child
        = .ok ({ g with nodesTable := table }, b'))
      ∧ Agree (R.tree b') h'.nodesTable table

/-- A walk over the children of `P` from `child` on stops after at most
`n` steps, and what is below `P` is trimmed then. -/
def Trims (P : Path) (h : Context) (b : L.Blob) (child : Int) (n : Nat) :
    Prop :=
  ∃ h' b', (∀ fuel, n ≤ fuel →
      trimFrom L fuel h b (R.off b P) child = .ok (h', b'))
    ∧ Trimmed R P h b h' b' ∧ Walkable R b' ∧ Room R h' b'
    ∧ (∀ x ∈ (R.tree b').paths, P <+: x → x ≠ P →
        ¬isOpen h'.nodesTable x)
    ∧ Follows R P h b child n h' b'

/-- Any context that agrees with `h` takes the same step. -/
def StepFollows (P : Path) (h : Context) (b : L.Blob) (child : Int)
    (m : Nat) (h₁ : Context) (b₁ : L.Blob) (child₁ : Int) : Prop :=
  ∀ g : Context, g.stringBuf = pathStr P →
    Agree (R.tree b) h.nodesTable g.nodesTable →
    ∃ table, (∀ fuel, m ≤ fuel + 1 →
        trimFrom L (fuel + 1) g b (R.off b P) child
          = trimFrom L fuel { g with nodesTable := table } b₁ (R.off b₁ P)
              child₁)
      ∧ Agree (R.tree b₁) h₁.nodesTable table

/-- The steps of a walk with `todo` open nodes, over `rest` children of a
node below which the tree is `deep` levels deep; the whole tree has at
most `nodes` nodes and `depth` levels. -/
def walkBound (nodes depth todo deep rest : Nat) : Nat :=
  todo * (depth * (nodes + 1) + nodes + 2) + deep * (nodes + 1) + rest + 1

variable {R} {P : Path} {h : Context} {b : L.Blob} {child : Int}
  {passed rest : List Path} {nodes depth k d : Nat}

/-- A level is started over with less to do. -/
theorem walkBound_restart {k' d' r r' : Nat} (hk : k' < k)
    (hd : d' ≤ depth) (hr : r' ≤ nodes) :
    walkBound nodes depth k' d' r' + 1 ≤ walkBound nodes depth k d r := by
  unfold walkBound
  have hmul := Nat.mul_le_mul_right (depth * (nodes + 1) + nodes + 2)
    (Nat.succ_le_of_lt hk)
  have hdeep := Nat.mul_le_mul_right (nodes + 1) hd
  rw [Nat.succ_mul] at hmul
  omega

/-- The walk below a child is one level less deep. -/
theorem walkBound_child {r r' : Nat} (hr : r' ≤ nodes) :
    walkBound nodes depth k d r' + 1
      ≤ walkBound nodes depth k (d + 1) (r + 1) := by
  unfold walkBound
  rw [Nat.succ_mul d]
  omega

/-- The walk begins at the first child. -/
theorem Walkable.cursor_first (hb : Walkable R b)
    (hP : P ∈ (R.tree b).paths) :
    Cursor R b P [] ((R.tree b).children P)
      (L.firstSubnode b (R.off b P)) := by
  refine ⟨rfl, ?_, ?_⟩
  · intro hnil
    exact hb.doc.firstSubnode_none b P hb.wf hP hnil
  · intro c cs hcons
    exact hb.doc.firstSubnode_some b P c cs hb.wf hP hcons

theorem Walkable.cursor_next (hb : Walkable R b)
    (hP : P ∈ (R.tree b).paths) {c : Path}
    (hsplit : (R.tree b).children P = passed ++ c :: rest) :
    Cursor R b P (passed ++ [c]) rest (L.nextSubnode b (R.off b c)) := by
  refine ⟨by rw [hsplit, List.append_assoc, List.singleton_append], ?_, ?_⟩
  · intro hnil
    subst hnil
    exact hb.doc.nextSubnode_none b P passed c hb.wf hP hsplit
  · intro d ds hcons
    subst hcons
    exact hb.doc.nextSubnode_some b P passed c d ds hb.wf hP hsplit

/-- A step that changes the tree or the table, and the walk after it. -/
theorem Trims.step {h₁ : Context} {b₁ : L.Blob} {child₁ : Int}
    {n m : Nat} (hw : Trims R P h₁ b₁ child₁ n)
    (ht : Trimmed R P h b h₁ b₁) (hnm : n + 1 ≤ m)
    (hrun : ∀ fuel, m ≤ fuel + 1 →
      trimFrom L (fuel + 1) h b (R.off b P) child
        = trimFrom L fuel h₁ b₁ (R.off b₁ P) child₁)
    (hfollow : StepFollows R P h b child m h₁ b₁ child₁) :
    Trims R P h b child m := by
  obtain ⟨h', b', hfuel, ht', hb', hroom', hopen, hfollow'⟩ := hw
  refine ⟨h', b', ?_, ht.trans ht', hb', hroom', hopen, ?_⟩
  · intro fuel hm
    cases fuel with
    | zero => omega
    | succ fuel =>
        rw [hrun fuel hm]
        exact hfuel fuel (by omega)
  · intro g hbuf hagree
    obtain ⟨table₁, hstep, hagree₁⟩ := hfollow g hbuf hagree
    obtain ⟨table', hrest, hagree'⟩ := hfollow'
      { g with nodesTable := table₁ } hbuf hagree₁
    refine ⟨table', ?_, hagree'⟩
    intro fuel hm
    cases fuel with
    | zero => omega
    | succ fuel =>
        rw [hstep fuel hm]
        exact hrest fuel (by omega)

/-- The walk has come to its end. -/
theorem Walkable.trims_end (hb : Walkable R b) (hroom : Room R h b)
    (hcur : Cursor R b P passed [] child)
    (hpass : Passed R b h.nodesTable passed) {n : Nat} (hn : 0 < n) :
    Trims R P h b child n := by
  have hrun : ∀ g fuel, n ≤ fuel →
      trimFrom L fuel g b (R.off b P) child = .ok (g, b) := by
    intro g fuel hfuel
    cases fuel with
    | zero => omega
    | succ fuel => rw [trimFrom, if_pos (hcur.atEnd rfl)]
  refine ⟨h, b, hrun h, Trimmed.refl h b, hb, hroom, ?_, ?_⟩
  · intro x hx hPx hne
    apply hpass x hx
    obtain ⟨c, hc, hcx⟩ :=
      (Tree.below_iff_children hb.wf hx).2 ⟨hPx, hne⟩
    rw [hcur.split, List.append_nil] at hc
    exact ⟨c, hc, hcx⟩
  · intro g _ hagree
    exact ⟨g.nodesTable, hrun g, hagree⟩

-- ------------------------------------------------ one child of the walk

variable {n : CStr} {b₁ : L.Blob}

/-- A child without an entry: it is removed and the level started
over. -/
theorem Walkable.trimFrom_remove (hb : Walkable R b)
    (hc : P ++ [n] ∈ (R.tree b).paths) (hshort : Short (P ++ [n]))
    (hbuf : h.stringBuf = pathStr P)
    (hout : findNode h.nodesTable (pathStr (P ++ [n])) = none)
    (hdel : L.delNode b (R.off b (P ++ [n])) = (0, b₁))
    (hoff : R.off b₁ P = R.off b P) (fuel : Nat) :
    trimFrom L (fuel + 1) h b (R.off b P) (R.off b (P ++ [n]))
      = trimFrom L fuel h b₁ (R.off b₁ P)
          (L.firstSubnode b₁ (R.off b₁ P)) := by
  have hnonneg := hb.doc.off_nonneg b _ hb.wf hc
  have hback : { h with stringBuf := pathStr P } = h := by rw [← hbuf]
  rw [trimFrom, if_neg (by omega), hbuf, hb.strcatChild_eq hc hshort, ok_bind]
  simp only [hout, hdel, take_pathStr, hback, hoff]
  rfl

/-- A child whose status is to be set: it is set and the level started
over. -/
theorem Walkable.trimFrom_status (hb : Walkable R b)
    (hc : P ++ [n] ∈ (R.tree b).paths) (hshort : Short (P ++ [n]))
    (hbuf : h.stringBuf = pathStr P) {e : PathNode}
    (hin : findNode h.nodesTable (pathStr (P ++ [n])) = some e)
    (hdue : due h.nodesTable (P ++ [n]))
    (hset : L.setpropString b (R.off b (P ++ [n])) "status".toList
      "disabled".toList = (0, b₁))
    (hoff : R.off b₁ P = R.off b P) (fuel : Nat) :
    trimFrom L (fuel + 1) h b (R.off b P) (R.off b (P ++ [n]))
      = trimFrom L fuel (visit h (P ++ [n])) b₁ (R.off b₁ P)
          (L.firstSubnode b₁ (R.off b₁ P)) := by
  have hnonneg := hb.doc.off_nonneg b _ hb.wf hc
  unfold due at hdue
  rw [hin] at hdue
  have hflag := of_decide_eq_true hdue
  rw [trimFrom, if_neg (by omega), hbuf, hb.strcatChild_eq hc hshort, ok_bind]
  simp only [hin]
  rw [if_pos ⟨hflag.1, by rw [hflag.2]⟩]
  simp only [hset, take_pathStr, hoff, visit, hbuf]
  rfl

/-- A node without an entry has none in a table that agrees. -/
theorem Agree.findNode_none {t : Tree} {g : Context} {c : Path}
    (ha : Agree t h.nodesTable g.nodesTable) (hc : c ∈ t.paths)
    (hne : c ≠ []) (hout : findNode h.nodesTable (pathStr c) = none) :
    findNode g.nodesTable (pathStr c) = none := by
  rw [← Option.isNone_iff_eq_none, ← Option.not_isSome,
    Bool.not_eq_true', ← Bool.not_eq_true]
  intro hin
  have hold := (ha.inTable c hc hne).1 hin
  unfold InTable at hold
  rw [hout] at hold
  cases hold

/-- A second table without the child removes it as well. -/
theorem Walkable.stepFollows_remove (hb : Walkable R b)
    (hc : P ++ [n] ∈ (R.tree b).paths) (hshort : Short (P ++ [n]))
    (hout : findNode h.nodesTable (pathStr (P ++ [n])) = none)
    (hdel : L.delNode b (R.off b (P ++ [n])) = (0, b₁))
    (ht : Trimmed R P h b h b₁) (m : Nat) :
    StepFollows R P h b (R.off b (P ++ [n])) m h b₁
      (L.firstSubnode b₁ (R.off b₁ P)) := by
  intro g hbuf hagree
  refine ⟨g.nodesTable, ?_, hagree.sublist ht.sublist⟩
  intro fuel _
  exact hb.trimFrom_remove hc hshort hbuf
    (hagree.findNode_none hc (by simp) hout) hdel
    (ht.off P List.prefix_rfl) fuel

/-- A second table with the child due disables it as well. -/
theorem Walkable.stepFollows_status (hb : Walkable R b)
    (hc : P ++ [n] ∈ (R.tree b).paths) (hshort : Short (P ++ [n]))
    (hin : InTable h.nodesTable (P ++ [n]))
    (hdue : due h.nodesTable (P ++ [n]))
    (hset : L.setpropString b (R.off b (P ++ [n])) "status".toList
      "disabled".toList = (0, b₁))
    (ht : Trimmed R P h b (visit h (P ++ [n])) b₁) (m : Nat) :
    StepFollows R P h b (R.off b (P ++ [n])) m (visit h (P ++ [n])) b₁
      (L.firstSubnode b₁ (R.off b₁ P)) := by
  intro g hbuf hagree
  have hin' := (hagree.inTable _ hc (by simp)).2 hin
  obtain ⟨e, he⟩ := Option.isSome_iff_exists.1 hin'
  refine ⟨(visit g (P ++ [n])).nodesTable, ?_,
    (hagree.visit (P ++ [n])).sublist ht.sublist⟩
  intro fuel _
  exact hb.trimFrom_status hc hshort hbuf he
    ((hagree.due _ hc (by simp)).trans hdue) hset
    (ht.off P List.prefix_rfl) fuel

/-- Any other child: the walk goes below it, and on to the next. -/
theorem Walkable.trimFrom_enter (hb : Walkable R b)
    (hc : P ++ [n] ∈ (R.tree b).paths) (hshort : Short (P ++ [n]))
    (hbuf : h.stringBuf = pathStr P)
    (hin : InTable h.nodesTable (P ++ [n]))
    (hdue : due h.nodesTable (P ++ [n]) = false) (fuel : Nat) :
    trimFrom L (fuel + 1) h b (R.off b P) (R.off b (P ++ [n]))
      = (do
          let (h₁, b₁) ← trimFrom L fuel
            { visit h (P ++ [n]) with stringBuf := pathStr (P ++ [n]) } b
            (R.off b (P ++ [n])) (L.firstSubnode b (R.off b (P ++ [n])))
          trimFrom L fuel
            { h₁ with
              stringBuf := h₁.stringBuf.take (pathStr P).length } b₁
            (R.off b P) (L.nextSubnode b₁ (R.off b (P ++ [n])))) := by
  have hnonneg := hb.doc.off_nonneg b _ hb.wf hc
  obtain ⟨e, he⟩ := Option.isSome_iff_exists.1 hin
  unfold due at hdue
  rw [he] at hdue
  have hflag := of_decide_eq_false hdue
  rw [trimFrom, if_neg (by omega), hbuf, hb.strcatChild_eq hc hshort,
    ok_bind]
  simp only [he]
  rw [if_neg (by intro hand; exact hflag ⟨hand.1, by omega⟩)]
  rfl

/-- Entering a child: first what is below it, then the children behind it. -/
theorem Walkable.trimFrom_descend (hb : Walkable R b)
    (hc : P ++ [n] ∈ (R.tree b).paths) (hshort : Short (P ++ [n]))
    (hbuf : h.stringBuf = pathStr P)
    (hin : InTable h.nodesTable (P ++ [n]))
    (hdue : due h.nodesTable (P ++ [n]) = false) {fuel : Nat}
    {table₁ : List PathNode}
    (hrun : trimFrom L fuel
        { visit h (P ++ [n]) with stringBuf := pathStr (P ++ [n]) } b
        (R.off b (P ++ [n])) (L.firstSubnode b (R.off b (P ++ [n])))
      = .ok ({ h with
          nodesTable := table₁, stringBuf := pathStr (P ++ [n]) }, b₁)) :
    trimFrom L (fuel + 1) h b (R.off b P) (R.off b (P ++ [n]))
      = trimFrom L fuel { h with nodesTable := table₁ } b₁ (R.off b P)
          (L.nextSubnode b₁ (R.off b (P ++ [n]))) := by
  have hback : { h with nodesTable := table₁, stringBuf := pathStr P }
      = { h with nodesTable := table₁ } := by rw [← hbuf]
  rw [hb.trimFrom_enter hc hshort hbuf hin hdue, hrun, ok_bind]
  simp only [take_pathStr, hback]

theorem Passed.nil (b : L.Blob) (table : List PathNode) :
    Passed R b table [] := by
  intro x _ hex
  obtain ⟨d, hd, -⟩ := hex
  cases hd

/-- The children left behind, with one more. -/
theorem Passed.concat {c : Path} {h' : Context}
    (hpass : Passed R b h.nodesTable passed)
    (ht : Trimmed R P h b h' b₁) (hc : ¬isOpen h.nodesTable c)
    (hopen : ∀ x ∈ (R.tree b₁).paths, c <+: x → x ≠ c →
      ¬isOpen h'.nodesTable x) :
    Passed R b₁ h'.nodesTable (passed ++ [c]) := by
  intro x hx hex
  obtain ⟨d, hd, hdx⟩ := hex
  cases List.mem_append.1 hd with
  | inl hd =>
      intro ho
      exact hpass x (ht.sublist.subset hx) ⟨d, hd, hdx⟩
        (ht.table.isOpen ho)
  | inr hd =>
      rw [List.mem_singleton.1 hd] at hdx
      by_cases hxc : x = c
      · subst hxc
        intro ho
        exact hc (ht.table.isOpen ho)
      · exact hopen x hx hdx hxc

/-- A child that is kept and not to be disabled is settled. -/
theorem not_open_of {table : List PathNode} {p : Path}
    (hin : InTable table p) (hdue : due table p = false) :
    ¬isOpen table p := by
  unfold isOpen
  unfold InTable at hin
  rw [hin, hdue]
  simp

/-- A walk below a child, and the walk over the children after it. -/
theorem Walkable.trims_descend (hb : Walkable R b)
    (hP : P ∈ (R.tree b).paths) (hc : P ++ [n] ∈ (R.tree b).paths)
    (hshort : Short (P ++ [n])) (hbuf : h.stringBuf = pathStr P)
    (hin : InTable h.nodesTable (P ++ [n]))
    (hdue : due h.nodesTable (P ++ [n]) = false)
    (hsplit : (R.tree b).children P = passed ++ (P ++ [n]) :: rest)
    (hpass : Passed R b h.nodesTable passed) {n₁ n₂ m : Nat}
    (hm₁ : n₁ + 1 ≤ m) (hm₂ : n₂ + 1 ≤ m)
    (hwalk : Trims R (P ++ [n])
      { visit h (P ++ [n]) with stringBuf := pathStr (P ++ [n]) } b
      (L.firstSubnode b (R.off b (P ++ [n]))) n₁)
    (hnext : ∀ h₁ b₁, Trimmed R P h b h₁ b₁ → Walkable R b₁ →
      Room R h₁ b₁ → h₁.stringBuf = pathStr P →
      Cursor R b₁ P (passed ++ [P ++ [n]]) rest
        (L.nextSubnode b₁ (R.off b₁ (P ++ [n]))) →
      Passed R b₁ h₁.nodesTable (passed ++ [P ++ [n]]) →
      Trims R P h₁ b₁ (L.nextSubnode b₁ (R.off b₁ (P ++ [n]))) n₂) :
    Trims R P h b (R.off b (P ++ [n])) m := by
  obtain ⟨h₁, b₁, hfuel₁, ht₁, hb₁, hroom₁, hopen₁,
      hfollow₁⟩ := hwalk
  have hvisit : Trimmed R (P ++ [n]) h b (visit h (P ++ [n])) b :=
    Trimmed.visit hdue
  have ht₁' : Trimmed R (P ++ [n]) h b
      { h with nodesTable := h₁.nodesTable } b₁ :=
    hvisit.trans (ht₁.rebase (h := visit h (P ++ [n])) rfl)
  have ht := ht₁'.up
  have hcur : Cursor R b₁ P (passed ++ [P ++ [n]]) rest
      (L.nextSubnode b₁ (R.off b₁ (P ++ [n]))) := by
    apply hb₁.cursor_next (ht.mem_self hP)
    rw [ht₁'.children_eq hb.wf, hsplit]
  have hpass₁ := hpass.concat ht (not_open_of hin hdue) hopen₁
  refine (hnext _ b₁ ht hb₁ hroom₁ hbuf hcur hpass₁).step ht hm₂ ?_ ?_
  · intro fuel hfuel
    rw [ht.off P List.prefix_rfl, ht₁'.off _ List.prefix_rfl]
    apply hb.trimFrom_descend hc hshort hbuf hin hdue
    rw [hfuel₁ fuel (by omega), ht₁.context]
    rfl
  · intro g hgbuf hagree
    obtain ⟨table, hrun, hagree₁⟩ := hfollow₁
      { visit g (P ++ [n]) with stringBuf := pathStr (P ++ [n]) } rfl
      (hagree.visit (P ++ [n]))
    refine ⟨table, ?_, hagree₁⟩
    intro fuel hfuel
    rw [ht.off P List.prefix_rfl, ht₁'.off _ List.prefix_rfl]
    apply hb.trimFrom_descend hc hshort hgbuf
      ((hagree.inTable _ hc (by simp)).2 hin)
      ((hagree.due _ hc (by simp)).trans hdue)
    exact hrun fuel (by omega)

/-- The walk over the children of a node, from any of them on. -/
theorem Walkable.trims (hb : Walkable R b) (hP : P ∈ (R.tree b).paths)
    (hk : todo (R.tree b) h.nodesTable ≤ k)
    (hd : DeepEnough R b P d) (hdepth : d ≤ depth)
    (hnodes : (R.tree b).length ≤ nodes) (hroom : Room R h b)
    (hshort : ShortBelow (R.tree b) h.nodesTable P)
    (hbuf : h.stringBuf = pathStr P)
    (hcur : Cursor R b P passed rest child)
    (hpass : Passed R b h.nodesTable passed) :
    Trims R P h b child (walkBound nodes depth k d rest.length) := by
  -- first the open nodes, then the depth, then the children to go
  induction k using Nat.strongRecOn
    generalizing d rest P h b child passed with
  | ind k ihk =>
      induction d generalizing rest P h b child passed with
      | zero =>
          obtain ⟨d', hd'⟩ := hd.pos hP
          cases hd'
      | succ d ihd =>
          induction rest generalizing h b child passed with
          | nil => exact hb.trims_end hroom hcur hpass (Nat.succ_pos _)
          | cons c cs ihcs =>
              have hchild := hcur.atChild c cs rfl
              subst hchild
              have hmem : c ∈ (R.tree b).children P := by
                rw [hcur.split]
                exact List.mem_append_right _ (List.mem_cons_self ..)
              obtain ⟨hc, n, rfl⟩ := Tree.mem_children.1 hmem
              have hfit := hshort _ hc (reached_child h.nodesTable P n)
              -- a change, after which the level is started over
              have hrestart : ∀ h₁ b₁, Trimmed R P h b h₁ b₁ →
                  Walkable R b₁ → Room R h₁ b₁ →
                  todo (R.tree b₁) h₁.nodesTable
                    < todo (R.tree b) h.nodesTable →
                  h₁.stringBuf = pathStr P →
                  (∀ fuel, trimFrom L (fuel + 1) h b (R.off b P)
                      (R.off b (P ++ [n]))
                    = trimFrom L fuel h₁ b₁ (R.off b₁ P)
                        (L.firstSubnode b₁ (R.off b₁ P))) →
                  (∀ m, StepFollows R P h b (R.off b (P ++ [n])) m h₁ b₁
                    (L.firstSubnode b₁ (R.off b₁ P))) →
                  Trims R P h b (R.off b (P ++ [n]))
                    (walkBound nodes depth k (d + 1)
                      ((P ++ [n]) :: cs).length) := by
                intro h₁ b₁ ht hb₁ hroom₁ hlt hbuf₁ hrun hfollow
                have hP₁ := ht.mem_self hP
                have hk₁ := Nat.lt_of_lt_of_le hlt hk
                have hnodes₁ := Nat.le_trans ht.length_le hnodes
                refine (ihk _ hk₁ hb₁ hP₁ (Nat.le_refl _)
                  (ht.deepEnough hd) hdepth hnodes₁ hroom₁
                  (hshort.after ht.sublist ht.table) hbuf₁
                  (hb₁.cursor_first hP₁) (Passed.nil _ _)).step ht ?_
                  (fun fuel _ => hrun fuel) (hfollow _)
                exact walkBound_restart hk₁ hdepth
                  (Nat.le_trans (Tree.children_length_le _ _) hnodes₁)
              cases hfind : findNode h.nodesTable (pathStr (P ++ [n])) with
              | none =>
                  obtain ⟨b₁, hdel, ht, hb₁, hroom₁, hlt, -⟩ :=
                    hb.remove hc hfind hroom
                  apply hrestart h b₁ ht hb₁ hroom₁ hlt hbuf
                  · exact hb.trimFrom_remove hc hfit hbuf hfind hdel
                      (ht.off P List.prefix_rfl)
                  · exact hb.stepFollows_remove hc hfit hfind hdel ht
              | some e =>
                  have hin : InTable h.nodesTable (P ++ [n]) := by
                    unfold InTable
                    rw [hfind]
                    rfl
                  cases hdue : due h.nodesTable (P ++ [n]) with
                  | true =>
                      obtain ⟨b₁, hset, ht, hb₁, hroom₁, hlt, -⟩ :=
                        hb.setStatus hc (by simp) (List.prefix_append P [n])
                          hdue hroom
                      apply hrestart _ b₁ ht hb₁ hroom₁ hlt hbuf
                      · exact hb.trimFrom_status hc hfit hbuf hfind hdue hset
                          (ht.off P List.prefix_rfl)
                      · exact hb.stepFollows_status hc hfit hin hdue hset ht
                  | false =>
                      have hle : todo (R.tree b)
                          (visit h (P ++ [n])).nodesTable
                          ≤ todo (R.tree b) h.nodesTable :=
                        (Trimmed.visit (R := R) (P := P) hdue).todo_le
                      have hroom₀ : Room R (visit h (P ++ [n])) b :=
                        hroom.of_due fun _ _ _ hd => due_of_visit hd
                      have hshort₀ := (hshort.child hin).after
                        (List.Sublist.refl _) (counted_visit h (P ++ [n]))
                      refine hb.trims_descend hP hc hfit hbuf hin hdue
                        hcur.split hpass (walkBound_child (Nat.le_trans
                          (Tree.children_length_le _ (P ++ [n])) hnodes))
                        (Nat.le_refl _) ?_ ?_
                      · exact ihd hb hc (Nat.le_trans hle hk) (hd.child n)
                          (by omega) hnodes hroom₀ hshort₀ rfl
                          (hb.cursor_first hc) (Passed.nil _ _)
                      · intro h₁ b₁ ht hb₁ hroom₁ hbuf₁ hcur₁
                          hpass₁
                        exact ihcs hb₁ (ht.mem_self hP)
                          (Nat.le_trans ht.todo_le hk) (ht.deepEnough hd)
                          (Nat.le_trans ht.length_le hnodes) hroom₁
                          (hshort.after ht.sublist ht.table) hbuf₁ hcur₁
                          hpass₁

/-- `trim_tree` stops, and leaves no node open. -/
theorem Walkable.trimTree_ok (hb : Walkable R b) (hbuf : h.stringBuf = [])
    (hshort : ShortBelow (R.tree b) h.nodesTable []) (hroom : Room R h b)
    (hd : DeepEnough R b [] d) {fuel : Nat}
    (hfuel : walkBound (R.tree b).length d (R.tree b).length d
      (R.tree b).length ≤ fuel) :
    ∃ h' b', trimTree L fuel h b (R.off b []) = .ok (h', b')
      ∧ Trimmed R [] h b h' b' ∧ Walkable R b'
      ∧ (∀ x ∈ (R.tree b').paths, x ≠ [] → ¬isOpen h'.nodesTable x)
      ∧ ∀ g : Context, g.stringBuf = [] →
          Agree (R.tree b) h.nodesTable g.nodesTable →
          ∃ table, trimTree L fuel g b (R.off b [])
            = .ok ({ g with nodesTable := table }, b') := by
  have hroot := hb.wf.root
  have htodo : todo (R.tree b) h.nodesTable ≤ (R.tree b).length := by
    unfold todo
    exact Nat.le_trans List.countP_le_length
      (Nat.le_of_eq (Tree.length_paths _))
  have hchildren := Tree.children_length_le (R.tree b) []
  obtain ⟨h', b', hrun, ht, hb', -, hopen, hfollow⟩ := hb.trims hroot htodo
    hd (Nat.le_refl _) (Nat.le_refl _) hroom hshort hbuf
    (hb.cursor_first hroot) (Passed.nil _ _)
  have henough : walkBound (R.tree b).length d (R.tree b).length d
      ((R.tree b).children []).length ≤ fuel := by
    unfold walkBound at hfuel ⊢
    omega
  refine ⟨h', b', hrun fuel henough, ht, hb', ?_, ?_⟩
  · intro x hx hne
    exact hopen x hx List.nil_prefix hne
  · intro g hgbuf hagree
    obtain ⟨table, hgrun, -⟩ := hfollow g hgbuf hagree
    exact ⟨_, hgrun fuel henough⟩

/-- The nodes that are left are those that have entries all the way up. -/
theorem Walkable.mem_trimmed_iff {h' : Context} (hb' : Walkable R b₁)
    (ht : Trimmed R [] h b h' b₁)
    (hopen : ∀ x ∈ (R.tree b₁).paths, x ≠ [] →
      ¬isOpen h'.nodesTable x)
    {p : Path} :
    p ∈ (R.tree b₁).paths ↔ p ∈ (R.tree b).paths
      ∧ ∀ m, m <+: p → m ≠ [] → InTable h.nodesTable m := by
  constructor
  · intro hp
    refine ⟨ht.sublist.subset hp, ?_⟩
    intro m hm hne
    have hclosed := hopen m (hb'.wf.mem_above hp hm) hne
    exact ht.table.inTable_iff.1 (inTable_of_not_open hclosed)
  · intro hp
    obtain ⟨hp, hin⟩ := hp
    by_contra hgone
    obtain ⟨m, -, hne, hmp, hout⟩ := ht.gone p hp hgone
    exact hout (hin m hmp hne)

/-- The two sets may be described in another way. -/
theorem Restricted.congr {t t' : Tree} {keep keep' disabled disabled' :
    Path → Prop} (hr : Restricted t keep disabled t')
    (hk : ∀ p ∈ t.paths, (keep p ↔ keep' p))
    (hd : ∀ p ∈ t.paths, (disabled p ↔ disabled' p)) :
    Restricted t keep' disabled' t' := by
  refine ⟨?_, hr.sublist, ?_, ?_⟩
  · intro p
    rw [hr.mem_iff]
    exact and_congr_right (hk p)
  · intro p hp hnot
    apply hr.same p hp
    rwa [hd p (hr.sublist.subset hp)]
  · intro p hp hdis
    apply hr.status p hp
    rwa [hd p (hr.sublist.subset hp)]

/-- What is left after a walk from the root. -/
theorem Trimmed.restricted {h' : Context}
    (ht : Trimmed R [] h b h' b₁) (hb' : Walkable R b₁)
    (hopen : ∀ x ∈ (R.tree b₁).paths, x ≠ [] →
      ¬isOpen h'.nodesTable x) :
    Restricted (R.tree b) (fun p => ∀ m, m <+: p → m ≠ [] →
        InTable h.nodesTable m)
      (fun p => p ≠ [] ∧ due h.nodesTable p) (R.tree b₁) := by
  refine ⟨fun p => hb'.mem_trimmed_iff ht hopen, ht.sublist, ?_, ?_⟩
  · intro p hp hnot
    apply ht.same p hp
    by_cases hne : p = []
    · exact hne ▸ ht.top
    · have hold : due h.nodesTable p = false := by
        rw [← Bool.not_eq_true]
        exact fun hd => hnot ⟨hne, hd⟩
      rw [hold, ← Bool.not_eq_true]
      intro hnew
      rw [ht.table.due hnew] at hold
      cases hold
  · intro p hp hdis
    apply ht.status p hp hdis.2
    rw [not_due_of_not_open (hopen p hp hdis.1)]
    decide

end Walk

end ProjectsLibs.Fdtgen
