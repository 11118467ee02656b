/-
Requests for a subtree.

`keep_node_and_children` makes the key of a node by appending to what
`fdt_get_path` has printed for the node it starts at. For a node other
than the root these are the keys that `find_nodes_to_keep` and
`trim_tree` look for, at any depth. For the root `fdt_get_path` prints
"/", so every key has one slash too many and names no node
(`slash_ne_pathStr`): the request keeps nothing, and its entries have no
offset.

`subtree_kept_iff` says when a request for a subtree does what it is for.

# Keys and paths

The walk over a subtree builds the keys of its requests from the path of
the node it was called with. For the root that path is "/", and every key
below has one slash too many, so these keys name no node; for all other
nodes the keys are the paths. The two cases are kept in one statement by
writing a key as what stands in front and the path (`subtreePre`).

A request for the root therefore keeps what its stray entries lead to and
no more, and when this happens to be the whole tree is the condition
`RootKept`. What is generated after the request comes from Generate, as
for any context that is ready.
-/
import ProjectsLibs.Fdtgen.Proofs.Absent

namespace ProjectsLibs.Fdtgen

open Fdt Lib

-- ============================================================= requests

section Asked

variable {junk : CStr → Int} {h h' h'' : Context} {flag : DeviceFlag}
  {nodes nodes' : List CStr}

/-- Two lists of nodes asked for with one flag. -/
theorem Asked.trans (ha : Asked junk h nodes flag h')
    (ha' : Asked junk h' nodes' flag h'') :
    Asked junk h (nodes ++ nodes') flag h'' := by
  refine ⟨?_, fun hnd => ha'.nodup (ha.nodup hnd), ?_⟩
  · rw [ha'.context, ha.context]
  · intro s
    rw [ha'.entry, ha.entry]
    by_cases hs : s ∈ nodes
    · simp [hs, askedEntry_askedEntry]
    · simp [hs]

/-- `string_buf` does not matter. -/
theorem Asked.setbuf (ha : Asked junk h nodes flag h') (buf : CStr) :
    Asked junk { h with stringBuf := buf } nodes flag
      { h' with stringBuf := buf } := by
  refine ⟨?_, ha.nodup, ha.entry⟩
  rw [ha.context]

/-- The entries afterwards are those of before and those asked for. -/
theorem Asked.length_le {keys : List CStr}
    (ha : Asked junk h nodes flag h') (hnodes : ∀ s ∈ nodes, s ∈ keys)
    (hnd : (h.nodesTable.map PathNode.name).Nodup) :
    h'.nodesTable.length ≤ h.nodesTable.length + keys.length := by
  have hsub : h'.nodesTable.map PathNode.name
      ⊆ h.nodesTable.map PathNode.name ++ keys := by
    intro s hs
    rw [← findNode_isSome, ha.entry] at hs
    rw [List.mem_append]
    split at hs
    · rename_i hmem
      exact .inr (hnodes s hmem)
    · exact .inl (findNode_isSome.1 hs)
  have hle := (List.subperm_of_subset (ha.nodup hnd) hsub).length_le
  rwa [List.length_append, List.length_map, List.length_map] at hle

end Asked

-- ============================================================== the walk

section Walk

variable {L : Libfdt} {R : L.Reading} {ori : L.Blob} {junk : CStr → Int}
  {flag : DeviceFlag} {h h' : Context} {P : Path} {fuel : Nat} {pre : CStr}

/-- What is below `P` is asked for, each node under its path behind
`pre`. -/
def AsksBelow (R : L.Reading) (ori : L.Blob) (pre : CStr) (P : Path)
    (nodes : List CStr) : Prop :=
  ∀ s, s ∈ nodes ↔ ∃ q ∈ (R.tree ori).paths, P <+: q ∧ q ≠ P
    ∧ s = pre ++ pathStr q

/-- One child, and what is below it. -/
theorem Readable.keepChild_ok (hb : Readable R ori) {n : CStr}
    (hc : P ++ [n] ∈ (R.tree ori).paths)
    (hbuf : h.stringBuf = pre ++ pathStr P)
    (hfit : (pre ++ pathStr (P ++ [n])).length < maxFullPathLength)
    {descend : Context → Int → Except Fault Context}
    (hdesc : ∀ h : Context, h.stringBuf = pre ++ pathStr (P ++ [n]) →
      ∃ h' nodes, descend h (R.off ori (P ++ [n])) = .ok h'
        ∧ Asked junk h nodes flag h'
        ∧ AsksBelow R ori pre (P ++ [n]) nodes) :
    ∃ h' nodes, keepChild L junk ori flag descend h
        (R.off ori (P ++ [n])) = .ok h'
      ∧ Asked junk h nodes flag h'
      ∧ ∀ s, s ∈ nodes ↔ ∃ q ∈ (R.tree ori).paths, P ++ [n] <+: q
          ∧ s = pre ++ pathStr q := by
  have hcurr : pre ++ pathStr P ++ '/' :: n = pre ++ pathStr (P ++ [n]) := by
    rw [pathStr_append, List.append_assoc]
  have hfirst : Asked junk
      { h with stringBuf := pre ++ pathStr (P ++ [n]) }
      [pre ++ pathStr (P ++ [n])] flag _ := asked_singleton _ _
  have hbuf₁ : (initKeepNode junk
      { h with stringBuf := pre ++ pathStr (P ++ [n]) }
      [pre ++ pathStr (P ++ [n])] flag).stringBuf
      = pre ++ pathStr (P ++ [n]) := by
    rw [hfirst.context]
  obtain ⟨h₂, nodes, hrun, hrest, hnodes⟩ := hdesc _ hbuf₁
  have hboth := hfirst.trans hrest
  refine ⟨{ h₂ with stringBuf := h.stringBuf }, _, ?_,
    hboth.setbuf h.stringBuf, ?_⟩
  · unfold keepChild
    rw [hbuf, hb.doc.getName_eq ori P n hb.wf hc, strcatChild_ite, hcurr,
      if_pos hfit, ok_bind]
    show (descend _ _ >>= _) = _
    rw [hrun, ok_bind]
    have hbuf₂ : h₂.stringBuf = pre ++ pathStr P ++ '/' :: n := by
      rw [hboth.context, hcurr]
    rw [hbuf₂, List.take_left]
  · intro s
    rw [List.mem_append, List.mem_singleton, hnodes]
    constructor
    · rintro (rfl | ⟨q, hq, hpre, -, hs⟩)
      · exact ⟨_, hc, List.prefix_rfl, rfl⟩
      · exact ⟨q, hq, hpre, hs⟩
    · rintro ⟨q, hq, hpre, hs⟩
      by_cases hne : q = P ++ [n]
      · exact .inl (hne ▸ hs)
      · exact .inr ⟨q, hq, hpre, hne, hs⟩

variable (junk flag) in
/-- `keep_node_and_children` asks for what is below a node, if the keys
fit `string_buf`. -/
theorem Readable.keepNodeAndChildren_ok (hb : Readable R ori)
    (hP : P ∈ (R.tree ori).paths) (hd : DeepEnough R ori P fuel)
    (hbuf : h.stringBuf = pre ++ pathStr P)
    (hfit : ∀ q ∈ (R.tree ori).paths, P <+: q → q ≠ P →
      (pre ++ pathStr q).length < maxFullPathLength) :
    ∃ h' nodes, keepNodeAndChildren L junk ori flag fuel h (R.off ori P)
        = .ok h' ∧ Asked junk h nodes flag h'
      ∧ AsksBelow R ori pre P nodes := by
  induction fuel generalizing P h with
  | zero =>
      obtain ⟨fuel', hfuel⟩ := hd.pos hP
      cases hfuel
  | succ fuel ih =>
      rw [keepNodeAndChildren, hb.doc.subnodes_eq ori P hb.wf hP,
        List.foldlM_map]
      -- the children passed are asked for, with all below them
      let inv := fun (done : List Path) (s : Context) =>
        ∃ nodes, Asked junk h nodes flag s
          ∧ ∀ k, k ∈ nodes ↔ ∃ q ∈ (R.tree ori).paths,
              (∃ c ∈ done, c <+: q) ∧ k = pre ++ pathStr q
      have hinit : inv [] h :=
        ⟨[], ⟨rfl, fun hnd => hnd, by simp⟩, by simp⟩
      have hstep : ∀ l₁ c l₂ s,
          (R.tree ori).children P = l₁ ++ c :: l₂ →
          inv l₁ s → ∃ s', keepChild L junk ori flag
            (keepNodeAndChildren L junk ori flag fuel) s (R.off ori c)
              = .ok s' ∧ inv (l₁ ++ [c]) s' := by
        rintro l₁ c l₂ s hl ⟨nodes, hasked, hnodes⟩
        have hmem : c ∈ (R.tree ori).children P := by
          rw [hl]
          exact List.mem_append_right _ (List.mem_cons_self ..)
        obtain ⟨hc, n, rfl⟩ := Tree.mem_children.1 hmem
        have hPc := List.prefix_append P [n]
        have hbuf₁ : s.stringBuf = pre ++ pathStr P := by
          rw [hasked.context]
          exact hbuf
        obtain ⟨h₂, nodes₂, hrun₂, hasked₂, hnodes₂⟩ :=
          hb.keepChild_ok
          hc hbuf₁ (hfit _ hc hPc (by simp))
          (fun h₁ hbuf' => ih hc (hd.child n) hbuf' fun q hq hcq hne =>
            hfit q hq (hPc.trans hcq) (by
              rintro rfl
              have hle := hcq.length_le
              rw [List.length_append, List.length_singleton] at hle
              omega))
        refine ⟨h₂, hrun₂, _, hasked.trans hasked₂, ?_⟩
        intro k
        rw [List.mem_append, hnodes, hnodes₂]
        simp only [List.mem_append, List.mem_singleton, or_and_right,
          exists_or, exists_eq_left, and_or_left]
      obtain ⟨h', hrun, nodes, hasked, hnodes⟩ :=
        foldlM_invariant inv hinit hstep
      refine ⟨h', nodes, hrun, hasked, ?_⟩
      intro s
      rw [hnodes]
      constructor
      · rintro ⟨q, hq, hbelow, hs⟩
        obtain ⟨hPq, hne⟩ := (Tree.below_iff_children hb.wf hq).1 hbelow
        exact ⟨q, hq, hPq, hne, hs⟩
      · rintro ⟨q, hq, hPq, hne, hs⟩
        exact ⟨q, hq, (Tree.below_iff_children hb.wf hq).2 ⟨hPq, hne⟩,
          hs⟩

/-- One child, if it has been passed. -/
theorem Readable.keepChild_fits (hb : Readable R ori) {n : CStr}
    {h' : Context} (hc : P ++ [n] ∈ (R.tree ori).paths)
    (hbuf : h.stringBuf = pre ++ pathStr P)
    {descend : Context → Int → Except Fault Context}
    (hdesc : ∀ h h' : Context,
      h.stringBuf = pre ++ pathStr (P ++ [n]) →
      descend h (R.off ori (P ++ [n])) = .ok h' →
      h'.stringBuf = h.stringBuf
        ∧ ∀ q ∈ (R.tree ori).paths, P ++ [n] <+: q → q ≠ P ++ [n] →
            (pre ++ pathStr q).length < maxFullPathLength)
    (hrun : keepChild L junk ori flag descend h (R.off ori (P ++ [n]))
      = .ok h') :
    h'.stringBuf = pre ++ pathStr P
      ∧ ∀ q ∈ (R.tree ori).paths, P ++ [n] <+: q →
          (pre ++ pathStr q).length < maxFullPathLength := by
  have hcurr : pre ++ pathStr P ++ '/' :: n = pre ++ pathStr (P ++ [n]) := by
    rw [pathStr_append, List.append_assoc]
  unfold keepChild at hrun
  rw [hbuf, hb.doc.getName_eq ori P n hb.wf hc, strcatChild_ite,
    hcurr] at hrun
  by_cases hfit : (pre ++ pathStr (P ++ [n])).length < maxFullPathLength
  · rw [if_pos hfit, ok_bind] at hrun
    obtain ⟨h₂, hdescent, hrun⟩ := bind_eq_ok hrun
    have hfirst : Asked junk
        { h with stringBuf := pre ++ pathStr (P ++ [n]) }
        [pre ++ pathStr (P ++ [n])] flag _ := asked_singleton _ _
    have hbuf₁ : (initKeepNode junk
        { h with stringBuf := pre ++ pathStr (P ++ [n]) }
        [pre ++ pathStr (P ++ [n])] flag).stringBuf
        = pre ++ pathStr (P ++ [n]) := by
      rw [hfirst.context]
    obtain ⟨hbuf₂, hbelow⟩ := hdesc _ _ hbuf₁ hdescent
    rw [Except.ok.injEq] at hrun
    refine ⟨?_, ?_⟩
    · rw [← hrun]
      show h₂.stringBuf.take _ = _
      rw [hbuf₂, hbuf₁, ← hcurr, List.take_left]
    · intro q hq hcq
      by_cases hne : q = P ++ [n]
      · exact hne ▸ hfit
      · exact hbelow q hq hcq hne
  · rw [if_neg hfit] at hrun
    cases hrun

/-- If it comes to its end the keys have fit. -/
theorem Readable.keepNodeAndChildren_fits (hb : Readable R ori)
    (hP : P ∈ (R.tree ori).paths)
    (hbuf : h.stringBuf = pre ++ pathStr P)
    (hrun : keepNodeAndChildren L junk ori flag fuel h (R.off ori P)
      = .ok h') :
    h'.stringBuf = h.stringBuf
      ∧ ∀ q ∈ (R.tree ori).paths, P <+: q → q ≠ P →
          (pre ++ pathStr q).length < maxFullPathLength := by
  induction fuel generalizing P h h' with
  | zero => cases hrun
  | succ fuel ih =>
      rw [keepNodeAndChildren, hb.doc.subnodes_eq ori P hb.wf hP,
        List.foldlM_map] at hrun
      have hstep : ∀ s, ∀ c ∈ (R.tree ori).children P, ∀ s',
          s.stringBuf = pre ++ pathStr P →
          keepChild L junk ori flag
            (keepNodeAndChildren L junk ori flag fuel) s (R.off ori c)
            = .ok s' →
          s'.stringBuf = pre ++ pathStr P
            ∧ ∀ q ∈ (R.tree ori).paths, c <+: q →
                (pre ++ pathStr q).length < maxFullPathLength := by
        intro s c hc s' hs hrun
        obtain ⟨hmem, n, rfl⟩ := Tree.mem_children.1 hc
        exact hb.keepChild_fits hmem hs
          (fun _ _ hbuf hrun => ih hmem hbuf hrun) hrun
      obtain ⟨hbuf', hall⟩ := foldlM_ok
        (fun s : Context => s.stringBuf = pre ++ pathStr P) hbuf
        (fun s c hc s' hs hrun => (hstep s c hc s' hs hrun).1) hrun
      refine ⟨hbuf'.trans hbuf.symm, ?_⟩
      intro q hq hPq hne
      obtain ⟨c, hc, hcq⟩ :=
        (Tree.below_iff_children hb.wf hq).2 ⟨hPq, hne⟩
      obtain ⟨s, s', hs, hrun⟩ := hall c hc
      exact (hstep s c hc s' hs hrun).2 q hq hcq

/-- Whatever the blob, requests are all it makes. -/
theorem asked_keepNodeAndChildren {offset : Int}
    (hrun : keepNodeAndChildren L junk ori flag fuel h offset = .ok h') :
    ∃ nodes, Asked junk h nodes flag
      { h' with stringBuf := h.stringBuf } := by
  induction fuel generalizing h h' offset with
  | zero => cases hrun
  | succ fuel ih =>
      rw [Fdtgen.keepNodeAndChildren] at hrun
      refine (foldlM_ok (fun s : Context => ∃ nodes, Asked junk h nodes flag
        { s with stringBuf := h.stringBuf }) ?_ ?_ hrun).1
      · exact ⟨[], ⟨rfl, fun hnd => hnd, by simp⟩⟩
      · rintro s child _ s' ⟨nodes, hasked⟩ hchild
        unfold keepChild at hchild
        obtain ⟨curr, -, hchild⟩ := bind_eq_ok hchild
        obtain ⟨s₂, hdesc, hchild⟩ := bind_eq_ok hchild
        rw [Except.ok.injEq] at hchild
        have hfirst : Asked junk { s with stringBuf := curr } [curr] flag
            (initKeepNode junk { s with stringBuf := curr } [curr] flag) :=
          asked_singleton _ _
        obtain ⟨nodes₂, hrest⟩ := ih hdesc
        rw [← hchild]
        exact ⟨_, hasked.trans ((hfirst.trans hrest).setbuf h.stringBuf)⟩

/-- Asking for a subtree is asking for its nodes. -/
theorem asked_keepSubtree {node : CStr}
    (hrun : keepSubtree L junk ori flag fuel h node = .ok h') :
    ∃ nodes, Asked junk h nodes flag
      { h' with stringBuf := h.stringBuf } := by
  unfold Fdtgen.keepSubtree at hrun
  by_cases hneg : L.pathOffset ori node < 0
  · simp only [if_pos hneg, Except.ok.injEq] at hrun
    subst hrun
    exact ⟨[], ⟨rfl, fun hnd => hnd, by simp⟩⟩
  · simp only [if_neg hneg] at hrun
    obtain ⟨nodes, hrest⟩ := asked_keepNodeAndChildren hrun
    exact ⟨_, ((asked_singleton _ _).trans hrest).setbuf h.stringBuf⟩

theorem Fresh.keepSubtree {node : CStr} (hf : Fresh h)
    (hrun : keepSubtree L junk ori flag fuel h node = .ok h') :
    Fresh h' := by
  obtain ⟨nodes, hasked⟩ := asked_keepSubtree hrun
  have hf' := hf.asked hasked
  exact ⟨hf'.nodup, hf'.deps, hf'.counts⟩

end Walk

-- ========================================================== the request

section Request

variable {L : Libfdt} {R : L.Reading} {ori b dtb : L.Blob}
  {junk : CStr → Int} {flag : DeviceFlag} {h h' : Context} {p : Path}
  {fuel : Nat} {node : CStr} {nodes : List CStr}

/-- A context with requests that `fdtgen_generate` has not been called
with. -/
inductive Prepared (L : Libfdt) : Context → Prop
  | new (bufsize : Nat) : Prepared L (fdtgenNewContext bufsize)
  | nodes {h : Context} (junk : CStr → Int) (nodes : List CStr)
      (flag : DeviceFlag) : Prepared L h →
      Prepared L (initKeepNode junk h nodes flag)
  | subtree {h h' : Context} {junk : CStr → Int} {ori : L.Blob}
      {flag : DeviceFlag} {fuel : Nat} {node : CStr} : Prepared L h →
      keepSubtree L junk ori flag fuel h node = .ok h' → Prepared L h'

/-- A context is fresh before its first run. -/
theorem Prepared.fresh (hp : Prepared L h) : Fresh h := by
  induction hp with
  | new bufsize => exact fresh_new bufsize
  | nodes junk nodes flag _ ih => exact ih.asked (asked_initKeepNode _ _)
  | subtree _ hrun ih => exact ih.keepSubtree hrun

/-- What stands before the paths of a subtree in their keys. -/
def subtreePre (p : Path) : CStr := if p = [] then ['/'] else []

/-- The root, written as a slash, has one more character than the paths are
built from. -/
theorem fullPath_eq (p : Path) : fullPath p = subtreePre p ++ pathStr p := by
  unfold fullPath subtreePre
  split
  · rename_i heq
    rw [heq]
    rfl
  · rfl

/-- The keys of the subtree at `p`. -/
def SubtreeKeys (R : L.Reading) (ori : L.Blob) (p : Path)
    (nodes : List CStr) : Prop :=
  ∀ s, s ∈ nodes ↔ ∃ q ∈ (R.tree ori).paths, p <+: q
    ∧ s = subtreePre p ++ pathStr q

/-- The request by path first keeps the node itself, then walks what is
below. -/
theorem Readable.keepSubtree_eq (hb : Readable R ori)
    (hp : p ∈ (R.tree ori).paths)
    (hnode : L.pathOffset ori node = R.off ori p) :
    keepSubtree L junk ori flag fuel h node
      = keepNodeAndChildren L junk ori flag fuel
          (initKeepNode junk { h with stringBuf := fullPath p } [fullPath p]
            flag) (R.off ori p) := by
  have hnonneg := hb.doc.off_nonneg ori p hb.wf hp
  have hlen : (fullPath p).length < maxFullPathLength := by
    unfold fullPath
    split
    · decide
    · exact hb.path_lt p hp
  unfold keepSubtree
  simp only [hnode]
  rw [if_neg (by omega), hb.doc.getPath_eq ori p _ _ hb.wf hp hlen]

variable (junk flag) in
/-- A request for a subtree asks for each node of it under its key. -/
theorem Readable.keepSubtree_ok (hb : Readable R ori)
    (hp : p ∈ (R.tree ori).paths)
    (hnode : L.pathOffset ori node = R.off ori p)
    (hd : DeepEnough R ori p fuel)
    (hfit : ∀ q ∈ (R.tree ori).paths, p <+: q → q ≠ p →
      (subtreePre p ++ pathStr q).length < maxFullPathLength) :
    ∃ h' nodes, keepSubtree L junk ori flag fuel h node = .ok h'
      ∧ Asked junk { h with stringBuf := fullPath p } nodes flag h'
      ∧ SubtreeKeys R ori p nodes := by
  have hfirst : Asked junk { h with stringBuf := fullPath p } [fullPath p]
      flag _ := asked_singleton _ _
  have hbuf : (initKeepNode junk { h with stringBuf := fullPath p }
      [fullPath p] flag).stringBuf = subtreePre p ++ pathStr p := by
    rw [hfirst.context, ← fullPath_eq]
  obtain ⟨h', nodes, hrun, hasked, hnodes⟩ :=
    hb.keepNodeAndChildren_ok junk flag hp hd hbuf hfit
  refine ⟨h', _, ?_, hfirst.trans hasked, ?_⟩
  · rw [hb.keepSubtree_eq hp hnode, hrun]
  · intro s
    rw [List.mem_append, List.mem_singleton, hnodes, fullPath_eq]
    constructor
    · rintro (rfl | ⟨q, hq, hpre, -, hs⟩)
      · exact ⟨p, hp, List.prefix_rfl, rfl⟩
      · exact ⟨q, hq, hpre, hs⟩
    · rintro ⟨q, hq, hpre, hs⟩
      by_cases hne : q = p
      · exact .inl (hne ▸ hs)
      · exact .inr ⟨q, hq, hpre, hne, hs⟩

/-- If the request comes to its end its keys have fit. -/
theorem Readable.keepSubtree_fits (hb : Readable R ori)
    (hp : p ∈ (R.tree ori).paths)
    (hnode : L.pathOffset ori node = R.off ori p)
    (hrun : keepSubtree L junk ori flag fuel h node = .ok h') :
    ∀ q ∈ (R.tree ori).paths, p <+: q → q ≠ p →
      (subtreePre p ++ pathStr q).length < maxFullPathLength := by
  have hfirst : Asked junk { h with stringBuf := fullPath p } [fullPath p]
      flag _ := asked_singleton _ _
  rw [hb.keepSubtree_eq hp hnode] at hrun
  refine (hb.keepNodeAndChildren_fits hp ?_ hrun).2
  rw [hfirst.context, ← fullPath_eq]

/-- A key with one slash too many is not that of a node. -/
theorem slash_ne_pathStr {t : Tree} (hw : t.Wf) {m : Path}
    (hm : m ∈ t.paths) (q : Path) : '/' :: pathStr q ≠ pathStr m := by
  intro heq
  cases m with
  | nil => cases heq
  | cons n m =>
      obtain ⟨hne, hslash⟩ := hw.names _ hm n (List.mem_cons_self ..)
      have htail : pathStr q = n ++ pathStr m := (List.cons.inj heq).2
      cases n with
      | nil => exact hne rfl
      | cons c n =>
          cases q with
          | nil => cases htail
          | cons n' q =>
              have hc : '/' = c := (List.cons.inj htail).1
              exact hslash (hc ▸ List.mem_cons_self ..)

/-- The rows of the table afterwards. -/
theorem Asked.row_iff {g : Context} (ha : Asked junk g nodes flag h')
    (hnd : (g.nodesTable.map PathNode.name).Nodup) (s : CStr) (o : Int) :
    (∃ e ∈ h'.nodesTable, e.name = s ∧ e.offset = o)
      ↔ (∃ e ∈ g.nodesTable, e.name = s ∧ e.offset = o)
        ∨ s ∈ nodes ∧ findNode g.nodesTable s = none ∧ junk s = o := by
  have hrow : ∀ table : List PathNode, (table.map PathNode.name).Nodup →
      ((∃ e ∈ table, e.name = s ∧ e.offset = o)
        ↔ (findNode table s).map PathNode.offset = some o) := by
    intro table hnd
    constructor
    · rintro ⟨e, he, rfl, rfl⟩
      rw [Single.findNode_eq he (single_of_nodup hnd _)]
      rfl
    · intro hfind
      obtain ⟨e, he, hoff⟩ := Option.map_eq_some_iff.1 hfind
      exact ⟨e, List.mem_of_find?_eq_some he, findNode_name he, hoff⟩
  rw [hrow _ (ha.nodup hnd), hrow _ hnd, ha.entry]
  cases hold : findNode g.nodesTable s with
  | none =>
      by_cases hs : s ∈ nodes
      · simp [hs, askedEntry]
      · simp [hs]
  | some e =>
      by_cases hs : s ∈ nodes
      · simp [hs, askedEntry]
      · simp [hs]

-- ------------------------------------------------- what is generated

/-- The status that `fdtgen_generate` sets. -/
def statusDisabled (t : Tree) (p : Path) : Prop :=
  getProp (t.propsAt p) "status".toList
    = some (strBytes "disabled".toList)

/-- The subtree at `p` is there, and if it is to be disabled every node of
it but the root is. -/
def SubtreeKept (t : Tree) (p : Path) (flag : DeviceFlag) (t' : Tree) :
    Prop :=
  ∀ q ∈ t.paths, p <+: q → q ∈ t'.paths
    ∧ (flag = .keepAndDisable → q ≠ [] → statusDisabled t' q)

/-- A property that was set is found with its value. -/
theorem getProp_propSet {name : CStr} {value : List UInt8}
    {ps ps' : List Property} (hset : PropSet name value ps ps') :
    getProp ps' name = some value := by
  obtain ⟨l₁, l₂, rfl, hl₁, -⟩ := hset
  have hnone : l₁.find? (fun pr => decide (pr.name = name)) = none := by
    rw [List.find?_eq_none]
    intro pr hpr heq
    exact hl₁ pr hpr (of_decide_eq_true heq)
  unfold getProp
  rw [List.find?_append, hnone]
  simp

/-- The status in a generated tree is the one set, or the old one. -/
theorem Restricted.statusDisabled_iff {t t' : Tree}
    {keep disabled : Path → Prop} (hr : Restricted t keep disabled t')
    (hp : p ∈ t'.paths) :
    statusDisabled t' p ↔ disabled p ∨ statusDisabled t p := by
  by_cases hd : disabled p
  · have hset := getProp_propSet (hr.status p hp hd)
    exact ⟨fun _ => .inl hd, fun _ => hset⟩
  · unfold statusDisabled
    rw [hr.same p hp hd]
    exact ⟨.inr, fun hor => hor.resolve_left hd⟩

/-- A subtree is in the result with its flag if every node of it was asked
for. -/
theorem Generated.subtreeKept_iff (hg : Generated R b h h' dtb) :
    SubtreeKept (R.tree b) p flag (R.tree dtb)
      ↔ ∀ q ∈ (R.tree b).paths, p <+: q → Asks R b h.nodesTable q
        ∧ (flag = .keepAndDisable → q ≠ [] →
          due h.nodesTable q = true ∨ statusDisabled (R.tree b) q) := by
  refine forall_congr' fun q => forall_congr' fun hq =>
    forall_congr' fun _ => ?_
  rw [hg.restricted.mem_iff]
  constructor
  · rintro ⟨⟨-, hk⟩, hstatus⟩
    refine ⟨hk, fun hflag hne => ?_⟩
    have hmem := (hg.restricted.mem_iff q).2 ⟨hq, hk⟩
    exact ((hg.restricted.statusDisabled_iff hmem).1
      (hstatus hflag hne)).imp_left And.right
  · rintro ⟨hk, hstatus⟩
    refine ⟨⟨hq, hk⟩, fun hflag hne => ?_⟩
    have hmem := (hg.restricted.mem_iff q).2 ⟨hq, hk⟩
    exact (hg.restricted.statusDisabled_iff hmem).2
      ((hstatus hflag hne).imp_left fun hd => ⟨hne, hd⟩)

/-- The entry that a request for the subtree of the root makes for "/" or
for a key with a slash too many holds the offset of the node at `p`. -/
def RootLeftover (R : L.Reading) (b : L.Blob) (junk : CStr → Int)
    (h : Context) (p : Path) : Prop :=
  p ∈ (R.tree b).paths ∧ p ≠ [] ∧ ∃ q ∈ (R.tree b).paths,
    findNode h.nodesTable ('/' :: pathStr q) = none
      ∧ junk ('/' :: pathStr q) = R.off b p

/-- What has to be so for the whole tree to be kept by a request for the
subtree of the root: the keys fit `string_buf`, every node is asked for
anyway, and every node is disabled anyway if it is to be. -/
structure RootKept (R : L.Reading) (b : L.Blob) (junk : CStr → Int)
    (flag : DeviceFlag) (h : Context) : Prop where
  fits : ∀ q ∈ (R.tree b).paths,
    ('/' :: pathStr q).length < maxFullPathLength
  kept : ∀ q ∈ (R.tree b).paths, KeepFrom (R.tree b)
    (InTable h.nodesTable)
    (fun p => Seed R b h.nodesTable p ∨ RootLeftover R b junk h p) q
  disabled : flag = .keepAndDisable → ∀ q ∈ (R.tree b).paths, q ≠ [] →
    due h.nodesTable q = true ∨ statusDisabled (R.tree b) q

/-- The entries of the nodes are not touched by a request for the subtree
of the root. -/
theorem Asked.findNode_root (hw : (R.tree ori).Wf)
    (ha : Asked junk { h with stringBuf := fullPath [] } nodes flag h')
    (hkeys : SubtreeKeys R ori [] nodes) (hp : p ∈ (R.tree ori).paths) :
    findNode h'.nodesTable (pathStr p) = findNode h.nodesTable (pathStr p) := by
  rw [ha.entry, if_neg]
  intro hmem
  obtain ⟨q, -, -, heq⟩ := (hkeys _).1 hmem
  exact slash_ne_pathStr hw hp q heq.symm

/-- The keys of a request for the subtree of the root name no node, so they
lead on only by the offsets that were left in their entries. -/
theorem Asked.seed_root (htree : R.tree b = R.tree ori)
    (hw : (R.tree ori).Wf) (hf : Fresh h)
    (ha : Asked junk { h with stringBuf := fullPath [] } nodes flag h')
    (hkeys : SubtreeKeys R ori [] nodes) :
    Seed R b h'.nodesTable p
      ↔ Seed R b h.nodesTable p ∨ RootLeftover R b junk h p := by
  constructor
  · rintro ⟨hp, hne, e, he, hstray, hoff⟩
    cases (ha.row_iff hf.nodup e.name e.offset).1 ⟨e, he, rfl, rfl⟩ with
    | inl hold =>
        obtain ⟨e', he', hname, hoff'⟩ := hold
        refine .inl ⟨hp, hne, e', he', ?_, hoff'.trans hoff⟩
        intro m hm hm0
        rw [hname]
        exact hstray m hm hm0
    | inr hnew =>
        obtain ⟨hs, hnone, hjunk⟩ := hnew
        obtain ⟨q, hq, -, heq⟩ := (hkeys _).1 hs
        have heq : e.name = '/' :: pathStr q := heq
        rw [heq] at hnone hjunk
        exact .inr ⟨hp, hne, q, htree ▸ hq, hnone, hjunk.trans hoff⟩
  · rintro
      (⟨hp, hne, e, he, hstray, hoff⟩ | ⟨hp, hne, q, hq, hnone, hjunk⟩)
    · obtain ⟨e', he', hname, hoff'⟩ :=
        (ha.row_iff hf.nodup e.name e.offset).2 (.inl ⟨e, he, rfl, rfl⟩)
      refine ⟨hp, hne, e', he', ?_, hoff'.trans hoff⟩
      intro m hm hm0
      rw [hname]
      exact hstray m hm hm0
    · have hs : '/' :: pathStr q ∈ nodes :=
        (hkeys _).2 ⟨q, htree ▸ hq, List.nil_prefix, rfl⟩
      obtain ⟨e', he', hname, hoff'⟩ :=
        (ha.row_iff hf.nodup ('/' :: pathStr q) (R.off b p)).2
          (.inr ⟨hs, hnone, hjunk⟩)
      refine ⟨hp, hne, e', he', ?_, hoff'⟩
      intro m hm _
      rw [hname]
      exact slash_ne_pathStr hw (htree ▸ hm) q

/-- What is asked for after a request for the subtree of the root. -/
theorem Asked.asks_root (htree : R.tree b = R.tree ori)
    (hw : (R.tree ori).Wf) (hf : Fresh h)
    (ha : Asked junk { h with stringBuf := fullPath [] } nodes flag h')
    (hkeys : SubtreeKeys R ori [] nodes) :
    Asks R b h'.nodesTable p ↔ KeepFrom (R.tree b) (InTable h.nodesTable)
      (fun p => Seed R b h.nodesTable p ∨ RootLeftover R b junk h p) p := by
  have hin : ∀ m ∈ (R.tree b).paths,
      (InTable h'.nodesTable m ↔ InTable h.nodesTable m) := by
    intro m hm
    unfold InTable
    rw [ha.findNode_root hw hkeys (htree ▸ hm)]
  constructor
  · refine KeepFrom.within ?_ ?_
    · intro m hm hr
      exact .request hm ((hin m hm).1 hr)
    · intro m q hs hmq hedge
      exact .seed ((ha.seed_root htree hw hf hkeys).1 hs) hmq hedge
  · refine KeepFrom.within ?_ ?_
    · intro m hm hr
      exact .request hm ((hin m hm).2 hr)
    · intro m q hs hmq hedge
      exact .seed ((ha.seed_root htree hw hf hkeys).2 hs) hmq hedge

/-- Every node of the subtree is asked for by name, if it is not that of
the root. -/
theorem Asked.findNode_below
    (ha : Asked junk { h with stringBuf := fullPath p } nodes flag h')
    (hkeys : SubtreeKeys R ori p nodes) (hne : p ≠ []) {q : Path}
    (hq : q ∈ (R.tree ori).paths) (hpq : p <+: q) :
    findNode h'.nodesTable (pathStr q)
      = some (askedEntry junk (pathStr q) flag
          (findNode h.nodesTable (pathStr q))) := by
  rw [ha.entry, if_pos]
  refine (hkeys _).2 ⟨q, hq, hpq, ?_⟩
  unfold subtreePre
  rw [if_neg hne]
  rfl

/-- The steps that are enough for a request for a subtree and
`fdtgen_generate`. -/
def subtreeBound (t : Tree) (h : Context) : Nat :=
  generateBound t + (h.nodesTable.length + t.length)

/-- After a request for a subtree `fdtgen_generate` returns 0. -/
theorem subtree_generated (hL : L.Documented R) (hR : L.Refuses R)
    (hT : WellFormed (R.tree ori)) (hf : Fresh h)
    (hfits : BufferFits R ori h.bufsize)
    (hrun : keepSubtree L junk ori flag fuel h node = .ok h')
    (ha : Asked junk { h with stringBuf := fullPath p } nodes flag h')
    (hkeys : SubtreeKeys R ori p nodes)
    (hfuel : subtreeBound (R.tree ori) h ≤ fuel) :
    ∃ h'' dtb, fdtgenGenerate L fuel h' ori = .ok (0, h'', dtb)
      ∧ Generated R (L.openInto ori h.bufsize).2 h' h'' dtb := by
  have hf' := hf.keepSubtree hrun
  have hsize : h'.bufsize = h.bufsize := by
    rw [ha.context]
  obtain ⟨htree, -, hI, -⟩ := opened hL hT hfits
  have hready : Ready R (L.openInto ori h.bufsize).2 h' :=
    hf'.ready_any hR hI.ok.wf
  have hlen : h'.nodesTable.length
      ≤ h.nodesTable.length + (R.tree ori).length := by
    have hmem : ∀ s ∈ nodes, s ∈ (R.tree ori).paths.map
        fun q => subtreePre p ++ pathStr q := by
      intro s hs
      obtain ⟨q, hq, -, rfl⟩ := (hkeys s).1 hs
      exact List.mem_map_of_mem hq
    have hle := ha.length_le hmem hf.nodup
    rwa [List.length_map, Tree.length_paths] at hle
  unfold subtreeBound at hfuel
  rw [← hsize]
  exact generate_ready hL hT (hsize ▸ hfits.fitsFor _) (hsize ▸ hready)
    (by omega)

variable (junk flag) in
/-- A request for a subtree whose keys fit, and `fdtgen_generate` after
it. -/
theorem subtree_requested (hL : L.Documented R) (hR : L.Refuses R)
    (hT : WellFormed (R.tree ori)) (hf : Fresh h)
    (hfits : BufferFits R ori h.bufsize) (hp : p ∈ (R.tree ori).paths)
    (hnode : L.pathOffset ori node = R.off ori p)
    (hfit : ∀ q ∈ (R.tree ori).paths, p <+: q → q ≠ p →
      (subtreePre p ++ pathStr q).length < maxFullPathLength)
    (hfuel : subtreeBound (R.tree ori) h ≤ fuel) :
    ∃ h₁ nodes h₂ dtb, keepSubtree L junk ori flag fuel h node = .ok h₁
      ∧ Asked junk { h with stringBuf := fullPath p } nodes flag h₁
      ∧ SubtreeKeys R ori p nodes
      ∧ fdtgenGenerate L fuel h₁ ori = .ok (0, h₂, dtb)
      ∧ Generated R (L.openInto ori h.bufsize).2 h₁ h₂ dtb := by
  have hb : Readable R ori := ⟨hL, hT.wf, hT.path_lt⟩
  have hdeep : DeepEnough R ori p fuel := by
    intro r hr _
    have hlt := hT.path_lt r hr
    have hle := length_le_pathStr r
    unfold subtreeBound generateBound maxFullPathLength at hfuel
    unfold maxFullPathLength at hlt
    omega
  obtain ⟨h₁, nodes, hrun, ha, hkeys⟩ := hb.keepSubtree_ok junk
    flag (h := h) hp hnode hdeep hfit
  obtain ⟨h₂, dtb, hgen, hG⟩ :=
    subtree_generated hL hR hT hf hfits hrun ha
    hkeys hfuel
  exact ⟨h₁, nodes, h₂, dtb, hrun, ha, hkeys, hgen, hG⟩

variable (junk flag) in
/-- The subtree of a node other than the root is kept. -/
theorem below_kept (hL : L.Documented R) (hR : L.Refuses R)
    (hT : WellFormed (R.tree ori)) (hf : Fresh h)
    (hfits : BufferFits R ori h.bufsize) (hp : p ∈ (R.tree ori).paths)
    (hne : p ≠ []) (hnode : L.pathOffset ori node = R.off ori p)
    (hfuel : subtreeBound (R.tree ori) h ≤ fuel) :
    ∃ h₁ h₂ dtb, keepSubtree L junk ori flag fuel h node = .ok h₁
      ∧ fdtgenGenerate L fuel h₁ ori = .ok (0, h₂, dtb)
      ∧ SubtreeKept (R.tree ori) p flag (R.tree dtb) := by
  obtain ⟨htree, -⟩ := opened hL hT hfits
  have hpre : subtreePre p = [] := if_neg hne
  have hfit : ∀ q ∈ (R.tree ori).paths, p <+: q → q ≠ p →
      (subtreePre p ++ pathStr q).length < maxFullPathLength := by
    intro q hq _ _
    rw [hpre]
    exact hT.path_lt q hq
  obtain ⟨h₁, nodes, h₂, dtb, hrun, ha, hkeys, hgen, hG⟩ :=
    subtree_requested junk flag hL hR hT hf hfits hp
      hnode hfit hfuel
  refine ⟨h₁, h₂, dtb, hrun, hgen, ?_⟩
  have hiff : SubtreeKept _ p flag _ ↔ _ := hG.subtreeKept_iff
  rw [htree] at hiff
  refine hiff.2 ?_
  intro q hq hpq
  have hfind := ha.findNode_below hkeys hne hq hpq
  refine ⟨.request (by rw [htree]; exact hq) ?_, ?_⟩
  · unfold InTable
    rw [hfind]
    rfl
  · rintro rfl _
    refine .inl (((hf.keepSubtree hrun).due_iff q).2 ?_)
    rw [hfind]
    rfl

/-- When the subtree of the root is. -/
theorem root_kept_iff (hL : L.Documented R) (hR : L.Refuses R)
    (hT : WellFormed (R.tree ori)) (hf : Fresh h)
    (hfits : BufferFits R ori h.bufsize)
    (hnode : L.pathOffset ori node = R.off ori [])
    (hfuel : subtreeBound (R.tree ori) h ≤ fuel) :
    (∃ h₁ h₂ dtb, keepSubtree L junk ori flag fuel h node = .ok h₁
        ∧ fdtgenGenerate L fuel h₁ ori = .ok (0, h₂, dtb)
        ∧ SubtreeKept (R.tree ori) [] flag (R.tree dtb))
      ↔ RootKept R (L.openInto ori h.bufsize).2 junk flag h := by
  have hb : Readable R ori := ⟨hL, hT.wf, hT.path_lt⟩
  obtain ⟨htree, -⟩ := opened hL hT hfits
  -- what the generated tree holds, in terms of the earlier requests
  have hkept : ∀ h₁ nodes h₂ dtb,
      Asked junk { h with stringBuf := fullPath [] } nodes flag h₁ →
      SubtreeKeys R ori [] nodes →
      Generated R (L.openInto ori h.bufsize).2 h₁ h₂ dtb →
      (SubtreeKept (R.tree ori) [] flag (R.tree dtb)
        ↔ ∀ q ∈ (R.tree ori).paths, KeepFrom
            (R.tree (L.openInto ori h.bufsize).2) (InTable h.nodesTable)
            (fun p => Seed R (L.openInto ori h.bufsize).2 h.nodesTable p
              ∨ RootLeftover R (L.openInto ori h.bufsize).2 junk h p) q
          ∧ (flag = .keepAndDisable → q ≠ [] →
            due h.nodesTable q = true
              ∨ statusDisabled (R.tree (L.openInto ori h.bufsize).2) q)) := by
    intro h₁ nodes h₂ dtb ha hkeys hG
    rw [← htree, hG.subtreeKept_iff]
    refine forall_congr' fun q => forall_congr' fun hq => ?_
    have hdue : due h₁.nodesTable q = due h.nodesTable q := by
      unfold due
      rw [ha.findNode_root hT.wf hkeys (htree ▸ hq)]
    rw [ha.asks_root htree hT.wf hf hkeys, hdue]
    exact ⟨fun hall => hall List.nil_prefix, fun hall _ => hall⟩
  constructor
  · rintro ⟨h₁, h₂, dtb, hrun, hgen, hsub⟩
    have hfit := hb.keepSubtree_fits hT.wf.root hnode hrun
    obtain ⟨h₁', nodes, h₂', dtb', hrun', ha, hkeys, hgen', hG⟩ :=
      subtree_requested junk flag hL hR hT hf hfits
        hT.wf.root hnode hfit hfuel
    rw [hrun, Except.ok.injEq] at hrun'
    subst hrun'
    rw [hgen, Except.ok.injEq, Prod.mk.injEq, Prod.mk.injEq] at hgen'
    obtain ⟨-, rfl, rfl⟩ := hgen'
    have hall := (hkept h₁ nodes h₂ dtb ha hkeys hG).1 hsub
    refine ⟨?_, ?_, ?_⟩
    · intro q hq
      by_cases hq0 : q = []
      · rw [hq0]
        decide
      · exact hfit q (htree ▸ hq) List.nil_prefix hq0
    · intro q hq
      exact (hall q (htree ▸ hq)).1
    · intro hflag q hq hne
      exact (hall q (htree ▸ hq)).2 hflag hne
  · intro hroot
    have hfit : ∀ q ∈ (R.tree ori).paths, [] <+: q → q ≠ [] →
        (subtreePre [] ++ pathStr q).length < maxFullPathLength :=
      fun q hq _ _ => hroot.fits q (by rw [htree]; exact hq)
    obtain ⟨h₁, nodes, h₂, dtb, hrun, ha, hkeys, hgen, hG⟩ :=
      subtree_requested junk flag hL hR hT hf hfits
        hT.wf.root hnode hfit hfuel
    refine ⟨h₁, h₂, dtb, hrun, hgen, ?_⟩
    refine (hkept h₁ nodes h₂ dtb ha hkeys hG).2 ?_
    intro q hq
    have hq' : q ∈ (R.tree (L.openInto ori h.bufsize).2).paths := by
      rw [htree]
      exact hq
    exact ⟨hroot.kept q hq', fun hflag => hroot.disabled hflag q hq'⟩

/-- A request for a subtree does what it is for: exactly if it is not that
of the root, or what it should do is done without it. -/
theorem subtree_kept_iff (hL : L.Documented R) (hR : L.Refuses R)
    (hT : WellFormed (R.tree ori)) (hprep : Prepared L h)
    (hfits : BufferFits R ori h.bufsize) (hp : p ∈ (R.tree ori).paths)
    (hnode : L.pathOffset ori node = R.off ori p) :
    ∃ n, ∀ fuel, n ≤ fuel →
      ((∃ h₁ h₂ dtb, keepSubtree L junk ori flag fuel h node = .ok h₁
          ∧ fdtgenGenerate L fuel h₁ ori = .ok (0, h₂, dtb)
          ∧ SubtreeKept (R.tree ori) p flag (R.tree dtb))
        ↔ p ≠ []
          ∨ RootKept R (L.openInto ori h.bufsize).2 junk flag h) := by
  refine ⟨subtreeBound (R.tree ori) h, ?_⟩
  intro fuel hfuel
  by_cases hp0 : p = []
  · subst hp0
    rw [root_kept_iff hL hR hT hprep.fresh hfits hnode hfuel]
    simp
  · have hkept := below_kept junk flag hL hR hT
      hprep.fresh hfits hp hp0 hnode hfuel
    exact iff_of_true hkept (.inl hp0)

end Request

/-- The theorem for the device of the board, on a fresh context. -/
theorem uart_subtree :
    ∃ n, ∀ fuel, n ≤ fuel →
      ((∃ h₁ h₂ dtb, keepSubtree layout (fun _ => 0) board .keepAndDisable
            fuel (fdtgenNewContext 1000) "/uart".toList = .ok h₁
          ∧ fdtgenGenerate layout fuel h₁ board = .ok (0, h₂, dtb)
          ∧ SubtreeKept board.tree ["uart".toList] .keepAndDisable dtb.tree)
        ↔ ["uart".toList] ≠ []
          ∨ RootKept layoutReading (board.openInto 1000).2 (fun _ => 0)
              .keepAndDisable (fdtgenNewContext 1000)) :=
  subtree_kept_iff layout_documented layout_refuses board_wellFormed
    (.new 1000) board_fits (by decide) (by decide +kernel)

/-- A request for the subtree of the root keeps the root alone: there are
three more nodes in the tree. -/
theorem root_subtree_dropped :
    WellFormed board.tree ∧ BufferFits layoutReading board 1000
      ∧ board.tree.paths = [[], ["intc".toList], ["clk".toList],
          ["uart".toList]]
      ∧ generatedPaths ((fdtgenKeepNodeSubtree layout (fun _ => 0) board 6
            (fdtgenNewContext 1000) ['/']).bind
          fun h => fdtgenGenerate layout 6 h board) = some [[]]
      ∧ generatedPaths ((fdtgenKeepNodeSubtreeDisable layout (fun _ => 0)
            board 6 (fdtgenNewContext 1000) ['/']).bind
          fun h => fdtgenGenerate layout 6 h board) = some [[]] := by
  refine ⟨board_wellFormed, board_fits, by decide, ?_, ?_⟩
  · decide +kernel
  · decide +kernel

end ProjectsLibs.Fdtgen
