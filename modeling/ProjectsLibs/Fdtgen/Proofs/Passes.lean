/-
The passes of `fdtgen_generate` by themselves, each on the root and with an
empty `string_buf`.

`trim_tree` cuts the tree down to the nodes that have entries all the way
up (`trimTree_restricts_iff`). `find_nodes_to_keep` enters the ancestors of
the requested nodes (`findNodesToKeep_closes_iff`); each of its calls tells
from the requests alone whether there is one further down, although the
table it looks them up in grows meanwhile.

# What decides that they stop

Neither pass tests that a path fits into `string_buf`. For each there is
a statement in two directions: if all paths at and below the nodes that
it comes to fit, it stops and does what is wanted, and if it stops, they
have fit. `Ended` carries the second one through the third pass, where
nodes are removed while the walk goes on, so that it has to be said which
paths have been written and which nodes are gone. For the first pass the
calls that a call leads to are listed (`FindCall`): each of them has the
path of its node in the buffer, and what it finds out is a property of
the requests below that node.
-/
import ProjectsLibs.Fdtgen.Proofs.Closure

namespace ProjectsLibs.Fdtgen

open Fdt Lib

-- ============================================================ trim_tree

section Trim

variable {L : Libfdt} {R : L.Reading} {b : L.Blob} {h : Context}

/-- Before the walk a status is due wherever the entry asks for it. -/
theorem due_of_unvisited {table : List PathNode}
    (hcnt : ∀ e ∈ table, e.cnt = 0) (p : Path) :
    due table p = true
      ↔ ∃ e, findNode table (pathStr p) = some e
        ∧ e.flag = .keepAndDisable := by
  unfold due
  rw [Option.any_eq_true]
  refine exists_congr fun e => and_congr_right fun he => ?_
  rw [decide_eq_true_eq]
  exact and_iff_left (hcnt e (List.mem_of_find?_eq_some he))

variable {P : Path} {passed rest : List Path} {h' : Context} {b' : L.Blob}
  {n : CStr} {child : Int} {fuel : Nat}

/-- The walk has got past a child whose path fits. -/
theorem Walkable.short_of_trimFrom {r : Context × L.Blob}
    (hb : Walkable R b) (hc : P ++ [n] ∈ (R.tree b).paths)
    (hbuf : h.stringBuf = pathStr P)
    (hrun : trimFrom L (fuel + 1) h b (R.off b P) (R.off b (P ++ [n]))
      = .ok r) : Short (P ++ [n]) := by
  have hnonneg := hb.doc.off_nonneg b _ hb.wf hc
  rw [trimFrom, if_neg (by omega), hbuf] at hrun
  obtain ⟨s, hstr, -⟩ := bind_eq_ok hrun
  exact hb.short_of_strcatChild hc hstr

/-- What a walk below `P` over the nodes of `rest` has done when it comes
to its end. The paths that it has come to have fit. -/
structure Ended (R : L.Reading) (P : Path) (rest : List Path) (h : Context)
    (b : L.Blob) (h' : Context) (b' : L.Blob) : Prop where
  trimmed : Trimmed R P h b h' b'
  walkable : Walkable R b'
  room : Room R h' b'
  short : ∀ x ∈ (R.tree b).paths, (∃ d ∈ rest, d <+: x) →
    Reached h.nodesTable P x → Short x

/-- A change, and the level from its start: the nodes that are gone have
no entry. -/
theorem Ended.restart {h₁ : Context} {b₁ : L.Blob} {c : Path}
    {cs : List Path}
    (he : Ended R P ((R.tree b₁).children P) h₁ b₁ h' b')
    (hb₁ : Walkable R b₁) (ht : Trimmed R P h b h₁ b₁)
    (hshort : Short c)
    (hgone : ∀ x ∈ (R.tree b).paths, x ∉ (R.tree b₁).paths →
      c <+: x ∧ ¬InTable h.nodesTable c)
    (hPc : P <+: c) (hcP : c ≠ P) : Ended R P (c :: cs) h b h' b' := by
  refine ⟨ht.trans he.trimmed, he.walkable, he.room, ?_⟩
  intro x hx _ hr
  by_cases hx₁ : x ∈ (R.tree b₁).paths
  · apply he.short x hx₁
    · exact (Tree.below_iff_children hb₁.wf hx₁).2 ⟨hr.1, hr.2.1⟩
    · exact ht.table.reached_iff.2 hr
  · obtain ⟨hcx, hout⟩ := hgone x hx hx₁
    by_cases hxc : c = x
    · exact hxc ▸ hshort
    · exact absurd (hr.2.2 c hPc hcP hcx hxc) hout

/-- What is come to below a child. -/
theorem Reached.below {table : List PathNode} {x : Path}
    (hr : Reached table P x) (hpre : P ++ [n] <+: x) (hne : x ≠ P ++ [n]) :
    Reached table (P ++ [n]) x := by
  refine ⟨hpre, hne, ?_⟩
  intro m hnm _ hmx hmne
  apply hr.2.2 m ((List.prefix_append P [n]).trans hnm) ?_ hmx hmne
  intro heq
  have hle := hnm.length_le
  rw [heq, List.length_append, List.length_singleton] at hle
  omega

/-- A walk below a child, and the walk over the children after it. -/
theorem Ended.enter {h₁ : Context} {b₁ : L.Blob} {cs : List Path}
    (hw : (R.tree b).Wf) (hshort : Short (P ++ [n]))
    (hdue : due h.nodesTable (P ++ [n]) = false)
    (he₁ : Ended R (P ++ [n]) ((R.tree b).children (P ++ [n]))
      { visit h (P ++ [n]) with stringBuf := pathStr (P ++ [n]) } b h₁ b₁)
    (he₂ : Ended R P cs { h with nodesTable := h₁.nodesTable } b₁ h' b') :
    Ended R P ((P ++ [n]) :: cs) h b h' b' := by
  have hvisit : Trimmed R (P ++ [n]) h b (visit h (P ++ [n])) b :=
    Trimmed.visit hdue
  have ht₁ : Trimmed R (P ++ [n]) h b
      { h with nodesTable := h₁.nodesTable } b₁ :=
    hvisit.trans (he₁.trimmed.rebase (h := visit h (P ++ [n])) rfl)
  refine ⟨ht₁.up.trans he₂.trimmed, he₂.walkable, he₂.room, ?_⟩
  intro x hx hex hr
  by_cases hpre : P ++ [n] <+: x
  · by_cases hne : x = P ++ [n]
    · exact hne ▸ hshort
    · apply he₁.short x hx
        ((Tree.below_iff_children hw hx).2 ⟨hpre, hne⟩)
      exact (counted_visit h (P ++ [n])).reached_iff.2 (hr.below hpre hne)
  · obtain ⟨d, hd, hdx⟩ := hex
    have hd : d ∈ cs := by
      rcases List.mem_cons.1 hd with heq | hd
      · exact absurd (heq ▸ hdx) hpre
      · exact hd
    have hx₁ : x ∈ (R.tree b₁).paths := by
      by_contra hgone
      obtain ⟨m, hnm, -, hmx, -⟩ := ht₁.gone x hx hgone
      exact hpre (hnm.trans hmx)
    exact he₂.short x hx₁ ⟨d, hd, hdx⟩ (ht₁.table.reached_iff.2 hr)

/-- A walk that comes to its end has written no path that does not fit. -/
theorem Walkable.trimFrom_ended (hb : Walkable R b)
    (hP : P ∈ (R.tree b).paths) (hroom : Room R h b)
    (hbuf : h.stringBuf = pathStr P) (hcur : Cursor R b P passed rest child)
    (hrun : trimFrom L fuel h b (R.off b P) child = .ok (h', b')) :
    Ended R P rest h b h' b' := by
  induction fuel generalizing P h b child passed rest h' b' with
  | zero => cases hrun
  | succ fuel ih =>
      cases rest with
      | nil =>
          rw [trimFrom, if_pos (hcur.atEnd rfl), Except.ok.injEq,
            Prod.mk.injEq] at hrun
          obtain ⟨rfl, rfl⟩ := hrun
          refine ⟨Trimmed.refl h b, hb, hroom, ?_⟩
          intro x _ hex
          obtain ⟨d, hd, -⟩ := hex
          cases hd
      | cons c cs =>
          have hchild := hcur.atChild c cs rfl
          subst hchild
          have hmem : c ∈ (R.tree b).children P := by
            rw [hcur.split]
            exact List.mem_append_right _ (List.mem_cons_self ..)
          obtain ⟨hc, n, rfl⟩ := Tree.mem_children.1 hmem
          have hshort := hb.short_of_trimFrom hc hbuf hrun
          have hPc := List.prefix_append P [n]
          have hcP : P ++ [n] ≠ P := by simp
          -- three things can happen to a child: it is removed, it is
          -- disabled, or the walk goes into it; after the first two the
          -- walk begins again at the first child
          cases hfind : findNode h.nodesTable (pathStr (P ++ [n])) with
          | none =>
              obtain ⟨b₁, hdel, ht, hb₁, hroom₁, -, htree⟩ :=
                hb.remove hc hfind hroom
              rw [hb.trimFrom_remove hc hshort hbuf hfind hdel
                (ht.off P List.prefix_rfl)] at hrun
              have hP₁ := ht.mem_self hP
              refine (ih hb₁ hP₁ hroom₁ hbuf (hb₁.cursor_first hP₁)
                hrun).restart hb₁ ht hshort ?_ hPc hcP
              intro x hx hx₁
              rw [htree, Tree.mem_paths_remove] at hx₁
              refine ⟨by_contra fun hnot => hx₁ ⟨hx, hnot⟩, ?_⟩
              unfold InTable
              rw [hfind]
              simp
          | some e =>
              have hin : InTable h.nodesTable (P ++ [n]) := by
                unfold InTable
                rw [hfind]
                rfl
              cases hdue : due h.nodesTable (P ++ [n]) with
              | true =>
                  obtain ⟨b₁, hset, ht, hb₁, hroom₁, -, hpaths⟩ :=
                    hb.setStatus hc (by simp) hPc hdue hroom
                  rw [hb.trimFrom_status hc hshort hbuf hfind hdue hset
                    (ht.off P List.prefix_rfl)] at hrun
                  have hP₁ := ht.mem_self hP
                  refine (ih hb₁ hP₁ hroom₁ hbuf
                    (hb₁.cursor_first hP₁)
                    hrun).restart hb₁ ht hshort ?_ hPc hcP
                  intro x hx hx₁
                  exact absurd (hpaths ▸ hx) hx₁
              | false =>
                  rw [hb.trimFrom_enter hc hshort hbuf hin hdue] at hrun
                  obtain ⟨⟨h₁, b₁⟩, hrun₁, hrun₂⟩ :=
                    bind_eq_ok hrun
                  have hroom₁ : Room R
                      { visit h (P ++ [n]) with
                        stringBuf := pathStr (P ++ [n]) } b :=
                    hroom.of_due fun _ _ _ hd => due_of_visit hd
                  have he₁ :=
                    ih hb hc hroom₁ rfl (hb.cursor_first hc) hrun₁
                  have ht₁ := he₁.trimmed
                  have hback : { h₁ with
                      stringBuf := h₁.stringBuf.take (pathStr P).length }
                      = { h with nodesTable := h₁.nodesTable } := by
                    rw [ht₁.context]
                    simp only [take_pathStr]
                    rw [← hbuf]
                    rfl
                  dsimp only at hrun₂
                  rw [hback, ← ht₁.off P hPc,
                    ← ht₁.off _ List.prefix_rfl]
                    at hrun₂
                  have hP₁ : P ∈ (R.tree b₁).paths := ht₁.up.mem_self hP
                  have hcur₁ : Cursor R b₁ P (passed ++ [P ++ [n]]) cs
                      (L.nextSubnode b₁ (R.off b₁ (P ++ [n]))) := by
                    apply he₁.walkable.cursor_next hP₁
                    rw [ht₁.children_eq hb.wf, hcur.split]
                  exact Ended.enter hb.wf hshort hdue he₁
                    (ih he₁.walkable hP₁ he₁.room hbuf hcur₁ hrun₂)

/-- A tree has a deepest node. -/
theorem exists_deepEnough (R : L.Reading) (b : L.Blob) :
    ∃ d, DeepEnough R b [] d := by
  obtain ⟨d, hd⟩ := exists_common_bound
    (P := fun (r : Path) n => r.length < n)
    (fun r n m hnm hlt => Nat.lt_of_lt_of_le hlt hnm)
    (fun (r : Path) (_ : r ∈ (R.tree b).paths) =>
      ⟨r.length + 1, Nat.lt_succ_self _⟩)
  refine ⟨d, fun r hr _ => ?_⟩
  rw [List.length_nil, Nat.zero_add]
  exact hd d (Nat.le_refl d) r hr

/-- `trim_tree` from the root stops, and leaves the nodes that have entries
all the way up: as they were, but for the status of those that are to be
disabled. It needs a `string_buf` for the paths of the nodes that it comes
to, and no more. -/
theorem trimTree_restricts_iff (hL : L.Documented R) (hw : (R.tree b).Wf)
    (hroom : Room R h b) (hcnt : ∀ e ∈ h.nodesTable, e.cnt = 0)
    (hbuf : h.stringBuf = []) :
    (∃ n, ∀ fuel, n ≤ fuel → ∃ h' b',
      trimTree L fuel h b (R.off b []) = .ok (h', b')
        ∧ Restricted (R.tree b)
          (fun p => ∀ m, m <+: p → m ≠ [] → InTable h.nodesTable m)
          (fun p => p ≠ []
            ∧ ∃ e, findNode h.nodesTable (pathStr p) = some e
            ∧ e.flag = .keepAndDisable) (R.tree b')
        ∧ h'.stringBuf = [])
      ↔ ShortBelow (R.tree b) h.nodesTable [] := by
  have hb : Walkable R b := ⟨hL, hw⟩
  constructor
  · intro hends
    obtain ⟨n, hn⟩ := hends
    obtain ⟨h', b', hrun, -⟩ := hn n (Nat.le_refl n)
    have hended := hb.trimFrom_ended hw.root hroom hbuf
      (hb.cursor_first hw.root) hrun
    intro x hx hr
    apply hended.short x hx _ hr
    exact (Tree.below_iff_children hw hx).2 ⟨hr.1, hr.2.1⟩
  · intro hshort
    obtain ⟨d, hd⟩ := exists_deepEnough R b
    refine ⟨walkBound (R.tree b).length d (R.tree b).length d
      (R.tree b).length, fun fuel hfuel => ?_⟩
    obtain ⟨h', b', hrun, ht, hb', hopen, -⟩ :=
      hb.trimTree_ok hbuf hshort hroom hd hfuel
    refine ⟨h', b', hrun, ?_, ?_⟩
    · apply (ht.restricted hb' hopen).congr
      · intro p _
        rfl
      · intro p _
        rw [due_of_unvisited hcnt]
    · rw [ht.context]
      exact hbuf

/-- The table of the board's requests. -/
def uartRequested : Context :=
  request (fun _ => 0) (fdtgenNewContext 500) boardRequest

/-- The board cut down to the device, which is disabled. -/
theorem board_trimmed :
    ∃ n, ∀ fuel, n ≤ fuel → ∃ h' b',
      trimTree layout fuel uartRequested board (layoutReading.off board [])
          = .ok (h', b')
        ∧ Restricted board.tree
          (fun p => ∀ m, m <+: p → m ≠ [] →
            InTable uartRequested.nodesTable m)
          (fun p => p ≠ [] ∧ ∃ e,
            findNode uartRequested.nodesTable (pathStr p) = some e
              ∧ e.flag = .keepAndDisable) b'.tree
        ∧ h'.stringBuf = [] := by
  refine (trimTree_restricts_iff (R := layoutReading) (b := board)
    layout_documented board_wellFormed.wf ?_ ?_ rfl).2 fun x hx _ =>
      board_wellFormed.path_lt x hx
  · show board.used + dues board.tree uartRequested.nodesTable * setSize _ _
      ≤ 500
    decide +kernel
  · intro e he
    rw [List.mem_singleton.1 he]

end Trim

-- =================================================== find_nodes_to_keep

section Find

/-- The calls of `find_nodes_to_keep` that a call leads to, itself
included: the one for `child` is made when the children before it have
been passed, with its name appended. -/
inductive FindCall (L : Libfdt) (dtb : L.Blob) :
    Nat → Context → Int → Nat → Context → Int → Prop
  | here {fuel : Nat} {h : Context} {offset : Int} :
      FindCall L dtb fuel h offset fuel h offset
  | descend {fuel fuel' : Nat} {h h₁ h' : Context}
      {offset child offset' : Int} {before after : List Int} {find : Bool}
      {curr : CStr} :
      L.subnodes dtb offset = before ++ child :: after →
      before.foldlM (fun s c =>
          findChild L dtb (findNodesToKeep L dtb fuel) s.1 s.2 c) (false, h)
        = .ok (find, h₁) →
      strcatChild h₁.stringBuf (L.getName dtb child) = .ok curr →
      FindCall L dtb fuel { h₁ with stringBuf := curr } child
        fuel' h' offset' →
      FindCall L dtb (fuel + 1) h offset fuel' h' offset'

/-- The table is closed under ancestors: what `find_nodes_to_keep` is to
make of `h`. -/
structure Closes {L : Libfdt} (R : L.Reading) (b : L.Blob)
    (h h' : Context) : Prop where
  context : h' = { h with nodesTable := h'.nodesTable }
  inTable : ∀ p ∈ (R.tree b).paths, p ≠ [] →
    (InTable h'.nodesTable p
      ↔ ∃ r ∈ (R.tree b).paths, p <+: r ∧ InTable h.nodesTable r)
  offset : ∀ p ∈ (R.tree b).paths, p ≠ [] → ∀ e,
    findNode h'.nodesTable (pathStr p) = some e → e.offset = R.off b p
  present : ∀ key e, findNode h.nodesTable key = some e →
    ∃ e', findNode h'.nodesTable key = some e' ∧ e'.flag = e.flag
      ∧ e'.cnt = e.cnt
  absent : ∀ e, IsStray (R.tree b) e →
    (e ∈ h'.nodesTable ↔ e ∈ h.nodesTable)
  buf : h'.stringBuf = []

/-- What `find_nodes_to_keep` is to do from the root: it comes to its end
and closes the table, and each of its calls finds out whether there is a
request further down. -/
def FindsRight {L : Libfdt} (R : L.Reading) (b : L.Blob) (h : Context) :
    Prop :=
  ∃ n, ∀ fuel, n ≤ fuel → ∃ found h',
    findNodesToKeep L b fuel h (R.off b []) = .ok (found, h')
      ∧ Closes R b h h'
      ∧ ∀ fuel₁ h₁ offset,
          FindCall L b fuel h (R.off b []) fuel₁ h₁ offset →
          ∃ P ∈ (R.tree b).paths, offset = R.off b P
            ∧ h₁.stringBuf = pathStr P
            ∧ ∃ found₁ h₂,
                findNodesToKeep L b fuel₁ h₁ offset = .ok (found₁, h₂)
                ∧ (found₁ = true ↔ ∃ r ∈ (R.tree b).paths,
                    P <+: r ∧ r ≠ P ∧ InTable h.nodesTable r)

variable {L : Libfdt} {R : L.Reading} {b : L.Blob} {P : Path}
  {h h' : Context} {fuel : Nat}

/-- Entries made on the way make no request further down. -/
theorem Marked.wantedBelow_iff {S : Path → Prop}
    {table table' : List PathNode} (hw : (R.tree b).Wf)
    (hm : Marked R b S table table') :
    WantedBelow (R.tree b) table' P ↔ WantedBelow (R.tree b) table P := by
  constructor
  · intro hbelow
    obtain ⟨r, hr, hPr, hne, hin⟩ := hbelow
    obtain ⟨r', hr', hrr, hin'⟩ := hm.wanted_of_inTable hw hr hin
    refine ⟨r', hr', hPr.trans hrr, ?_, hin'⟩
    intro heq
    exact hne ((heq ▸ hrr).eq_of_length_le hPr.length_le)
  · intro hbelow
    obtain ⟨r, hr, hPr, hne, hin⟩ := hbelow
    exact ⟨r, hr, hPr, hne, hm.inTable hin⟩

/-- Every call is for a node, with its path in `string_buf`, and the table
differs from that of the first call in marks alone. -/
theorem Readable.findCall (hb : Readable R b) {fuel₁ : Nat} {h₁ : Context}
    {offset : Int} (hP : P ∈ (R.tree b).paths)
    (hd : DeepEnough R b P fuel) (hbuf : h.stringBuf = pathStr P)
    (hcall : FindCall L b fuel h (R.off b P) fuel₁ h₁ offset) :
    ∃ Q ∈ (R.tree b).paths, offset = R.off b Q
      ∧ h₁.stringBuf = pathStr Q ∧ DeepEnough R b Q fuel₁
      ∧ ∀ Q, WantedBelow (R.tree b) h₁.nodesTable Q
          ↔ WantedBelow (R.tree b) h.nodesTable Q := by
  generalize hoff : R.off b P = o at hcall
  induction hcall generalizing P with
  | here => exact ⟨P, hP, hoff.symm, hbuf, hd, fun Q => Iff.rfl⟩
  | @descend fuel fuel' h h₁ h' offset child offset' before after find curr
      hsub hrun hstr _ ih =>
      subst hoff
      rw [hb.doc.subnodes_eq b P hb.wf hP] at hsub
      obtain ⟨done, rest, hl, rfl, hrest⟩ := List.map_eq_append_iff.1 hsub
      obtain ⟨c, rest', rfl, rfl, -⟩ := List.map_eq_cons_iff.1 hrest
      have hmem : c ∈ (R.tree b).children P := by
        rw [hl]
        exact List.mem_append_right _ (List.mem_cons_self ..)
      have hdesc : ∀ c ∈ (R.tree b).children P, ∀ h : Context,
          h.stringBuf = pathStr c →
          FindsBelow R b c h (findNodesToKeep L b fuel h (R.off b c)) := by
        intro c hc h hbuf
        obtain ⟨hmem, n, rfl⟩ := Tree.mem_children.1 hc
        exact hb.findNodesToKeep_ok hmem (hd.child n) hbuf
      obtain ⟨find', table, hrun', hm, -⟩ :=
        hb.findChildren_ok hdesc hbuf hl
      rw [List.foldlM_map, hrun', Except.ok.injEq, Prod.mk.injEq] at hrun
      obtain ⟨-, rfl⟩ := hrun
      obtain ⟨hc, n, rfl⟩ := Tree.mem_children.1 hmem
      rw [hbuf, hb.strcatChild_eq hc, Except.ok.injEq] at hstr
      subst hstr
      obtain ⟨Q, hQ, hoff, hbufQ, hdQ, hiff⟩ := ih hc (hd.child n) rfl rfl
      refine ⟨Q, hQ, hoff, hbufQ, hdQ, fun Q' => ?_⟩
      rw [hiff]
      exact hm.wantedBelow_iff hb.wf

/-- If a child is passed the paths at and below it have fit. -/
theorem Walkable.findChild_fits (hb : Walkable R b)
    {descend : Context → Int → Except Fault (Bool × Context)} {n : CStr}
    {find : Bool} {r : Bool × Context} (hn : P ++ [n] ∈ (R.tree b).paths)
    (hbuf : h.stringBuf = pathStr P)
    (hdesc : ∀ h r, h.stringBuf = pathStr (P ++ [n]) →
      descend h (R.off b (P ++ [n])) = .ok r →
      r.2.stringBuf = h.stringBuf
        ∧ ∀ q ∈ (R.tree b).paths, P ++ [n] <+: q → q ≠ P ++ [n] →
          Short q)
    (hrun : findChild L b descend find h (R.off b (P ++ [n])) = .ok r) :
    r.2.stringBuf = pathStr P
      ∧ ∀ q ∈ (R.tree b).paths, P ++ [n] <+: q → Short q := by
  unfold findChild at hrun
  rw [hbuf] at hrun
  obtain ⟨curr, hstr, hrun⟩ := bind_eq_ok hrun
  have hshort := hb.short_of_strcatChild hn hstr
  rw [hb.strcatChild_eq hn hshort, Except.ok.injEq] at hstr
  subst hstr
  obtain ⟨⟨kept, h₁⟩, hdown, hrun⟩ := bind_eq_ok hrun
  obtain ⟨hbuf₁, hbelow⟩ := hdesc _ _ rfl hdown
  have hbuf₁ : h₁.stringBuf = pathStr (P ++ [n]) := hbuf₁
  refine ⟨?_, ?_⟩
  · rw [Except.ok.injEq] at hrun
    subst hrun
    -- whether or not the child is marked
    simp only [hbuf₁]
    split
    · split
      · exact take_pathStr P n
      · exact take_pathStr P n
    · show h₁.stringBuf.take _ = _
      rw [hbuf₁, take_pathStr]
  · intro q hq hnq
    by_cases hne : q = P ++ [n]
    · exact hne ▸ hshort
    · exact hbelow q hq hnq hne

/-- If `find_nodes_to_keep` comes to its end the paths have fit. -/
theorem Walkable.findNodesToKeep_fits (hb : Walkable R b)
    (hP : P ∈ (R.tree b).paths) (hbuf : h.stringBuf = pathStr P)
    {r : Bool × Context}
    (hrun : findNodesToKeep L b fuel h (R.off b P) = .ok r) :
    r.2.stringBuf = h.stringBuf
      ∧ ∀ q ∈ (R.tree b).paths, P <+: q → q ≠ P → Short q := by
  induction fuel generalizing P h r with
  | zero => cases hrun
  | succ fuel ih =>
      rw [findNodesToKeep, hb.doc.subnodes_eq b P hb.wf hP,
        List.foldlM_map] at hrun
      have hstep : ∀ (s : Bool × Context), ∀ c ∈ (R.tree b).children P,
          ∀ (s' : Bool × Context),
          s.2.stringBuf = pathStr P →
          findChild L b (findNodesToKeep L b fuel) s.1 s.2 (R.off b c)
            = .ok s' →
          s'.2.stringBuf = pathStr P
            ∧ ∀ q ∈ (R.tree b).paths, c <+: q → Short q := by
        intro s c hc s' hs hrun
        obtain ⟨hmem, n, rfl⟩ := Tree.mem_children.1 hc
        exact hb.findChild_fits hmem hs
          (fun _ _ hbuf hrun => ih hmem hbuf hrun) hrun
      obtain ⟨hbuf', hall⟩ := foldlM_ok
        (fun s : Bool × Context => s.2.stringBuf = pathStr P) hbuf
        (fun s c hc s' hs hrun => (hstep s c hc s' hs hrun).1) hrun
      refine ⟨hbuf'.trans hbuf.symm, ?_⟩
      intro q hq hPq hne
      obtain ⟨c, hc, hcq⟩ :=
        (Tree.below_iff_children hb.wf hq).2 ⟨hPq, hne⟩
      obtain ⟨s, s', hs, hrun⟩ := hall c hc
      exact (hstep s c hc s' hs hrun).2 q hq hcq

/-- The table after the walk from the root. -/
theorem Marked.closes {table : List PathNode} (hw : (R.tree b).Wf)
    (hbuf : h.stringBuf = [])
    (hm : Marked R b (fun m => [] <+: m ∧ m ≠ []) h.nodesTable table) :
    Closes R b h { h with nodesTable := table } := by
  refine ⟨rfl, ?_, ?_, ?_, fun e hstray => hm.mem_stray hstray, hbuf⟩
  · intro p hp hne
    exact hm.inTable_iff hw hp hne
  · intro p hp hne e he
    have hin : InTable table p := by
      unfold InTable
      rw [he]
      rfl
    have hwant := (hm.inTable_iff hw hp hne).1 hin
    rw [hm.entry p hp ⟨List.nil_prefix, hne⟩ hwant, Option.some.injEq] at he
    rw [← he]
    exact markedEntry_offset p
  · intro key e he
    by_cases hex : ∃ m ∈ (R.tree b).paths, m ≠ []
        ∧ Wanted (R.tree b) h.nodesTable m ∧ pathStr m = key
    · obtain ⟨m, hmem, hne, hwant, rfl⟩ := hex
      refine ⟨_, hm.entry m hmem ⟨List.nil_prefix, hne⟩ hwant, ?_⟩
      unfold markedEntry
      rw [he]
      exact ⟨rfl, rfl⟩
    · refine ⟨e, ?_, rfl, rfl⟩
      rw [← he]
      apply hm.other
      intro m hmem hS hwant hname
      exact hex ⟨m, hmem, hS.2, hwant, hname⟩

/-- `find_nodes_to_keep` closes the requests under ancestors, for any tree
and any table, if `string_buf` can hold the paths. -/
theorem findNodesToKeep_closes_iff (hL : L.Documented R)
    (hw : (R.tree b).Wf) (hbuf : h.stringBuf = []) :
    FindsRight R b h ↔ ∀ p ∈ (R.tree b).paths, Short p := by
  constructor
  · intro hright
    obtain ⟨n, hn⟩ := hright
    obtain ⟨found, h', hrun, -⟩ := hn n (Nat.le_refl n)
    have hb : Walkable R b := ⟨hL, hw⟩
    have hfits := (hb.findNodesToKeep_fits hw.root hbuf hrun).2
    intro p hp
    by_cases hne : p = []
    · exact hne ▸ short_nil
    · exact hfits p hp List.nil_prefix hne
  · intro hshort
    have hb : Readable R b := ⟨hL, hw, hshort⟩
    refine ⟨maxFullPathLength, fun fuel hfuel => ?_⟩
    have hd : DeepEnough R b [] fuel := by
      intro r hr hpre
      exact Nat.lt_of_lt_of_le (hb.deepEnough r hr hpre) (by omega)
    obtain ⟨found, table, hrun, hm, -⟩ :=
      hb.findNodesToKeep_ok hw.root hd hbuf
    refine ⟨found, _, hrun, hm.closes hw hbuf, ?_⟩
    intro fuel₁ h₁ offset hcall
    obtain ⟨Q, hQ, rfl, hbuf₁, hd₁, hiff⟩ :=
      hb.findCall hw.root hd hbuf hcall
    obtain ⟨found₁, table₁, hrun₁, -, hfound⟩ :=
      hb.findNodesToKeep_ok hQ hd₁ hbuf₁
    exact ⟨Q, hQ, rfl, hbuf₁, found₁, _, hrun₁, hfound.trans (hiff Q)⟩

/-- The board's requests are closed under ancestors. -/
theorem board_closed : FindsRight layoutReading board uartRequested :=
  (findNodesToKeep_closes_iff (R := layoutReading) (b := board)
    layout_documented board_wellFormed.wf rfl).2 board_wellFormed.path_lt

/-- A tree whose one node has a name as long as `string_buf`. -/
def longNamed : Blob where
  tree := [⟨[], []⟩, ⟨[List.replicate maxFullPathLength 'a'], []⟩]
  strings := []
  total := 5000

theorem longNamed_wf : longNamed.tree.Wf := by
  refine Tree.Wf.of_checks (List.mem_cons_self ..) ?_ ?_ ?_ ?_
  · intro p hp
    rcases List.mem_cons.1 hp with rfl | hp
    · exact List.mem_cons_self ..
    · rw [List.mem_singleton.1 hp]
      exact List.mem_cons_self ..
  · intro p hp n hn
    rcases List.mem_cons.1 hp with rfl | hp
    · cases hn
    · rw [List.mem_singleton.1 hp, List.mem_singleton] at hn
      subst hn
      refine ⟨?_, fun hmem => ?_⟩
      · rw [Ne, List.replicate_eq_nil_iff]
        decide
      · exact absurd (List.eq_of_mem_replicate hmem) (by decide)
  · simp [longNamed, Tree.paths]
  · simp [longNamed, Tree.paths, Tree.gapless]

/-- The name does not fit, so the walk does not come to its end. -/
theorem longNamed_overflows :
    longNamed.tree.Wf ∧ (fdtgenNewContext 5000).stringBuf = []
      ∧ ¬FindsRight layoutReading longNamed (fdtgenNewContext 5000) := by
  refine ⟨longNamed_wf, rfl, ?_⟩
  intro hright
  obtain ⟨n, hn⟩ := hright
  obtain ⟨found, h', hrun, -⟩ := hn n (Nat.le_refl n)
  have hb : Walkable layoutReading longNamed :=
    ⟨layout_documented, longNamed_wf⟩
  have hshort := (hb.findNodesToKeep_fits longNamed_wf.root rfl hrun).2
    [List.replicate maxFullPathLength 'a']
    (List.mem_cons_of_mem _ (List.mem_cons_self ..)) List.nil_prefix (by simp)
  unfold Short pathStr at hshort
  rw [List.flatMap_singleton, List.length_cons, List.length_replicate]
    at hshort
  omega

end Find

end ProjectsLibs.Fdtgen
