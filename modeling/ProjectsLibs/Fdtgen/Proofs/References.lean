/-
The references of a generated tree: what the closure follows resolves.

# What is followed

`register_node_dependencies` returns for the root before it has looked at
a property, and reads the first word alone of a `phy-handle`, a
`next-level-cache`, an `interrupt-parent` and an `interrupts-extended`.
So a reference of the root dangles if nothing else keeps what it is to,
and so does a reference that is not the first of an `interrupts-extended`
(`dangling_references`). All the others resolve (`references_resolve`),
whatever the requests are: for the root or for paths that are not there,
for subtrees, and in a buffer that just holds the input and the statuses.

# The argument

What `fdtgen_generate` keeps is closed under the references that are
followed, whether or not a node is kept for them alone. A node that is
kept has its phandle in the result as in the input, and no other node has
it there: phandles are unique in the input. So a reference reads the same
in both trees and leads to the same node.
-/
import ProjectsLibs.Fdtgen.Proofs.Repeat

namespace ProjectsLibs.Fdtgen

open Fdt Lib

-- ========================================================== references

section Resolved

variable {t t' : Tree} {keep disabled : Path → Prop}

/-- Setting one property leaves the values of the others. -/
theorem getProp_of_propSet {name other : CStr} {value : List UInt8}
    {ps ps' : List Property} (h : PropSet name value ps ps')
    (hne : other ≠ name) : getProp ps' other = getProp ps other := by
  obtain ⟨l₁, l₂, hps', -, hps⟩ := h
  have hskip : ∀ pr : Property, pr.name = name →
      getProp (l₁ ++ pr :: l₂) other = getProp (l₁ ++ l₂) other := by
    intro pr hpr
    unfold getProp
    rw [List.find?_append, List.find?_append, List.find?_cons_of_neg]
    rw [hpr, decide_eq_true_eq]
    exact hne.symm
  rw [hps', hskip _ rfl]
  cases hps with
  | inl hold =>
      obtain ⟨old, hname, hps⟩ := hold
      rw [hps, hskip old hname]
  | inr hnew => rw [hnew.1]

/-- A property that is there after one was set was there before, or is the
one. -/
theorem mem_of_propSet {name : CStr} {value : List UInt8}
    {ps ps' : List Property} (h : PropSet name value ps ps')
    {pr : Property} (hpr : pr ∈ ps') : pr ∈ ps ∨ pr.name = name := by
  obtain ⟨l₁, l₂, hps', -, hps⟩ := h
  have hsub : ∀ x, x ∈ l₁ ∨ x ∈ l₂ → x ∈ ps := by
    intro x hx
    cases hps with
    | inl hold =>
        obtain ⟨old, -, rfl⟩ := hold
        rw [List.mem_append, List.mem_cons]
        exact hx.imp_right Or.inr
    | inr hnew =>
        rw [hnew.1]
        exact List.mem_append.2 hx
  rw [hps', List.mem_append, List.mem_cons] at hpr
  obtain h₁ | rfl | h₂ := hpr
  · exact Or.inl (hsub pr (Or.inl h₁))
  · exact Or.inr rfl
  · exact Or.inl (hsub pr (Or.inr h₂))

/-- All properties but the status are as they were. -/
theorem Restricted.getProp_eq (hr : Restricted t keep disabled t')
    {p : Path} (hp : p ∈ t'.paths) {name : CStr}
    (hne : name ≠ "status".toList) :
    getProp (t'.propsAt p) name = getProp (t.propsAt p) name := by
  by_cases hd : disabled p
  · exact getProp_of_propSet (hr.status p hp hd) hne
  · rw [hr.same p hp hd]

theorem Restricted.mem_or (hr : Restricted t keep disabled t')
    {p : Path} (hp : p ∈ t'.paths) {pr : Property}
    (hpr : pr ∈ t'.propsAt p) :
    pr ∈ t.propsAt p ∨ pr.name = "status".toList := by
  by_cases hd : disabled p
  · exact mem_of_propSet (hr.status p hp hd) hpr
  · rw [hr.same p hp hd] at hpr
    exact Or.inl hpr

theorem Restricted.phandleOf_eq (hr : Restricted t keep disabled t')
    {p : Path} (hp : p ∈ t'.paths) :
    phandleOf (t'.propsAt p) = phandleOf (t.propsAt p) := by
  unfold phandleOf getWord
  rw [hr.getProp_eq hp (by decide), hr.getProp_eq hp (by decide)]

/-- A phandle that is found belongs to a node. -/
theorem mem_of_byPhandle {ph : UInt32} {q : Path}
    (hq : t.byPhandle ph = some q) :
    ∃ x ∈ t, phandleOf x.props = some ph ∧ x.path = q := by
  obtain ⟨x, hfind, hxq⟩ := Option.map_eq_some_iff.1 hq
  have hx := List.find?_some hfind
  rw [decide_eq_true_eq] at hx
  exact ⟨x, List.mem_of_find?_eq_some hfind, hx, hxq⟩

/-- A node that is kept keeps its phandle, and no other gets it. -/
theorem Restricted.byPhandle_eq (hr : Restricted t keep disabled t')
    (hT : WellFormed t) {ph : UInt32} {q : Path}
    (hq : t.byPhandle ph = some q) (hk : keep q) :
    t'.byPhandle ph = some q := by
  have hnd : t'.paths.Nodup := hr.sublist.nodup hT.wf.nodup
  obtain ⟨x, hx, hxph, hxq⟩ := mem_of_byPhandle hq
  have hqt : q ∈ t.paths := hxq ▸ List.mem_map_of_mem hx
  have hqt' : q ∈ t'.paths := (hr.mem_iff q).2 ⟨hqt, hk⟩
  -- some node of the result has the phandle
  obtain ⟨y, hy, hyq⟩ := List.mem_map.1 hqt'
  have hyph : phandleOf y.props = some ph := by
    rw [← Tree.propsAt_of_nodup hnd hy, hyq, hr.phandleOf_eq hqt', ← hxq,
      Tree.propsAt_of_nodup hT.wf.nodup hx]
    exact hxph
  have hsome : (t'.byPhandle ph).isSome := by
    unfold Tree.byPhandle
    rw [Option.isSome_map, List.find?_isSome]
    exact ⟨y, hy, decide_eq_true hyph⟩
  obtain ⟨r, hr'⟩ := Option.isSome_iff_exists.1 hsome
  -- the first one that has it is the same node of the input
  obtain ⟨z, hzmem, hzph, hzr⟩ := mem_of_byPhandle hr'
  have hzt' : z.path ∈ t'.paths := List.mem_map_of_mem hzmem
  obtain ⟨w, hw, hwz⟩ := List.mem_map.1 ((hr.mem_iff z.path).1 hzt').1
  have hwph : phandleOf w.props = some ph := by
    rw [← Tree.propsAt_of_nodup hT.wf.nodup hw, hwz, ← hr.phandleOf_eq hzt',
      Tree.propsAt_of_nodup hnd hzmem]
    exact hzph
  have heq : w.path = x.path := hT.phandles w hw x hx ph hwph hxph
  rw [hr', ← hzr, ← hwz, heq, hxq]

/-- A list of references reads the same where its providers ask for the
same numbers of cells. -/
theorem phandleList_congr {cells cells' : UInt32 → Option Nat}
    {es : List (UInt32 × Nat)} {bytes : List UInt8}
    (hes : phandleList cells bytes = some es)
    (hsame : ∀ e ∈ es, cells' e.1 = cells e.1) :
    phandleList cells' bytes = some es := by
  induction es generalizing bytes with
  | nil =>
      rw [phandleList_nil hes]
      exact phandleList_empty cells'
  | cons e es ih =>
      obtain ⟨hne, hbe, hc, hrest⟩ := phandleList_cons hes
      refine phandleList_of hne hbe ?_ (ih hrest ?_)
      · rw [hsame e (List.mem_cons_self ..), hc]
      · intro e' he'
        exact hsame e' (List.mem_cons_of_mem _ he')

/-- References to kept nodes read the same in the result. -/
theorem Restricted.propEntries_eq (hr : Restricted t keep disabled t')
    (hT : WellFormed t) {pr : Property} {es : List (UInt32 × Nat)}
    (hes : propEntries t pr = some es)
    (hk : ∀ e ∈ es, ∃ q, t.byPhandle e.1 = some q ∧ keep q) :
    propEntries t' pr = some es := by
  have hcells : ∀ name absent, name ≠ "status".toList → ∀ e ∈ es,
      cellCount t' name absent e.1 = cellCount t name absent e.1 := by
    intro name absent hne e he
    obtain ⟨q, hq, hkq⟩ := hk e he
    have hqt' : q ∈ t'.paths := (hr.mem_iff q).2 ⟨byPhandle_mem hq, hkq⟩
    unfold cellCount
    rw [hq, hr.byPhandle_eq hT hq hkq]
    simp only [hr.getProp_eq hqt' hne]
  unfold propEntries at hes ⊢
  split_ifs at hes ⊢
  · exact phandleList_congr hes (hcells _ _ (by decide))
  · exact phandleList_congr hes (hcells _ _ (by decide))
  · exact hes
  · exact hes

/-- The references of the nodes that are kept resolve in the result, if
what these refer to is kept as well. -/
theorem Restricted.resolves (hr : Restricted t keep disabled t')
    (hclosed : ∀ p q, keep p → p ≠ [] → Edge t p q → keep q)
    (hT : WellFormed t) {p : Path} (hp : p ∈ t'.paths) (hne : p ≠ [])
    {pr : Property} (hpr : pr ∈ t'.propsAt p) :
    ∃ es, propEntries t' pr = some es
      ∧ ∀ e ∈ es, ∃ q, t'.byPhandle e.1 = some q := by
  obtain ⟨hpt, hkp⟩ := (hr.mem_iff p).1 hp
  cases hr.mem_or hp hpr with
  | inl hold =>
      obtain ⟨es, hes, -, hall⟩ := hT.resolves p hpt hne pr hold
      have hkept : ∀ e ∈ es, ∃ q, t.byPhandle e.1 = some q
          ∧ keep q := by
        intro e he
        obtain ⟨q, hq⟩ := hall e he
        exact ⟨q, hq,
          hclosed p q hkp hne ⟨pr, hold, es, hes, e, he, hq⟩⟩
      refine ⟨es, hr.propEntries_eq hT hes hkept, ?_⟩
      intro e he
      obtain ⟨q, hq, hkq⟩ := hkept e he
      exact ⟨q, hr.byPhandle_eq hT hq hkq⟩
  | inr hstatus =>
      refine ⟨[], propEntries_of_not_mem (by rw [hstatus]; decide), ?_⟩
      intro e he
      cases he

variable {L : Libfdt} {R : L.Reading} {ori : L.Blob} {h : Context}
  {junk : CStr → Int} {bufsize fuel₀ : Nat}

/-- The generated tree has no dangling reference among those of its nodes
other than the root. What libfdt does with an offset that is no node's
matters only if the path of a request is not that of a node below the
root. -/
theorem references_resolve {reqs : List (KeepRequest L)}
    (hL : L.Documented R) (hT : WellFormed (R.tree ori))
    (hreq : keepRequests L fuel₀ junk (fdtgenNewContext bufsize) reqs
      = .ok h)
    (hR : (∃ e ∈ h.nodesTable, IsStray (R.tree ori) e) → L.Refuses R)
    (hfits : FitsFor R ori h.nodesTable bufsize) :
    ∃ n, ∀ fuel, n ≤ fuel → ∃ h' dtb,
      fdtgenGenerate L fuel h ori = .ok (0, h', dtb)
      ∧ ∀ p ∈ (R.tree dtb).paths, p ≠ [] →
          ∀ pr ∈ (R.tree dtb).propsAt p,
          ∃ es, propEntries (R.tree dtb) pr = some es
            ∧ ∀ e ∈ es, ∃ q, (R.tree dtb).byPhandle e.1 = some q := by
  obtain ⟨hf, hsize⟩ := keepRequests_fresh (fresh_new bufsize) hreq
  have hsize : h.bufsize = bufsize := hsize
  subst hsize
  obtain ⟨htree, -⟩ := hL.openInto_ok ori h.bufsize hT.wf hfits.size_le
  -- an entry that names no node below the root is ignored or leads to one
  have hready : Ready R (L.openInto ori h.bufsize).2 h := by
    by_cases hstray : ∃ e ∈ h.nodesTable, IsStray (R.tree ori) e
    · exact hf.ready_any (hR hstray) (htree ▸ hT.wf)
    · refine hf.ready fun e he hs => ?_
      rw [htree] at hs
      exact absurd ⟨e, he, hs⟩ hstray
  refine ⟨generateBound (R.tree ori) + h.nodesTable.length, ?_⟩
  intro fuel hfuel
  obtain ⟨h', dtb, hrun, hgen⟩ := generate_ready hL hT hfits hready hfuel
  refine ⟨h', dtb, hrun, ?_⟩
  intro p hp hne pr hpr
  have hrest := hgen.restricted
  rw [htree] at hrest
  refine hrest.resolves ?_ hT hp hne hpr
  intro p q hkp hp0 hedge
  exact hkp.edge hp0 (htree ▸ hedge)

end Resolved

-- ============================================================ the boards

/-- The device of the board is asked for, the root, and a node that is not
there. -/
def strayRequest : List (KeepRequest layout) :=
  [.nodes .keep ["/".toList, "/nope".toList],
   .subtree .keepAndDisable board "/uart".toList]

/-- The references of the board's device resolve, in a buffer that just
holds the board and one status. -/
theorem references_resolve_sample :
    ∃ h, keepRequests layout 5 (fun _ => 7)
        (fdtgenNewContext (board.used + setSize "status".toList
          "disabled".toList)) strayRequest = .ok h
      ∧ ∃ n, ∀ fuel, n ≤ fuel → ∃ h' dtb,
        fdtgenGenerate layout fuel h board = .ok (0, h', dtb)
        ∧ ∀ p ∈ dtb.tree.paths, p ≠ [] →
            ∀ pr ∈ dtb.tree.propsAt p,
            ∃ es, propEntries dtb.tree pr = some es
              ∧ ∀ e ∈ es, ∃ q, dtb.tree.byPhandle e.1 = some q := by
  have hreq : keepRequests layout 5 (fun _ => 7)
      (fdtgenNewContext (board.used + setSize "status".toList
        "disabled".toList)) strayRequest = .ok _ := rfl
  refine ⟨_, hreq, references_resolve (R := layoutReading)
    layout_documented board_wellFormed hreq (fun _ => layout_refuses) ?_⟩
  show board.used + dues board.tree _ * setSize _ _ ≤ board.used + _
  decide +kernel

/-- Two interrupt controllers and a device with an interrupt of each. -/
def twoParents : Blob where
  tree :=
    [⟨[], []⟩,
     ⟨["pic".toList], [⟨"phandle".toList, [0, 0, 0, 1]⟩,
       ⟨"#interrupt-cells".toList, [0, 0, 0, 1]⟩]⟩,
     ⟨["gic".toList], [⟨"phandle".toList, [0, 0, 0, 2]⟩,
       ⟨"#interrupt-cells".toList, [0, 0, 0, 1]⟩]⟩,
     ⟨["dev".toList], [⟨"interrupts-extended".toList,
       [0, 0, 0, 1, 0, 0, 0, 5, 0, 0, 0, 2, 0, 0, 0, 7]⟩]⟩]
  strings := ["phandle".toList, "#interrupt-cells".toList,
    "interrupts-extended".toList]
  total := 500

/-- The sample with two interrupt parents is well formed. -/
theorem twoParents_wellFormed : WellFormed twoParents.tree := by
  refine ⟨?_, ?_, by decide, ?_⟩
  · exact Tree.Wf.of_checks (by decide) (by decide +kernel)
      (by decide) (by decide +kernel) (by decide +kernel)
  · exact uniquePhandles_of (by decide)
  · have hprops : ∀ p ∈ twoParents.tree.paths, p ≠ [] →
        ∀ pr ∈ twoParents.tree.propsAt p, pr.name ∉ propsWithDep
          ∨ propEntries twoParents.tree pr = some [(1, 0)] := by
      decide
    intro p hp hne pr hpr
    cases hprops p hp hne pr hpr with
    | inl hname =>
        exact ⟨[], propEntries_of_not_mem hname, by decide, by simp⟩
    | inr heq =>
        refine ⟨[(1, 0)], heq, by decide, ?_⟩
        intro e he
        rw [List.mem_singleton.1 he]
        exact ⟨["pic".toList], by decide⟩

/-- What a run that returns 0 has left of a property, and whether a node
of the result has the phandle. -/
def leftOf (path : Path) (name : CStr) (ph : UInt32) :
    Except Fault (Int × Context × Blob) →
      Option (Option (List UInt8) × Bool)
  | .ok (0, _, dtb) =>
      some (getProp (dtb.tree.propsAt path) name,
        (dtb.tree.byPhandle ph).isSome)
  | _ => none

/-- Two references that dangle: the interrupt controller that the root
names and the second one of a device are there in the input, and not in
the results, where both properties are as they were. -/
theorem dangling_references :
    (WellFormed board.tree
      ∧ board.tree.byPhandle 1 = some ["intc".toList]
      ∧ ∃ h, keepRequests layout 0 (fun _ => 0) (fdtgenNewContext 1000)
          [.nodes .keep ["/uart".toList]] = .ok h
        ∧ leftOf [] "interrupt-parent".toList 1
            (fdtgenGenerate layout 5 h board)
          = some (some [0, 0, 0, 1], false))
    ∧ WellFormed twoParents.tree
      ∧ twoParents.tree.byPhandle 2 = some ["gic".toList]
      ∧ ∃ h, keepRequests layout 0 (fun _ => 0) (fdtgenNewContext 1000)
          [.nodes .keep ["/dev".toList]] = .ok h
        ∧ leftOf ["dev".toList] "interrupts-extended".toList 2
            (fdtgenGenerate layout 5 h twoParents)
          = some (some [0, 0, 0, 1, 0, 0, 0, 5, 0, 0, 0, 2, 0, 0, 0, 7],
              false) := by
  refine ⟨⟨board_wellFormed, by decide, _, rfl, ?_⟩,
    twoParents_wellFormed, by decide, _, rfl, ?_⟩
  · decide +kernel
  · decide +kernel

end ProjectsLibs.Fdtgen
