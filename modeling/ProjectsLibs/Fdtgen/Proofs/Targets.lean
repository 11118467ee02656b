/-
The lists of `dep_table` while dependencies are registered: the list of a
node names targets of that node alone.

`Recorded` is the invariant. Every function that registers keeps it, in a
run that comes to its end: the path that a target is recorded under was
copied before anything was written to `string_buf` by a call further in,
so it is still that of the node whose property is being read.

# Why it is needed

The table of dependencies outlives a call, and a later call on the same
context finds the lists that an earlier one has made. A target that is
listed is taken as followed. So it has to be known that what is listed
for a node are references of that node, and not of another one whose
path was in `string_buf` when the target was recorded. The invariant goes
through the functions in the order in which they call each other, each
under the assumption that it holds of the recursive call.
-/
import ProjectsLibs.Fdtgen.Proofs.Resolve

namespace ProjectsLibs.Fdtgen

open Fdt Lib

/-- `keep_node_and_parents` after the target was found below a child: the
child has an entry. -/
def withChild (h : Context) (curr : CStr) (offset : Int) : Context :=
  match findNode h.nodesTable curr with
  | none =>
      { h with nodesTable := h.nodesTable ++ [⟨curr, offset, 0, .keep⟩] }
  | some _ => h

-- ======================================================== the invariant

section Recorded

variable {L : Libfdt} (R : L.Reading) (b : L.Blob)

/-- `x` is a target that a property of `p` refers to. -/
def IsTarget (t : Tree) (p : Path) (x : DListNode) : Prop :=
  ∃ q, Edge t p q ∧ x.toPath = fullPath q
    ∧ t.byPhandle x.toPhandle = some q

/-- The lists name targets of their own nodes, and the offsets of entries
are those of nodes or lead nowhere. -/
structure Recorded (h : Context) : Prop where
  root : h.rootOffset = R.off b []
  leads : ∀ e ∈ h.nodesTable,
    (∃ p ∈ (R.tree b).paths, e.offset = R.off b p)
      ∨ L.propertyOffsets b e.offset = []
  deps : ∀ d ∈ h.depTable, ∃ p ∈ (R.tree b).paths, p ≠ []
    ∧ d.fromPath = pathStr p ∧ ∀ x ∈ d.toList, IsTarget (R.tree b) p x

variable {R b} {h : Context} {p : Path}

/-- The string buffer has no part in it. -/
theorem Recorded.buf (hr : Recorded R b h) (s : CStr) :
    Recorded R b { h with stringBuf := s } :=
  ⟨hr.root, hr.leads, hr.deps⟩

/-- A node is entered, with its parent's offset. -/
theorem Recorded.enter (hr : Recorded R b h) (hp : p ∈ (R.tree b).paths)
    (key : CStr) (cnt : Nat) (flag : DeviceFlag) :
    Recorded R b { h with
      nodesTable := h.nodesTable ++ [⟨key, R.off b p, cnt, flag⟩] } := by
  refine ⟨hr.root, ?_, hr.deps⟩
  intro e he
  rcases List.mem_append.1 he with he | he
  · exact hr.leads e he
  · rw [List.mem_singleton.1 he]
    exact .inl ⟨p, hp, rfl⟩

/-- A child has an entry then, with its parent's offset. -/
theorem Recorded.withChild (hr : Recorded R b h)
    (hp : p ∈ (R.tree b).paths) (key : CStr) :
    Recorded R b (withChild h key (R.off b p)) := by
  unfold Fdtgen.withChild
  split
  · exact hr.enter hp _ _ _
  · exact hr

/-- A target is added to the list of the node that refers to it. -/
theorem Recorded.addTo (hr : Recorded R b h) (hw : (R.tree b).Wf)
    (hp : p ∈ (R.tree b).paths) {x : DListNode}
    (hx : IsTarget (R.tree b) p x) :
    Recorded R b (addTo h (pathStr p) x) := by
  refine ⟨hr.root, hr.leads, ?_⟩
  intro d hd
  obtain ⟨d', hd', rfl⟩ := List.mem_map.1 hd
  obtain ⟨r, hpaths, hne, hfrom, hall⟩ := hr.deps d' hd'
  by_cases hkey : d'.fromPath = pathStr p
  · rw [if_pos hkey]
    refine ⟨r, hpaths, hne, hfrom, ?_⟩
    intro y hy
    rcases List.mem_append.1 hy with hy | hy
    · exact hall y hy
    · rw [hfrom] at hkey
      rw [List.mem_singleton.1 hy, hw.pathStr_injective hpaths hp hkey]
      exact hx
  · rw [if_neg hkey]
    exact ⟨r, hpaths, hne, hfrom, hall⟩

/-- The list of a node is made, with nothing in it. -/
theorem Recorded.withEntry (hr : Recorded R b h)
    (hp : p ∈ (R.tree b).paths) (hne : p ≠ []) :
    Recorded R b (withEntry h (pathStr p)) := by
  unfold Fdtgen.withEntry
  split
  · refine ⟨hr.root, hr.leads, ?_⟩
    intro d hd
    rcases List.mem_append.1 hd with hd | hd
    · exact hr.deps d hd
    · rw [List.mem_singleton.1 hd]
      exact ⟨p, hp, hne, rfl, by simp⟩
  · exact hr.buf _

end Recorded

-- ======================================================== the functions

section Functions

variable {L : Libfdt} {R : L.Reading} {b : L.Blob} {register : Register}
  {h h' : Context} {p q P : Path} {fuel lim : Nat} {r : Bool × Context}

/-- What a call for a node keeps. -/
def KeepsRecorded (R : L.Reading) (b : L.Blob) (register : Register) :
    Prop :=
  ∀ h, ∀ p ∈ (R.tree b).paths, ∀ h', Recorded R b h →
    register h (R.off b p) = .ok h' → Recorded R b h'

/-- A child that the target was found at or below is entered. -/
theorem Recorded.keepChildren
    {descend : Context → Int → Except Fault (Bool × Context)}
    (hreg : KeepsRecorded R b register) (hP : P ∈ (R.tree b).paths)
    {cs : List Path} (hcs : ∀ c ∈ cs, c ∈ (R.tree b).paths)
    (hdesc : ∀ c ∈ cs, ∀ h r, Recorded R b h →
      descend h (R.off b c) = .ok r → Recorded R b r.2)
    (hr : Recorded R b h)
    (hrun : keepChildren L b register descend (R.off b P) h
      (cs.map (R.off b)) = .ok r) : Recorded R b r.2 := by
  induction cs generalizing h with
  | nil =>
      rw [List.map_nil, Fdtgen.keepChildren, Except.ok.injEq] at hrun
      exact hrun ▸ hr
  | cons c cs ih =>
      rw [List.map_cons, Fdtgen.keepChildren] at hrun
      obtain ⟨curr, -, hrun⟩ := bind_eq_ok hrun
      obtain ⟨⟨keep, h₁⟩, hdown, hrun⟩ := bind_eq_ok hrun
      have hr₁ : Recorded R b h₁ :=
        hdesc c (List.mem_cons_self ..) _ _ (hr.buf curr) hdown
      cases keep with
      | false =>
          exact ih (fun d hd => hcs d (List.mem_cons_of_mem c hd))
            (fun d hd => hdesc d (List.mem_cons_of_mem c hd)) (hr₁.buf _)
            hrun
      | true =>
          have hent := hr₁.withChild hP curr
          simp only [if_true] at hrun
          -- its dependencies are registered if it has no list yet
          split at hrun
          · obtain ⟨h₂, hdep, hrun⟩ := bind_eq_ok hrun
            rw [Except.ok.injEq] at hrun
            subst hrun
            exact (hreg _ c (hcs c (List.mem_cons_self ..)) h₂ hent
              hdep).buf _
          · obtain ⟨h₂, hdep, hrun⟩ := bind_eq_ok hrun
            rw [Except.ok.injEq] at hdep hrun
            subst hdep hrun
            exact hent.buf _

/-- Keeping a node and its parents records the targets of all of them. -/
theorem Recorded.keepNodeAndParents (hL : L.Documented R)
    (hw : (R.tree b).Wf) (hreg : KeepsRecorded R b register)
    (hP : P ∈ (R.tree b).paths) {target : Int} (hr : Recorded R b h)
    (hrun : keepNodeAndParents L b register lim h (R.off b P) target
      = .ok r) : Recorded R b r.2 := by
  induction lim generalizing P h r with
  | zero => cases hrun
  | succ lim ih =>
      rw [Fdtgen.keepNodeAndParents] at hrun
      split at hrun
      · rw [Except.ok.injEq] at hrun
        exact hrun ▸ hr
      · split at hrun
        · rw [Except.ok.injEq] at hrun
          exact hrun ▸ hr
        · rw [hL.subnodes_eq b P hw hP] at hrun
          have hcs : ∀ c ∈ (R.tree b).children P, c ∈ (R.tree b).paths :=
            fun c hc => (Tree.mem_children.1 hc).1
          refine Recorded.keepChildren hreg hP hcs ?_ hr hrun
          intro c hc h r hr hdown
          exact ih (hcs c hc) hr hdown

/-- A target is recorded and followed. -/
theorem Input.recorded_single (hI : Input R b)
    (hreg : KeepsRecorded R b register) {data : List UInt8} {ph : UInt32}
    (hp : p ∈ (R.tree b).paths) (hbe : be32 data = some ph)
    (hph : (R.tree b).byPhandle ph = some q) (hedge : Edge (R.tree b) p q)
    (hr : Recorded R b h)
    (hrun : registerSingleDependency L b register lim h (R.off b p) data
      (pathStr p) = .ok h') : Recorded R b h' := by
  have hq := byPhandle_mem hph
  unfold registerSingleDependency fdt32Ld at hrun
  simp only [hbe, bind, Except.bind,
    hI.doc.nodeOffsetByPhandle_eq b ph q hI.ok.wf hI.ok.phandles hph,
    hI.getPath_eq hq] at hrun
  cases hthis : findDep h.depTable (pathStr p) with
  | none =>
      rw [hthis] at hrun
      cases hrun
  | some this =>
      simp only [hthis] at hrun
      split at hrun
      · rw [Except.ok.injEq] at hrun
        exact hrun ▸ hr.buf _
      · obtain ⟨⟨found, h₁⟩, hkeep, hrun⟩ := bind_eq_ok hrun
        have hadd := hr.addTo hI.ok.wf hp (x := ⟨fullPath q, ph⟩)
          ⟨q, hedge, rfl, hph⟩
        have hkeep : keepNodeAndParents L b register lim
            (Fdtgen.addTo h (pathStr p) ⟨fullPath q, ph⟩) (R.off b [])
            (R.off b q) = .ok (found, h₁) := by
          rw [← hr.root]
          exact hkeep
        have hr₁ := hadd.keepNodeAndParents hI.doc hI.ok.wf hreg
          hI.ok.wf.root hkeep
        exact hreg h₁ q hq h' hr₁ hrun

/-- The references of a list that are edges of `p`. -/
def EdgesOf (t : Tree) (p : Path) (es : List (UInt32 × Nat)) : Prop :=
  ∀ e ∈ es, ∃ q, t.byPhandle e.1 = some q ∧ Edge t p q

/-- The targets of a list are recorded, one after the other. -/
theorem Input.recorded_loop (hI : Input R b)
    (hreg : KeepsRecorded R b register) {cellsProp : CStr}
    {absentCells : Except Fault Int} {absentCount : Option Nat}
    (hab : ∀ c, absentCount = some c → absentCells = .ok (c : Int))
    {data : List UInt8} {es : List (UInt32 × Nat)} {n done : Nat}
    (hp : p ∈ (R.tree b).paths)
    (hes : phandleList (cellCount (R.tree b) cellsProp absentCount)
      (data.drop done) = some es)
    (hsize : done + entriesSize es < 2 ^ 31)
    (hedges : EdgesOf (R.tree b) p es) (hr : Recorded R b h)
    (hrun : registerCellsLoop L b register lim cellsProp absentCells
      (R.off b p) data (pathStr p) n h done = .ok h') :
    Recorded R b h' := by
  induction n generalizing done h es with
  | zero => cases hrun
  | succ n ih =>
      cases es with
      | nil =>
          have hend := List.drop_eq_nil_iff.1 (phandleList_nil hes)
          rw [registerCellsLoop, if_neg (by omega), Except.ok.injEq] at hrun
          exact hrun ▸ hr
      | cons e es =>
          obtain ⟨hne, hbe, hcount, hrest⟩ := phandleList_cons hes
          rw [List.drop_drop] at hrest
          rw [entriesSize_cons] at hsize
          have hlt : done < data.length := by
            by_contra hge
            exact hne (List.drop_eq_nil_iff.2 (by omega))
          obtain ⟨q, hph, hedge⟩ := hedges e (List.mem_cons_self ..)
          have hcells := hI.cells_eq hab hcount (by omega) hph
          rw [← hI.doc.nodeOffsetByPhandle_eq b e.1 q hI.ok.wf
            hI.ok.phandles hph] at hcells
          rw [registerCellsLoop_step hlt hbe hcells (by omega)] at hrun
          obtain ⟨h₁, hsingle, hrun⟩ := bind_eq_ok hrun
          have hr₁ := hI.recorded_single hreg hp hbe hph hedge hr hsingle
          exact ih hrest (by omega)
            (fun x hx => hedges x (List.mem_cons_of_mem e hx)) hr₁ hrun

/-- The entries of a property are edges of its node. -/
theorem edgesOf_property {t : Tree} {pr : Property}
    {es : List (UInt32 × Nat)} (hpr : pr ∈ t.propsAt p)
    (hes : propEntries t pr = some es)
    (hres : ∀ e ∈ es, ∃ q,
      t.byPhandle e.1 = some q) : EdgesOf t p es := by
  intro e he
  obtain ⟨q, hq⟩ := hres e he
  exact ⟨q, hq, pr, hpr, es, hes, e, he, hq⟩

/-- A property is registered. -/
theorem Input.recorded_property (hI : Input R b)
    (hreg : KeepsRecorded R b register) {pr : Property} {pOffset : Int}
    (hp : p ∈ (R.tree b).paths) (hp0 : p ≠ [])
    (hpr : pr ∈ (R.tree b).propsAt p)
    (hvalue : L.getpropByOffset b pOffset = pr.value)
    (hname : pr.name ∈ propsWithDep) (hr : Recorded R b h)
    (hrun : registerNodeDependency L b register lim h (R.off b p) pr.name
      pOffset = .ok h') : Recorded R b h' := by
  obtain ⟨es, hes, hsize, hres⟩ := hI.ok.resolves p hp hp0 pr hpr
  have hedges := edgesOf_property hpr hes hres
  have hr₁ := hr.withEntry hp hp0
  unfold registerNodeDependency at hrun
  simp only [hI.getPath_eq hp, fullPath_of_ne hp0, hvalue] at hrun
  by_cases hclk : pr.name = "clocks".toList
  · rw [propEntries_clocks hclk, ← List.drop_zero (l := pr.value)] at hes
    rw [if_pos hclk] at hrun
    refine hI.recorded_loop hreg ?_ hp hes (by rwa [Nat.zero_add]) hedges
      hr₁ hrun
    intro c hnone
    cases hnone
  · rw [if_neg hclk] at hrun
    by_cases hpow : pr.name = "power-domains".toList
    · rw [propEntries_powerDomains hpow,
        ← List.drop_zero (l := pr.value)] at hes
      rw [if_pos hpow] at hrun
      refine hI.recorded_loop hreg ?_ hp hes (by rwa [Nat.zero_add]) hedges
        hr₁ hrun
      intro c hzero
      cases hzero
      rfl
    · rw [propEntries_single hclk hpow hname] at hes
      rw [if_neg hpow] at hrun
      obtain ⟨ph, hbe, rfl⟩ := Option.map_eq_some_iff.1 hes
      obtain ⟨q, hph, hedge⟩ := hedges _ (List.mem_singleton_self _)
      exact hI.recorded_single hreg hp hbe hph hedge hr₁ hrun

/-- The property at an offset is one of the node. -/
theorem Input.property_mem (hI : Input R b) (hp : p ∈ (R.tree b).paths)
    {po : Int} (hpo : po ∈ L.propertyOffsets b (R.off b p)) :
    ⟨L.propertyName b po, L.getpropByOffset b po⟩
      ∈ (R.tree b).propsAt p := by
  rw [← hI.doc.propertyOffsets_eq b p hI.ok.wf hp]
  exact List.mem_map_of_mem hpo

/-- The dependencies of a node are registered, those of others on the
way. -/
theorem Input.keepsRecorded (hI : Input R b) (lim fuel : Nat) :
    KeepsRecorded R b (registerNodeDependencies L b lim fuel) := by
  induction fuel with
  | zero =>
      intro h p _ h' _ hrun
      cases hrun
  | succ fuel ih =>
      intro h p hp h' hr hrun
      unfold registerNodeDependencies at hrun
      by_cases hp0 : p = []
      · rw [hr.root, hp0, if_pos rfl, Except.ok.injEq] at hrun
        exact hrun ▸ hr
      · rw [hr.root, if_neg (by
          rwa [hI.readable.off_eq_iff hp hI.root_mem])] at hrun
        refine (foldlM_ok (Recorded R b) hr ?_ hrun).1
        intro s po hpo s' hs hbody
        rw [foldlM_select _ _ (by decide)] at hbody
        split at hbody
        · rename_i hname
          exact hI.recorded_property ih hp hp0 (hI.property_mem hp hpo) rfl
            hname hs hbody
        · rw [Except.ok.injEq] at hbody
          exact hbody ▸ hs

/-- Where there are no properties nothing is registered. -/
theorem KeepsRecorded.lead {o : Int} (hI : Input R b)
    (hlead : (∃ p ∈ (R.tree b).paths, o = R.off b p)
      ∨ L.propertyOffsets b o = [])
    (hr : Recorded R b h)
    (hrun : registerNodeDependencies L b lim fuel h o = .ok h') :
    Recorded R b h' := by
  rcases hlead with ⟨p, hp, rfl⟩ | hnone
  · exact hI.keepsRecorded lim fuel h p hp h' hr hrun
  · cases fuel with
    | zero => cases hrun
    | succ fuel =>
        rw [registerNodeDependencies_none hnone (Nat.succ_pos fuel),
          Except.ok.injEq] at hrun
        exact hrun ▸ hr

/-- The iteration over `nodes_table`. -/
theorem Input.recorded_resolveLoop (hI : Input R b) {n i : Nat}
    {more : Bool} (hr : Recorded R b h)
    (hrun : resolveLoop (registerNodeDependencies L b lim fuel) n h i more
      = .ok h') : Recorded R b h' := by
  induction n generalizing h i more with
  | zero => cases hrun
  | succ n ih =>
      rw [resolveLoop] at hrun
      split at hrun
      · rw [Except.ok.injEq] at hrun
        exact hrun ▸ hr
      · rename_i el hel
        obtain ⟨h₁, hentry, hrun⟩ := bind_eq_ok hrun
        have hr₁ := KeepsRecorded.lead hI
          (hr.leads el (List.mem_of_getElem? hel)) hr hentry
        split at hrun
        · exact ih hr₁ hrun
        · rw [Except.ok.injEq] at hrun
          exact hrun ▸ hr₁

end Functions

end ProjectsLibs.Fdtgen
