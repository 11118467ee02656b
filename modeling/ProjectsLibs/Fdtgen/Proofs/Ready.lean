/-
The first two passes of `fdtgen_generate`, on any context that a call can
find (`Ready`): requests may name no node, and the tables may be those
that earlier calls have left.

What `nodes_table` holds before the third pass is the closure of the
requests and of the references of the seeds (`Resolved.inTable_iff`):
nothing enters it that does not belong to it, and it has the properties
whose least fixed point the closure is. Which nodes are to be disabled
does not change (`Resolved.due_eq`).

# Two inclusions

That the table holds no more than the closure is a property that every
step keeps: an entry is made for an ancestor of a node that is wanted or
for the target of a dependency. That it holds no less is read off the
end: the ancestors of an entry have entries, and so have the targets of
its dependencies, as each node in the table has been registered by the
time the iteration has gone through it. The closure is the least set with
these properties.

Seeds are nodes that the offset of a stray entry leads to. They are
registered without being in the table themselves, so the closure has a
rule for them that adds their targets only.
-/
import ProjectsLibs.Fdtgen.Proofs.Find
import ProjectsLibs.Fdtgen.Proofs.Resolve
import ProjectsLibs.Fdtgen.Proofs.Trim

namespace ProjectsLibs.Fdtgen

open Fdt Lib

-- ========================================================== the closure

section Closure

variable {t : Tree} {requested seed : Path → Prop} {p m : Path}

/-- With a node its ancestors are kept. -/
theorem Keep.above (hk : Keep t requested p) (hm : m <+: p) :
    Keep t requested m := by
  obtain ⟨r, rfl⟩ := hm
  induction r using List.reverseRecOn with
  | nil => rwa [List.append_nil] at hk
  | append_singleton r n ih =>
      rw [← List.append_assoc] at hk
      exact ih hk.parent

/-- Only the nodes of the tree count as requests. -/
theorem Keep.congr {requested' : Path → Prop}
    (hreq : ∀ p ∈ t.paths, requested p → requested' p)
    (hk : Keep t requested p) : Keep t requested' p := by
  induction hk with
  | root => exact .root
  | request hp hr => exact .request hp (hreq _ hp hr)
  | parent _ ih => exact ih.parent
  | edge _ hne hedge ih => exact ih.edge hne hedge

theorem KeepFrom.above (hk : KeepFrom t requested seed p)
    (hm : m <+: p) : KeepFrom t requested seed m := by
  obtain ⟨r, rfl⟩ := hm
  induction r using List.reverseRecOn with
  | nil => rwa [List.append_nil] at hk
  | append_singleton r n ih =>
      rw [← List.append_assoc] at hk
      exact ih hk.parent

/-- What is kept is closed under the rules for references. -/
theorem keepFrom_closedSet :
    ClosedSet t (KeepFrom t requested seed) seed := by
  refine ⟨fun _ _ hk hm => hk.above hm, ?_⟩
  rintro p q (hseed | hk) hne hpq hedge
  · exact KeepFrom.seed hseed hpq hedge
  · exact hk.edge hne hedge

/-- The closure within another: its requests and what its seeds refer to
are in there. -/
theorem KeepFrom.within {requested' seed' : Path → Prop}
    (hreq : ∀ p ∈ t.paths, requested p → KeepFrom t requested' seed' p)
    (hseed : ∀ p q, seed p → p ≠ q → Edge t p q →
      KeepFrom t requested' seed' q)
    (hk : KeepFrom t requested seed p) :
    KeepFrom t requested' seed' p := by
  induction hk with
  | root => exact .root
  | request hp hr => exact hreq _ hp hr
  | parent _ ih => exact ih.parent
  | edge _ hne hedge ih => exact ih.edge hne hedge
  | seed hs hpq hedge => exact hseed _ _ hs hpq hedge

/-- Without seeds it is the closure of the requests. -/
theorem keepFrom_none_iff (hnone : ∀ p, ¬seed p) :
    KeepFrom t requested seed p ↔ Keep t requested p := by
  constructor
  · intro hk
    induction hk with
    | root => exact .root
    | request hp hr => exact .request hp hr
    | parent _ ih => exact ih.parent
    | edge _ hne hedge ih => exact ih.edge hne hedge
    | seed hs _ _ => exact absurd hs (hnone _)
  · intro hk
    induction hk with
    | root => exact .root
    | request hp hr => exact .request hp hr
    | parent _ ih => exact ih.parent
    | edge _ hne hedge ih => exact ih.edge hne hedge

end Closure

-- ======================================================= the first pass

section Found

variable {L : Libfdt} {R : L.Reading} {b : L.Blob}
  {table table' : List PathNode}

/-- An entry after the first pass is that of a wanted node, or an old one
that names no node. -/
theorem Marked.mem_cases
    (hm : Marked R b (fun m => [] <+: m ∧ m ≠ []) table table')
    (hsingle : ∀ p ∈ (R.tree b).paths, p ≠ [] →
      Single table (pathStr p)) {e : PathNode} (he : e ∈ table') :
    (∃ p ∈ (R.tree b).paths, p ≠ [] ∧ Wanted (R.tree b) table p
        ∧ e = markedEntry R b table p)
      ∨ IsStray (R.tree b) e ∧ e ∈ table := by
  by_cases hex : ∃ m ∈ (R.tree b).paths, m ≠ []
      ∧ Wanted (R.tree b) table m ∧ pathStr m = e.name
  · obtain ⟨m, hmem, hne, hwant, hname⟩ := hex
    have hentry := hm.entry m hmem ⟨List.nil_prefix, hne⟩ hwant
    have hone := hm.single _ (hsingle m hmem hne)
    rw [hname] at hentry hone
    rw [Single.findNode_eq he hone, Option.some.injEq] at hentry
    exact .inl ⟨m, hmem, hne, hwant, hentry⟩
  · have hold : e ∈ table := by
      rw [← hm.rest]
      · exact he
      · intro m hmem hS hwant hname
        exact hex ⟨m, hmem, hS.2, hwant, hname⟩
    refine .inr ⟨?_, hold⟩
    intro p hp hne hname
    refine hex ⟨p, hp, hne, ⟨p, hp, List.prefix_rfl, ?_⟩, hname.symm⟩
    unfold InTable
    rw [findNode_isSome, ← hname]
    exact List.mem_map_of_mem hold

/-- An old entry that names no node stays. -/
theorem Marked.mem_stray
    (hm : Marked R b (fun m => [] <+: m ∧ m ≠ []) table table')
    {e : PathNode} (hstray : IsStray (R.tree b) e) :
    e ∈ table' ↔ e ∈ table := by
  apply hm.rest
  intro m hmem hS _ hname
  exact hstray m hmem hS.2 hname.symm

/-- The nodes in the table after the first pass are the wanted ones. -/
theorem Marked.inTable_iff (hw : (R.tree b).Wf)
    (hm : Marked R b (fun m => [] <+: m ∧ m ≠ []) table table') {p : Path}
    (hp : p ∈ (R.tree b).paths) (hne : p ≠ []) :
    InTable table' p ↔ Wanted (R.tree b) table p := by
  constructor
  · intro hin
    exact hm.wanted_of_inTable hw hp hin
  · intro hwant
    unfold InTable
    rw [hm.entry p hp ⟨List.nil_prefix, hne⟩ hwant]
    rfl

/-- With a node its ancestors are wanted. -/
theorem Wanted.above {t : Tree} {p m : Path} (hwant : Wanted t table p)
    (hm : m <+: p) : Wanted t table m := by
  obtain ⟨r, hr, hpr, hin⟩ := hwant
  exact ⟨r, hr, hm.trans hpr, hin⟩

end Found

-- ================================================= the first two passes

section Resolved

variable {L : Libfdt} {R : L.Reading} {b : L.Blob}
  {table : List PathNode} {h h₁ h₂ : Context} {p : Path}

/-- A node other than the root that the offset of a stray entry leads
to. -/
def Seed (R : L.Reading) (b : L.Blob) (table : List PathNode)
    (p : Path) : Prop :=
  p ∈ (R.tree b).paths ∧ p ≠ []
    ∧ ∃ e ∈ table, IsStray (R.tree b) e ∧ e.offset = R.off b p

/-- What the table of a context asks for. -/
abbrev Asks (R : L.Reading) (b : L.Blob) (table : List PathNode) :
    Path → Prop :=
  KeepFrom (R.tree b) (InTable table) (Seed R b table)

/-- A context that `fdtgen_generate` can be called with. -/
structure Ready (R : L.Reading) (b : L.Blob) (h : Context) : Prop where
  single : ∀ p ∈ (R.tree b).paths, p ≠ [] →
    Single h.nodesTable (pathStr p)
  deps : ∀ d ∈ h.depTable, ∃ p ∈ (R.tree b).paths, p ≠ []
    ∧ d.fromPath = pathStr p
    ∧ (InTable h.nodesTable p ∨ Seed R b h.nodesTable p)
  targets : ∀ p, ∀ q ∈ (R.tree b).paths, recorded h p q →
    Closed h.nodesTable q
  leads : ∀ e ∈ h.nodesTable, IsStray (R.tree b) e →
    (∃ p ∈ (R.tree b).paths, e.offset = R.off b p)
      ∨ L.propertyOffsets b e.offset = []

theorem Wanted.asks (hwant : Wanted (R.tree b) table p) :
    Asks R b table p := by
  obtain ⟨r, hr, hpr, hin⟩ := hwant
  exact (KeepFrom.request hr hin).above hpr

/-- The entries after the first pass carry their own offsets, but for the
stray ones. -/
theorem Ready.visited (hr : Ready R b h)
    (hm : Marked R b (fun m => [] <+: m ∧ m ≠ []) h.nodesTable table)
    {e : PathNode} (he : e ∈ table) :
    Visited R b (Asks R b h.nodesTable) (Seed R b h.nodesTable) e := by
  obtain ⟨p, hp, hne, hwant, rfl⟩ | ⟨hstray, hold⟩ :=
    hm.mem_cases hr.single he
  · exact .inl ⟨p, hp, hne, hwant.asks, markedEntry_name p,
      markedEntry_offset p⟩
  · refine .inr ⟨hstray, (hr.leads e hold hstray).imp_left ?_⟩
    rintro ⟨p, hp, hoff⟩
    exact ⟨p, hp, hoff, fun hne => ⟨hp, hne, e, hold, hstray, hoff⟩⟩

/-- The tables are in order when the dependencies are about to be followed. -/
theorem Ready.consistent (hr : Ready R b h)
    (hm : Marked R b (fun m => [] <+: m ∧ m ≠ []) h.nodesTable
      h₁.nodesTable)
    (hdep : h₁.depTable = h.depTable) (hroot : h₁.rootOffset = R.off b []) :
    Consistent R b (Seed R b h.nodesTable) h₁ := by
  refine ⟨hroot, ?_⟩
  intro d hd
  rw [hdep] at hd
  obtain ⟨p, hp, hne, hfrom, hin⟩ := hr.deps d hd
  exact ⟨p, hp, hne, hfrom, hin.imp_left hm.inTable⟩

/-- A node in the table was there before, or has been added. -/
theorem Grows.inTable_cases {K seed : Path → Prop} (hw : (R.tree b).Wf)
    (hg : Grows R b K seed [] h h₂) (hp : p ∈ (R.tree b).paths)
    (hin : InTable h₂.nodesTable p) :
    InTable h.nodesTable p ∨ Added R b K seed [] h₂ p := by
  obtain ⟨new, hnew, -, hadd⟩ := hg.nodes
  unfold InTable at hin ⊢
  rw [hnew, findNode_append, Option.isSome_or, Bool.or_eq_true] at hin
  cases hin with
  | inl hold => exact .inl hold
  | inr hnew =>
      rw [findNode_isSome, List.map_map] at hnew
      obtain ⟨n, hn, hname⟩ := List.mem_map.1 hnew
      have ha := (hadd n hn).2
      have heq : n = p := hw.pathStr_injective ha.mem hp hname
      exact .inr (heq ▸ ha)

/-- The ancestors of a node in the table are in it, after both passes. -/
theorem Marked.closed {K seed : Path → Prop} (hw : (R.tree b).Wf)
    (hm : Marked R b (fun m => [] <+: m ∧ m ≠ []) table h.nodesTable)
    (hg : Grows R b K seed [] h h₂) (hp : p ∈ (R.tree b).paths)
    (hne : p ≠ []) (hin : InTable h₂.nodesTable p) :
    Closed h₂.nodesTable p := by
  intro m hmp hm0
  cases hg.inTable_cases hw hp hin with
  | inl hold =>
      apply hg.inTable
      rw [hm.inTable_iff hw (hw.mem_above hp hmp) hm0]
      rw [hm.inTable_iff hw hp hne] at hold
      exact hold.above hmp
  | inr hnew =>
      cases hnew.above m hmp hm0 with
      | inl hin' => exact hin'
      | inr hnil => exact absurd (List.prefix_nil.1 hnil) hm0

/-- The first two passes: `h₁` is the context between them, `h₂` that
after them. -/
structure Resolved (R : L.Reading) (b : L.Blob) (h h₁ h₂ : Context) :
    Prop where
  marked : Marked R b (fun m => [] <+: m ∧ m ≠ []) h.nodesTable
    h₁.nodesTable
  deps : h₁.depTable = h.depTable
  grows : Grows R b (Asks R b h.nodesTable) (Seed R b h.nodesTable) []
    h₁ h₂
  consistent : Consistent R b (Seed R b h.nodesTable) h₂
  done : ∀ e ∈ h₁.nodesTable, ∀ p ∈ (R.tree b).paths,
    e.offset = R.off b p → p ≠ [] → Done R b h₂ p

/-- Every dependency that is recorded leads to nodes in the table. -/
theorem Resolved.target (hp : Resolved R b h h₁ h₂) (hr : Ready R b h)
    {p q : Path} (hq : q ∈ (R.tree b).paths) (hrec : recorded h₂ p q) :
    Closed h₂.nodesTable q := by
  cases hp.grows.targets p q hq hrec with
  | inr hcl => exact hcl
  | inl hold =>
      unfold recorded at hold
      rw [hp.deps] at hold
      intro m hm hne
      exact hp.grows.inTable (hp.marked.inTable
        (hr.targets p q hq hold m hm hne))

/-- A seed is registered by the iteration. -/
theorem Resolved.seed_done (hp : Resolved R b h h₁ h₂)
    (hseed : Seed R b h.nodesTable p) : Done R b h₂ p := by
  obtain ⟨hpaths, hne, e, he, hstray, hoff⟩ := hseed
  exact hp.done e ((hp.marked.mem_stray hstray).2 he) p hpaths hoff hne

/-- Every node in the table is registered. -/
theorem Resolved.inTable_done (hp : Resolved R b h h₁ h₂)
    (hr : Ready R b h) (hw : (R.tree b).Wf)
    (hpaths : p ∈ (R.tree b).paths) (hne : p ≠ [])
    (hin : InTable h₂.nodesTable p) : Done R b h₂ p := by
  cases hp.grows.inTable_cases hw hpaths hin with
  | inl hold =>
      exact visited_done hw (fun _ he => hr.visited hp.marked he) hp.done
        hpaths hne hold
  | inr hnew => exact hnew.done.elim hp.seed_done id

/-- What a registered node depends on is in the table. -/
theorem Resolved.edge (hp : Resolved R b h h₁ h₂) (hr : Ready R b h)
    {q : Path} (hd : Done R b h₂ p) (hpq : p ≠ q)
    (hedge : Edge (R.tree b) p q) :
    q ∈ (R.tree b).paths ∧ (q ≠ [] → InTable h₂.nodesTable q) := by
  have hq := hedge.mem
  refine ⟨hq, fun hq0 => ?_⟩
  obtain rfl | hrec := hd q hedge
  · exact absurd rfl hpq
  · exact hp.target hr hq hrec q List.prefix_rfl hq0

/-- A node that is asked for is in the table after both passes. -/
theorem Resolved.inTable_of_asks (hp : Resolved R b h h₁ h₂)
    (hr : Ready R b h) (hw : (R.tree b).Wf)
    (hk : Asks R b h.nodesTable p) :
    p ∈ (R.tree b).paths ∧ (p ≠ [] → InTable h₂.nodesTable p) := by
  induction hk with
  | root => exact ⟨hw.root, fun hne => absurd rfl hne⟩
  | @request p hpaths hin =>
      exact ⟨hpaths, fun _ => hp.grows.inTable (hp.marked.inTable hin)⟩
  | @parent p n _ ih =>
      refine ⟨hw.parent p n ih.1, fun hne => ?_⟩
      have hin := ih.2 (by simp)
      exact hp.marked.closed hw hp.grows ih.1 (by simp) hin p
        (List.prefix_append p [n]) hne
  | @edge p q _ hp0 hedge ih =>
      obtain ⟨hpaths, hin⟩ := ih
      by_cases hpq : p = q
      · exact hpq ▸ ⟨hpaths, fun _ => hin hp0⟩
      · exact hp.edge hr (hp.inTable_done hr hw hpaths hp0 (hin hp0)) hpq
          hedge
  | @seed p q hseed hpq hedge =>
      exact hp.edge hr (hp.seed_done hseed) hpq hedge

/-- After both passes the table holds the closure. -/
theorem Resolved.inTable_iff (hp : Resolved R b h h₁ h₂)
    (hr : Ready R b h) (hw : (R.tree b).Wf)
    (hpaths : p ∈ (R.tree b).paths) (hne : p ≠ []) :
    InTable h₂.nodesTable p ↔ Asks R b h.nodesTable p := by
  constructor
  · intro hin
    cases hp.grows.inTable_cases hw hpaths hin with
    | inl hold =>
        rw [hp.marked.inTable_iff hw hpaths hne] at hold
        exact hold.asks
    | inr hnew => exact hnew.kept
  · intro hk
    exact (hp.inTable_of_asks hr hw hk).2 hne

/-- An entry from before the second pass is found after it. -/
theorem Grows.findNode_eq {K seed : Path → Prop}
    (hg : Grows R b K seed [] h h₂) {e : PathNode} {key : CStr}
    (he : findNode h.nodesTable key = some e) :
    findNode h₂.nodesTable key = some e := by
  obtain ⟨new, hnew, -⟩ := hg.nodes
  rw [hnew, findNode_append, he]
  rfl

/-- A node that is entered to be kept is not due. -/
theorem due_eq_false_of_keep
    (hflag : ∀ e, findNode table (pathStr p) = some e → e.flag = .keep) :
    due table p = false := by
  unfold due
  cases hf : findNode table (pathStr p) with
  | none => rfl
  | some e => simp [hflag e hf]

/-- A node without an entry is not to be disabled: whichever pass enters
it, it enters it to be kept. -/
theorem Resolved.due_eq_false (hp : Resolved R b h h₁ h₂)
    (hw : (R.tree b).Wf) (hpaths : p ∈ (R.tree b).paths)
    (hnone : findNode h.nodesTable (pathStr p) = none) :
    due h₂.nodesTable p = false := by
  apply due_eq_false_of_keep
  intro e he
  obtain ⟨new, hnew, -⟩ := hp.grows.nodes
  rw [hnew, findNode_append, Option.or_eq_some_iff] at he
  cases he with
  | inl hfound =>
      by_cases hS : p ≠ [] ∧ Wanted (R.tree b) h.nodesTable p
      · rw [hp.marked.entry p hpaths ⟨List.nil_prefix, hS.1⟩ hS.2,
          Option.some.injEq] at hfound
        rw [← hfound, markedEntry, hnone]
      · rw [hp.marked.other, hnone] at hfound
        · cases hfound
        · intro m hmem hmS hwant heq
          have hmp := hw.pathStr_injective hmem hpaths heq
          exact hS ⟨hmp ▸ hmS.2, hmp ▸ hwant⟩
  | inr hadded =>
      obtain ⟨n, -, hentry⟩ :=
        List.mem_map.1 (List.mem_of_find?_eq_some hadded.2)
      rw [← hentry]
      rfl

/-- The two passes do not change which nodes are to be disabled. -/
theorem Resolved.due_eq (hp : Resolved R b h h₁ h₂)
    (hw : (R.tree b).Wf) (hpaths : p ∈ (R.tree b).paths)
    (hne : p ≠ []) : due h₂.nodesTable p = due h.nodesTable p := by
  cases hfind : findNode h.nodesTable (pathStr p) with
  | none =>
      rw [hp.due_eq_false hw hpaths hfind]
      simp [due, hfind]
  | some e =>
      have hin : InTable h.nodesTable p := by
        unfold InTable
        rw [hfind]
        rfl
      have hentry := hp.marked.entry p hpaths ⟨List.nil_prefix, hne⟩
        ⟨p, hpaths, List.prefix_rfl, hin⟩
      unfold due
      rw [hp.grows.findNode_eq hentry, markedEntry, hfind]
      rfl

end Resolved

end ProjectsLibs.Fdtgen
