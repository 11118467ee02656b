/-
Calls of `fdtgen_generate` one after the other on one context.

A call leaves the tables ready for another (`Generated.ready`), with the
same nodes in them, so that every call keeps the same nodes. Three things
can make the trees differ from that of a single call on a fresh context:

- the offsets that the entries of requests were made with, where a
  request names no node: they lead to other nodes than those of the other
  context.
- the counters: in the second call they are not zero, and no status is
  set any more.
- the buffer: if the input does not fit, what it held before is taken for
  the input.

`repeated_calls` says that there is nothing else.
-/
import ProjectsLibs.Fdtgen.Proofs.Subtree

namespace ProjectsLibs.Fdtgen

open Fdt Lib

-- ==================================================== the same requests

section Blank

variable {L : Libfdt} {junk junk' : CStr → Int} {flag : DeviceFlag}
  {h g h' g' : Context} {fuel : Nat}

/-- An entry without its offset. -/
def PathNode.blank (e : PathNode) : PathNode := { e with offset := 0 }

/-- A context without the offsets of its entries. -/
def blank (h : Context) : Context :=
  { h with nodesTable := h.nodesTable.map PathNode.blank }

/-- Looking a path up does not depend on the offsets. -/
theorem findNode_blank (table : List PathNode) (key : CStr) :
    findNode (table.map PathNode.blank) key
      = (findNode table key).map PathNode.blank := by
  unfold findNode
  rw [List.find?_map]
  rfl

/-- What a request does does not depend on what its entries are made
with, but for their offsets. -/
theorem blank_initKeepNode (h : Context) (nodes : List CStr) :
    blank (initKeepNode junk h nodes flag)
      = initKeepNode (fun _ => 0) (blank h) nodes flag := by
  unfold initKeepNode
  induction nodes generalizing h with
  | nil => rfl
  | cons node nodes ih =>
      rw [List.foldl_cons, List.foldl_cons, ih]
      congr 1
      have htable : (blank h).nodesTable
          = h.nodesTable.map PathNode.blank := rfl
      dsimp only
      rw [htable, findNode_blank]
      cases findNode h.nodesTable node with
      | none => simp [blank, PathNode.blank]
      | some e =>
          simp only [blank, Option.map_some, updateNode, List.map_map]
          congr 1
          refine List.map_congr_left fun e _ => ?_
          show PathNode.blank (if e.name = node then _ else _)
            = if e.name = node then _ else _
          split <;> rfl

/-- Requests never look at what was left in the offsets, so blanking them
commutes with asking. -/
theorem blank_keepNodeAndChildren (ori : L.Blob) (offset : Int) :
    (keepNodeAndChildren L junk ori flag fuel h offset).map blank
      = keepNodeAndChildren L (fun _ => 0) ori flag fuel (blank h)
          offset := by
  induction fuel generalizing h offset with
  | zero => rfl
  | succ fuel ih =>
      rw [keepNodeAndChildren, keepNodeAndChildren]
      apply foldlM_map_state
      intro s child
      unfold keepChild
      show Except.map blank (strcatChild s.stringBuf _ >>= _)
        = (strcatChild s.stringBuf _ >>= _)
      cases strcatChild s.stringBuf (L.getName ori child) with
      | error e => rfl
      | ok curr =>
          have hdesc : (keepNodeAndChildren L junk ori flag fuel
              (initKeepNode junk { s with stringBuf := curr } [curr] flag)
              child).map blank = _ := ih child
          rw [blank_initKeepNode] at hdesc
          show Except.map blank (keepNodeAndChildren L junk ori flag fuel
              (initKeepNode junk { s with stringBuf := curr } [curr] flag)
              child >>= _)
            = (keepNodeAndChildren L (fun _ => 0) ori flag fuel
              (initKeepNode (fun _ => 0)
                (blank { s with stringBuf := curr }) [curr] flag) child
              >>= _)
          rw [← hdesc]
          cases keepNodeAndChildren L junk ori flag fuel
            (initKeepNode junk { s with stringBuf := curr } [curr] flag)
            child <;> rfl

theorem blank_keepSubtree (ori : L.Blob) (node : CStr) :
    (keepSubtree L junk ori flag fuel h node).map blank
      = keepSubtree L (fun _ => 0) ori flag fuel (blank h) node := by
  unfold keepSubtree
  by_cases hneg : L.pathOffset ori node < 0
  · simp only [if_pos hneg]
    rfl
  · simp only [if_neg hneg]
    rw [blank_keepNodeAndChildren, blank_initKeepNode]
    rfl

theorem blank_keepRequests (reqs : List (KeepRequest L)) :
    (keepRequests L fuel junk h reqs).map blank
      = keepRequests L fuel (fun _ => 0) (blank h) reqs := by
  unfold keepRequests
  apply foldlM_map_state
  intro s r
  cases r with
  | nodes flag nodes =>
      show Except.ok _ = Except.ok _
      rw [blank_initKeepNode]
  | subtree flag ori node => exact blank_keepSubtree ori node

/-- The same requests on two contexts leave the same, but for offsets. -/
theorem keepRequests_blank_eq {reqs : List (KeepRequest L)}
    (hrun : keepRequests L fuel junk h reqs = .ok h')
    (hrun' : keepRequests L fuel junk' h reqs = .ok g') :
    blank h' = blank g' := by
  have hleft : (keepRequests L fuel junk h reqs).map blank = _ :=
    blank_keepRequests reqs
  have hright : (keepRequests L fuel junk' h reqs).map blank = _ :=
    blank_keepRequests reqs
  rw [hrun] at hleft
  rw [hrun', ← hleft] at hright
  exact (Except.ok.inj hright).symm

/-- Requests leave a context fresh, with the buffer it has. -/
theorem keepRequests_fresh {reqs : List (KeepRequest L)} (hf : Fresh h)
    (hrun : keepRequests L fuel junk h reqs = .ok h') :
    Fresh h' ∧ h'.bufsize = h.bufsize := by
  unfold keepRequests at hrun
  refine (foldlM_ok (fun s => Fresh s
    ∧ s.bufsize = h.bufsize) ⟨hf, rfl⟩ ?_
    hrun).1
  rintro s r - s' ⟨hs, hsize⟩ hstep
  cases r with
  | nodes flag nodes =>
      have hasked : Asked junk s nodes flag (initKeepNode junk s nodes flag) :=
        asked_initKeepNode s nodes
      cases hstep
      refine ⟨hs.asked hasked, ?_⟩
      rw [hasked.context]
      exact hsize
  | subtree flag ori node =>
      obtain ⟨nodes, hasked⟩ := asked_keepSubtree hstep
      refine ⟨hs.keepSubtree hstep, ?_⟩
      have hsize' := congrArg Context.bufsize hasked.context
      exact hsize'.trans hsize

variable {R : L.Reading} {b : L.Blob} {p : Path}

/-- What is in the table does not depend on the offsets. -/
theorem blank_inTable_iff (heq : blank h = blank g) (p : Path) :
    InTable h.nodesTable p ↔ InTable g.nodesTable p := by
  have htable : h.nodesTable.map PathNode.blank
      = g.nodesTable.map PathNode.blank := congrArg Context.nodesTable heq
  have hview : ∀ table : List PathNode, (findNode table (pathStr p)).isSome
      = (findNode (table.map PathNode.blank) (pathStr p)).isSome := by
    intro table
    rw [findNode_blank, Option.isSome_map]
  unfold InTable
  rw [hview h.nodesTable, hview g.nodesTable, htable]

theorem blank_due (heq : blank h = blank g) (p : Path) :
    due h.nodesTable p = due g.nodesTable p := by
  have htable : h.nodesTable.map PathNode.blank
      = g.nodesTable.map PathNode.blank := congrArg Context.nodesTable heq
  have hview : ∀ table : List PathNode,
      due table p = due (table.map PathNode.blank) p := by
    intro table
    unfold due
    rw [findNode_blank]
    cases findNode table (pathStr p) <;> rfl
  rw [hview h.nodesTable, hview g.nodesTable, htable]

end Blank

-- ======================================================= the same tree

section SameTree

variable {t t' t'' : Tree} {keep disabled : Path → Prop} {p : Path}

/-- A part of a list without duplicates is what the list has of it. -/
theorem sublist_eq_filter {α : Type} [DecidableEq α] {l l' : List α}
    (hsub : l'.Sublist l) (hnd : l.Nodup) :
    l' = l.filter fun x => decide (x ∈ l') := by
  induction hsub with
  | slnil => rfl
  | @cons l₁ l₂ a hsub ih =>
      rw [List.nodup_cons] at hnd
      have hout : a ∉ l₁ := fun ha => hnd.1 (hsub.subset ha)
      rw [List.filter_cons_of_neg (by simpa using hout)]
      exact ih hnd.2
  | @cons_cons l₁ l₂ a hsub ih =>
      rw [List.nodup_cons] at hnd
      rw [List.filter_cons_of_pos (by simp), List.cons_inj_right]
      conv => lhs; rw [ih hnd.2]
      refine List.filter_congr fun x hx => ?_
      have hxa : x ≠ a := fun heq => hnd.1 (heq ▸ hx)
      simp [hxa]

/-- What is cut down to the same nodes has the same paths. -/
theorem Restricted.paths_eq {disabled' : Path → Prop}
    (hnd : t.paths.Nodup) (hr : Restricted t keep disabled t')
    (hr' : Restricted t keep disabled' t'') : t''.paths = t'.paths := by
  rw [sublist_eq_filter hr'.sublist hnd, sublist_eq_filter hr.sublist hnd]
  refine List.filter_congr fun p _ => ?_
  rw [decide_eq_decide, hr'.mem_iff, hr.mem_iff]

/-- If no status is set the result is determined. -/
theorem Restricted.tree_eq (hnd : t.paths.Nodup)
    (hr : Restricted t keep (fun _ => False) t')
    (hr' : Restricted t keep (fun _ => False) t'') : t'' = t' := by
  have hpaths := hr.paths_eq hnd hr'
  refine Tree.eq_of_paths (hnd.sublist hr.sublist) hpaths ?_
  intro p hp
  rw [hr.same p hp id, hr'.same p (hpaths ▸ hp) id]

/-- Setting a property to the value it has changes nothing. -/
theorem propSet_eq {name : CStr} {value : List UInt8}
    {ps ps' : List Property} (hset : PropSet name value ps ps')
    (hold : getProp ps name = some value) : ps' = ps := by
  obtain ⟨l₁, l₂, rfl, hl₁, hcases⟩ := hset
  have hnone : ∀ l : List Property, (∀ pr ∈ l, pr.name ≠ name) →
      l.find? (fun pr => decide (pr.name = name)) = none := by
    intro l hl
    rw [List.find?_eq_none]
    intro pr hpr heq
    exact hl pr hpr (of_decide_eq_true heq)
  unfold getProp at hold
  cases hcases with
  | inl hplace =>
      obtain ⟨old, hname, rfl⟩ := hplace
      rw [List.find?_append, hnone l₁ hl₁, Option.none_or,
        List.find?_cons_of_pos (by simpa using hname), Option.map_some,
        Option.some.injEq] at hold
      obtain ⟨oname, ovalue⟩ := old
      cases hname
      cases hold
      rfl
  | inr hnew =>
      obtain ⟨rfl, hl₂⟩ := hnew
      rw [List.find?_append, hnone l₁ hl₁, hnone l₂ hl₂] at hold
      cases hold

/-- Nodes that are disabled already are not changed. -/
theorem Restricted.undisabled (hr : Restricted t keep disabled t')
    (hall : ∀ p ∈ t'.paths, disabled p → statusDisabled t p) :
    Restricted t keep (fun _ => False) t' := by
  refine ⟨hr.mem_iff, hr.sublist, ?_, fun _ _ hfalse => hfalse.elim⟩
  intro p hp _
  by_cases hd : disabled p
  · exact propSet_eq (hr.status p hp hd) (hall p hp hd)
  · exact hr.same p hp hd

end SameTree

-- ================================================================ calls

section Calls

variable {L : Libfdt} {R : L.Reading} {b ori dtb : L.Blob}
  {h h₀ h' g₀ : Context} {p : Path} {fuel bufsize : Nat}

/-- After a call the table asks for what it asked for before. -/
theorem Generated.asks_iff (hg : Generated R b h₀ h' dtb) :
    Asks R b h'.nodesTable p ↔ Asks R b h₀.nodesTable p := by
  constructor
  · refine KeepFrom.within ?_ ?_
    · intro m hm hin
      by_cases hne : m = []
      · exact hne ▸ KeepFrom.root
      · exact (hg.inTable m hm hne).1 hin
    · intro m q hs hmq hedge
      exact .seed ((hg.seed m).1 hs) hmq hedge
  · refine KeepFrom.within ?_ ?_
    · intro m hm hin
      by_cases hne : m = []
      · exact hne ▸ KeepFrom.root
      · exact .request hm ((hg.inTable m hm hne).2 (.request hm hin))
    · intro m q hs hmq hedge
      exact .seed ((hg.seed m).2 hs) hmq hedge

/-- If the input fits, what the buffer held before does not matter. -/
theorem fdtgenGenerateOver_eq (old : L.Blob)
    (hopen : (L.openInto ori h.bufsize).1 = 0) :
    fdtgenGenerateOver L fuel h old ori
      = generateIn L fuel h (L.openInto ori h.bufsize).2 := by
  unfold fdtgenGenerateOver
  generalize L.openInto ori h.bufsize = res at hopen ⊢
  obtain ⟨err, dtb⟩ := res
  cases hopen
  rfl

/-- The table entries that calls may add. -/
def callsBound (t : Tree) (h : Context) (calls : Nat) : Nat :=
  generateBound t + h.nodesTable.length + calls * (2 * t.length + 1)

/-- Calls on a context whose counters say that nothing is to be
disabled. -/
theorem Input.generateAll_settled
    (hI : Input R (L.openInto ori bufsize).2)
    (hopen : (L.openInto ori bufsize).1 = 0)
    (hcap : R.cap (L.openInto ori bufsize).2 = bufsize)
    (hfits : BufferFits R (L.openInto ori bufsize).2 bufsize)
    {keep : Path → Prop} {olds : List L.Blob}
    (hr : Ready R (L.openInto ori bufsize).2 h)
    (hsize : h.bufsize = bufsize)
    (hdue : ∀ p ∈ (R.tree (L.openInto ori bufsize).2).paths, p ≠ [] →
      due h.nodesTable p = false)
    (hkeep : ∀ p, Asks R (L.openInto ori bufsize).2 h.nodesTable p
      ↔ keep p)
    (hfuel : callsBound (R.tree (L.openInto ori bufsize).2) h olds.length
      ≤ fuel) :
    ∃ results, generateAll L fuel ori h olds = .ok results
      ∧ results.length = olds.length
      ∧ ∀ r ∈ results, r.1 = 0
          ∧ Restricted (R.tree (L.openInto ori bufsize).2) keep
              (fun _ => False) (R.tree r.2) := by
  -- each call finds the offsets that the one before has set, so all give
  -- the same
  induction olds generalizing h with
  | nil => exact ⟨[], rfl, rfl, by simp⟩
  | cons old olds ih =>
      unfold callsBound at hfuel
      rw [List.length_cons, Nat.succ_mul] at hfuel
      have hfuel₁ : generateBound (R.tree (L.openInto ori bufsize).2)
          + h.nodesTable.length ≤ fuel := by
        omega
      have hcap' : R.cap (L.openInto ori bufsize).2 = h.bufsize :=
        hcap.trans hsize.symm
      have hroom : Room R h (L.openInto ori bufsize).2 := by
        refine FitsFor.room ?_ hcap'
        rw [hsize]
        exact hfits.fitsFor _
      obtain ⟨h₁, dtb, hrun, hG, -⟩ :=
        hI.generateIn_ok hr hcap' hroom hfuel₁
      have hlen := hG.length
      obtain ⟨results, hrest, hcount, hall⟩ := ih hG.ready
        (hG.bufsize.trans hsize) hG.settled
        (fun p => hG.asks_iff.trans (hkeep p))
        (by unfold callsBound; omega)
      refine ⟨(0, dtb) :: results, ?_, by simp [hcount], ?_⟩
      · rw [generateAll, fdtgenGenerateOver_eq old (by rw [hsize, hopen]),
          hsize, hrun, ok_bind]
        show (generateAll L fuel ori h₁ olds >>= _) = _
        rw [hrest, ok_bind]
      · intro r hr
        cases hr with
        | tail _ hr => exact hall r hr
        | head =>
            refine ⟨rfl, hG.restricted.congr (fun p _ => hkeep p) ?_⟩
            intro p hp
            refine iff_of_false ?_ id
            rintro ⟨hne, hd⟩
            rw [hdue p hp hne] at hd
            cases hd

/-- What the leftover offsets of one context lead to, another asks for. -/
def SeedsCovered (R : L.Reading) (b : L.Blob) (h g : Context) : Prop :=
  ∀ p q, Seed R b h.nodesTable p → p ≠ q → Edge (R.tree b) p q →
    Asks R b g.nodesTable q

/-- Every node that is kept and to be disabled is so already. -/
def DisabledAlready (R : L.Reading) (b : L.Blob) (h : Context) : Prop :=
  ∀ p ∈ (R.tree b).paths, p ≠ [] → Asks R b h.nodesTable p →
    due h.nodesTable p = true → statusDisabled (R.tree b) p

/-- Contexts with the same requests ask for the same exactly if they do
for what their leftover offsets lead to. -/
theorem asks_iff_seedsCovered (heq : blank h₀ = blank g₀) :
    (∀ p ∈ (R.tree b).paths, p ≠ [] →
        (Asks R b g₀.nodesTable p ↔ Asks R b h₀.nodesTable p))
      ↔ SeedsCovered R b h₀ g₀ ∧ SeedsCovered R b g₀ h₀ := by
  constructor
  · intro hasks
    refine ⟨?_, ?_⟩
    · intro p q hs hpq hedge
      by_cases hne : q = []
      · exact hne ▸ KeepFrom.root
      · exact (hasks q hedge.mem hne).2 (.seed hs hpq hedge)
    · intro p q hs hpq hedge
      by_cases hne : q = []
      · exact hne ▸ KeepFrom.root
      · exact (hasks q hedge.mem hne).1 (.seed hs hpq hedge)
  · rintro ⟨hcov, hcov'⟩ p _ _
    refine ⟨KeepFrom.within ?_ hcov', KeepFrom.within ?_ hcov⟩
    · intro m hm hin
      exact .request hm ((blank_inTable_iff heq m).2 hin)
    · intro m hm hin
      exact .request hm ((blank_inTable_iff heq m).1 hin)

/-- If the input does not fit, a call on a buffer that holds no tree
fails. -/
theorem generateAll_refused (hR : L.Refuses R) (hw : (R.tree ori).Wf)
    (hspace : h.bufsize < R.size ori) {olds : List L.Blob}
    (hbad : ∀ old ∈ olds, L.checkFull old h.bufsize ≠ 0) :
    ∃ results, generateAll L fuel ori h olds = .ok results
      ∧ results.length = olds.length ∧ ∀ r ∈ results, r.1 ≠ 0 := by
  have herr := hR.openInto_nospace ori h.bufsize hw hspace
  induction olds with
  | nil => exact ⟨[], rfl, rfl, by simp⟩
  | cons old olds ih =>
      obtain ⟨results, hrest, hlen, hall⟩ :=
        ih fun x hx => hbad x (List.mem_cons_of_mem old hx)
      have hcall : fdtgenGenerateOver L fuel h old ori
          = .ok (-1, h, old) := by
        have hcheck := hbad old (List.mem_cons_self ..)
        unfold fdtgenGenerateOver
        generalize L.openInto ori h.bufsize = res at herr ⊢
        obtain ⟨err, dtb⟩ := res
        show generateIn L fuel h (if err = 0 then dtb else old) = _
        rw [if_neg herr, generateIn, if_pos hcheck]
      refine ⟨(-1, old) :: results, ?_, by simp [hlen], ?_⟩
      · rw [generateAll, hcall, ok_bind]
        show (generateAll L fuel ori h olds >>= _) = _
        rw [hrest, ok_bind]
      · intro r hr
        cases hr with
        | head =>
            show (-1 : Int) ≠ 0
            decide
        | tail _ hr => exact hall r hr

/-- The trees of later calls, in which no status is set, and that of a
single call. -/
theorem later_calls_iff {t t' : Tree} {keep disabled : Path → Prop}
    {trees : List Tree} (hnd : t.paths.Nodup) (hne : trees ≠ [])
    (hall : ∀ x ∈ trees, Restricted t keep (fun _ => False) x)
    (hr : Restricted t keep disabled t') :
    (∀ x ∈ trees, x = t')
      ↔ ∀ p ∈ t.paths, keep p → disabled p → statusDisabled t p := by
  constructor
  · intro hsame p hp hk hd
    obtain ⟨x, hx⟩ := List.exists_mem_of_ne_nil trees hne
    have hmem : p ∈ t'.paths := (hr.mem_iff p).2 ⟨hp, hk⟩
    have hstatus := (hr.statusDisabled_iff hmem).2 (.inl hd)
    rw [← hsame x hx] at hmem hstatus
    exact (((hall x hx).statusDisabled_iff hmem).1 hstatus).resolve_left id
  · intro hst x hx
    refine (hr.undisabled ?_).tree_eq hnd (hall x hx)
    intro p hp hd
    obtain ⟨hpt, hk⟩ := (hr.mem_iff p).1 hp
    exact hst p hpt hk hd

/-- Later calls on a context that asks for the same. -/
theorem Generated.later_iff {g' : Context} (hw : (R.tree b).Wf)
    (hG : Generated R b g₀ g' dtb)
    (hasks : ∀ p ∈ (R.tree b).paths, p ≠ [] →
      (Asks R b g₀.nodesTable p ↔ Asks R b h₀.nodesTable p))
    {results : List (Int × L.Blob)} (hne : results ≠ [])
    (hall : ∀ r ∈ results, Restricted (R.tree b)
      (Asks R b h₀.nodesTable) (fun _ => False) (R.tree r.2)) :
    (∀ r ∈ results, R.tree r.2 = R.tree dtb)
      ↔ DisabledAlready R b g₀ := by
  have hiff : ∀ p ∈ (R.tree b).paths,
      (Asks R b g₀.nodesTable p ↔ Asks R b h₀.nodesTable p) := by
    intro p hp
    by_cases hp0 : p = []
    · subst hp0
      exact iff_of_true KeepFrom.root KeepFrom.root
    · exact hasks p hp hp0
  have hne' : (results.map fun r => R.tree r.2) ≠ [] := by
    simpa using hne
  have hlater := later_calls_iff hw.nodup hne'
    (List.forall_mem_map.2 hall)
    (hG.restricted.congr hiff fun _ _ => Iff.rfl)
  rw [List.forall_mem_map] at hlater
  refine hlater.trans ⟨?_, ?_⟩
  · intro hst p hp hp0 hk hd
    exact hst p hp ((hiff p hp).1 hk) ⟨hp0, hd⟩
  · rintro hst p hp hk ⟨hp0, hd⟩
    exact hst p hp hp0 ((hiff p hp).2 hk) hd

/-- If the input fits all calls return 0, and all leave the tree of a
single call on a fresh context exactly if the leftover offsets do not
matter and, where there is a second call, no status has to be set. -/
theorem Input.generateAll_iff (hI : Input R (L.openInto ori bufsize).2)
    (hopen : (L.openInto ori bufsize).1 = 0)
    (hcap : R.cap (L.openInto ori bufsize).2 = bufsize)
    (hfits : BufferFits R (L.openInto ori bufsize).2 bufsize)
    (hr : Ready R (L.openInto ori bufsize).2 h₀)
    (hr' : Ready R (L.openInto ori bufsize).2 g₀)
    (hsize : h₀.bufsize = bufsize) (hsize' : g₀.bufsize = bufsize)
    (heq : blank h₀ = blank g₀) {olds : List L.Blob}
    (hfuel : callsBound (R.tree (L.openInto ori bufsize).2) h₀ olds.length
      ≤ fuel)
    (hfuel' : callsBound (R.tree (L.openInto ori bufsize).2) g₀ 0
      ≤ fuel) :
    ∃ results g dtb, generateAll L fuel ori h₀ olds = .ok results
      ∧ results.length = olds.length ∧ (∀ r ∈ results, r.1 = 0)
      ∧ generateIn L fuel g₀ (L.openInto ori bufsize).2 = .ok (0, g, dtb)
      ∧ ((∀ r ∈ results, R.tree r.2 = R.tree dtb)
        ↔ (olds ≠ [] → SeedsCovered R (L.openInto ori bufsize).2 h₀ g₀
            ∧ SeedsCovered R (L.openInto ori bufsize).2 g₀ h₀)
          ∧ (2 ≤ olds.length →
            DisabledAlready R (L.openInto ori bufsize).2 g₀)) := by
  unfold callsBound at hfuel hfuel'
  have hw := hI.ok.wf
  have hfuel₁ : generateBound (R.tree (L.openInto ori bufsize).2)
      + h₀.nodesTable.length ≤ fuel := by
    omega
  obtain ⟨h₁, dtb₁, g, dtb, hrun, hrun', hG, hG', htwo⟩ :=
    hI.generateIn_two hr hr' (hcap.trans hsize.symm) (hsize ▸ hfits)
      (hsize'.trans hsize.symm) (fun p _ _ => (blank_due heq p).symm)
      hfuel₁ (by omega)
  rw [asks_iff_seedsCovered heq] at htwo
  -- the first call is the one that meets leftover offsets; those after it
  -- are settled
  cases olds with
  | nil =>
      exact ⟨[], g, dtb, rfl, rfl, by simp, hrun', by simp⟩
  | cons old olds =>
      rw [List.length_cons, Nat.succ_mul] at hfuel
      have hlen := hG.length
      have hfuel₂ : callsBound (R.tree (L.openInto ori bufsize).2) h₁
          olds.length ≤ fuel := by
        unfold callsBound
        omega
      obtain ⟨rest, hrest, hcount, hall⟩ :=
        hI.generateAll_settled hopen hcap
        hfits hG.ready (hG.bufsize.trans hsize) hG.settled
        (fun p => hG.asks_iff) hfuel₂
      refine ⟨(0, dtb₁) :: rest, g, dtb, ?_, by simp [hcount], ?_, hrun',
        ?_⟩
      · rw [generateAll, fdtgenGenerateOver_eq old (by rw [hsize, hopen]),
          hsize, hrun, ok_bind]
        show (generateAll L fuel ori h₁ olds >>= _) = _
        rw [hrest, ok_bind]
      · intro r hr
        cases hr with
        | head => rfl
        | tail _ hr => exact (hall r hr).1
      · rw [List.forall_mem_cons, htwo,
          forall_prop_of_true (List.cons_ne_nil old olds)]
        refine and_congr_right fun hcov => ?_
        have hasks := (asks_iff_seedsCovered (R := R)
          (b := (L.openInto ori bufsize).2) heq).2 hcov
        by_cases hnil : rest = []
        · subst hnil
          have hzero : olds.length = 0 := hcount.symm
          simp [hzero]
        · rw [hG'.later_iff hw hasks hnil fun r hr => (hall r hr).2]
          have hpos := List.length_pos_iff.2 hnil
          have htwo : 2 ≤ (old :: olds).length := by
            rw [List.length_cons]
            omega
          exact ⟨fun hst _ => hst, fun hst => hst htwo⟩

/-- Every call leaves the tree of a single call on a fresh context with
the same requests, exactly if the leftover offsets of either do not matter
and, where there is a second call, no status has to be set. A call whose
input does not fit fails if the buffer held no tree before. -/
theorem repeated_calls {junk junk' : CStr → Int} {fuel₀ : Nat}
    {reqs : List (KeepRequest L)} (hL : L.Documented R)
    (hR : L.Refuses R) (hT : WellFormed (R.tree ori))
    (hreq : keepRequests L fuel₀ junk (fdtgenNewContext bufsize) reqs
      = .ok h₀)
    (hreq' : keepRequests L fuel₀ junk' (fdtgenNewContext bufsize) reqs
      = .ok g₀) (olds : List L.Blob) (old : L.Blob) :
    (BufferFits R ori bufsize → ∃ n, ∀ fuel, n ≤ fuel →
      ∃ results g dtb, generateAll L fuel ori h₀ olds = .ok results
        ∧ results.length = olds.length ∧ (∀ r ∈ results, r.1 = 0)
        ∧ fdtgenGenerateOver L fuel g₀ old ori = .ok (0, g, dtb)
        ∧ ((∀ r ∈ results, R.tree r.2 = R.tree dtb)
          ↔ (olds ≠ [] →
            SeedsCovered R (L.openInto ori bufsize).2 h₀ g₀
              ∧ SeedsCovered R (L.openInto ori bufsize).2 g₀ h₀)
            ∧ (2 ≤ olds.length →
              DisabledAlready R (L.openInto ori bufsize).2 g₀)))
      ∧ (bufsize < R.size ori →
        (∀ old ∈ olds, L.checkFull old bufsize ≠ 0) →
        ∀ fuel, ∃ results, generateAll L fuel ori h₀ olds = .ok results
          ∧ results.length = olds.length
          ∧ ∀ r ∈ results, r.1 ≠ 0) := by
  obtain ⟨hf, hsize⟩ := keepRequests_fresh (fresh_new bufsize) hreq
  obtain ⟨hf', hsize'⟩ := keepRequests_fresh (fresh_new bufsize) hreq'
  have hsize : h₀.bufsize = bufsize := hsize
  have hsize' : g₀.bufsize = bufsize := hsize'
  refine ⟨?_, ?_⟩
  · intro hfits
    obtain ⟨htree, hcap, hI, hfits'⟩ := opened hL hT hfits
    have hopen : (L.openInto ori bufsize).1 = 0 :=
      hR.openInto_fits ori bufsize hT.wf
        (Nat.le_trans (Nat.le_add_right _ _) hfits)
    refine ⟨callsBound (R.tree ori) h₀ olds.length
      + callsBound (R.tree ori) g₀ 0, ?_⟩
    intro fuel hfuel
    have hfuel₁ : callsBound (R.tree (L.openInto ori bufsize).2) h₀
        olds.length ≤ fuel := by
      rw [htree]
      omega
    obtain ⟨results, g, dtb, hrun, hlen, hzero, hrun', hiff⟩ :=
      hI.generateAll_iff hopen hcap hfits' (hf.ready_any hR hI.ok.wf)
        (hf'.ready_any hR hI.ok.wf) hsize hsize'
        (keepRequests_blank_eq hreq hreq') hfuel₁ (by rw [htree]; omega)
    refine ⟨results, g, dtb, hrun, hlen, hzero, ?_, hiff⟩
    rw [fdtgenGenerateOver_eq old (by rw [hsize', hopen]), hsize', hrun']
  · intro hspace hbad fuel
    rw [← hsize] at hspace hbad
    exact generateAll_refused hR hT.wf hspace hbad

end Calls

-- ============================================================= a sample

/-- The device of the board is asked for, to be disabled. -/
def uartRequest : List (KeepRequest layout) :=
  [.nodes .keepAndDisable ["/uart".toList]]

/-- The context with that request. -/
def uartContext (bufsize : Nat) : Context :=
  { fdtgenNewContext bufsize with
    nodesTable := [⟨"/uart".toList, 7, 0, .keepAndDisable⟩] }

theorem uart_asked (bufsize : Nat) :
    keepRequests layout 5 (fun _ => 7) (fdtgenNewContext bufsize) uartRequest
      = .ok (uartContext bufsize) := by
  rfl

/-- A buffer full of ones, that no tree was put in. -/
def noTree : Blob := ⟨[], [], 2 ^ 32 - 1⟩

/-- The theorem for two calls on the board: with a buffer that is large
enough, and with one of 100 bytes, where both calls fail. -/
theorem uart_twice :
    (∃ n, ∀ fuel, n ≤ fuel → ∃ results g dtb,
      generateAll layout fuel board (uartContext 1000) [board, board]
          = .ok results
        ∧ results.length = 2 ∧ (∀ r ∈ results, r.1 = 0)
        ∧ fdtgenGenerateOver layout fuel (uartContext 1000) board board
          = .ok (0, g, dtb)
        ∧ ((∀ r ∈ results, layoutReading.tree r.2
            = layoutReading.tree dtb)
          ↔ ([board, board] ≠ [] →
              SeedsCovered layoutReading (board.openInto 1000).2
                (uartContext 1000) (uartContext 1000)
              ∧ SeedsCovered layoutReading (board.openInto 1000).2
                (uartContext 1000) (uartContext 1000))
            ∧ (2 ≤ 2 → DisabledAlready layoutReading
                (board.openInto 1000).2 (uartContext 1000))))
      ∧ ∀ fuel, ∃ results,
          generateAll layout fuel board (uartContext 100) [noTree, noTree]
              = .ok results
            ∧ results.length = 2 ∧ ∀ r ∈ results, r.1 ≠ 0 := by
  have hT : WellFormed (layoutReading.tree board) := board_wellFormed
  refine ⟨(repeated_calls layout_documented layout_refuses hT
    (uart_asked 1000) (uart_asked 1000) [board, board] board).1 board_fits,
    (repeated_calls layout_documented layout_refuses hT (uart_asked 100)
      (uart_asked 100) [noTree, noTree] noTree).2 ?_ ?_⟩
  · show 100 < board.used
    decide +kernel
  · intro old hold
    have hnone : noTree.checkFull 100 ≠ 0 := by decide
    have hold : old ∈ List.replicate 2 noTree := hold
    rw [List.eq_of_mem_replicate hold]
    exact hnone

/-- The status of the device in what calls have left in the buffer. -/
def uartStatus (results : Except Fault (List (Int × Blob))) :
    Option (List (Int × Option (List UInt8))) :=
  match results with
  | .ok rs => some (rs.map fun r => (r.1,
      getProp (r.2.tree.propsAt ["uart".toList]) "status".toList))
  | .error _ => none

/-- The second of two calls leaves the device enabled. A call on a buffer
of 100 bytes, which the board does not fit, returns 0 if an empty tree was
in there. -/
theorem second_call_differs :
    WellFormed board.tree ∧ BufferFits layoutReading board 1000
      ∧ uartStatus (generateAll layout 6 board (uartContext 1000)
          [board, board])
        = some [(0, some (strBytes "disabled".toList)), (0, none)]
      ∧ 100 < layoutReading.size board
      ∧ uartStatus (generateAll layout 6 board (fdtgenNewContext 100)
          [⟨[⟨[], []⟩], [], 100⟩]) = some [(0, none)] := by
  refine ⟨board_wellFormed, board_fits, ?_, ?_, ?_⟩
  · decide +kernel
  · show 100 < board.used
    decide +kernel
  · decide +kernel

end ProjectsLibs.Fdtgen
