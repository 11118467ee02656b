/-
`fdtgen_generate`: the input cut down to what the table of the context
asks for.

The three passes in order. `find_nodes_to_keep` leaves the requested
nodes and their ancestors in the table, `resolve_all_dependencies` what
they need, and `trim_tree` removes the rest. `Generated` says what a call
does to the tree and to the context, from which another call may start.
On a fresh context whose requests all name nodes there are no seeds, and
what is left is the dependency closure of the requests
(`generate_restricted`).

# The passes put together

Every pass is a statement about the table or the tree, and the next one
asks for what the one before has left. `Ready` is what a call can find:
tables whose entries name nodes, once each, or stray ones that lead
somewhere by an offset that was never set. `Resolved` is what the first
two passes have done, and from it and the result of the third comes
`Generated`, with the context ready again.

Two calls are compared by what their tables ask for (`SameDemand`): which
nodes are kept and which are to be disabled. Nothing else of a context
has a part in the tree that is generated. The room in the buffer is
counted for the statuses that are set, and the passes in front of the
third ask for none.
-/
import ProjectsLibs.Fdtgen.Proofs.Requests
import ProjectsLibs.Fdtgen.Proofs.Ready

namespace ProjectsLibs.Fdtgen

open Fdt Lib

-- ====================================================== before trimming

section Trim

variable {L : Libfdt} {R : L.Reading} {b b' : L.Blob}
  {table : List PathNode} {h h₁ h₂ h' : Context} {p : Path}

/-- The entry that `fdtgen_generate` makes for the root. -/
def rootEntry (offset : Int) : PathNode := ⟨['/'], offset, 1, .keep⟩

/-- The entry of the root is not that of another node. -/
theorem findNode_rootEntry (hw : (R.tree b).Wf)
    (hp : p ∈ (R.tree b).paths) (offset : Int) :
    findNode (table ++ [rootEntry offset]) (pathStr p)
      = findNode table (pathStr p) := by
  have hne : ¬['/'] = pathStr p := fun heq => hw.pathStr_ne hp heq.symm
  rw [findNode_append]
  simp [findNode, rootEntry, hne]

/-- The context that `trim_tree` is called in. -/
def withRoot (h : Context) : Context :=
  { h with
    nodesTable := h.nodesTable ++ [rootEntry h.rootOffset]
    stringBuf := [] }

/-- The entry that is added for the root is under "/", which is no key of
a path, so the table holds the same paths as before. -/
theorem inTable_withRoot (hw : (R.tree b).Wf)
    (hp : p ∈ (R.tree b).paths) :
    InTable (withRoot h).nodesTable p ↔ InTable h.nodesTable p := by
  unfold InTable
  rw [withRoot, findNode_rootEntry hw hp]

theorem due_withRoot (hw : (R.tree b).Wf) (hp : p ∈ (R.tree b).paths) :
    due (withRoot h).nodesTable p = due h.nodesTable p := by
  unfold due
  rw [withRoot, findNode_rootEntry hw hp]

/-- The result of the third pass, from what the first two have left. -/
theorem Resolved.restricted (hp : Resolved R b h h₁ h₂)
    (hr : Ready R b h) (hw : (R.tree b).Wf)
    (ht : Trimmed R [] (withRoot h₂) b h' b') (hb' : Walkable R b')
    (hopen : ∀ x ∈ (R.tree b').paths, x ≠ [] →
      ¬isOpen h'.nodesTable x) :
    Restricted (R.tree b) (Asks R b h.nodesTable)
      (fun p => p ≠ [] ∧ due h.nodesTable p) (R.tree b') := by
  have hin : ∀ p ∈ (R.tree b).paths, p ≠ [] →
      (InTable (withRoot h₂).nodesTable p ↔ Asks R b h.nodesTable p) := by
    intro p hpaths hne
    rw [inTable_withRoot hw hpaths, hp.inTable_iff hr hw hpaths hne]
  apply (ht.restricted hb' hopen).congr
  · intro p hpaths
    constructor
    · intro hall
      by_cases hne : p = []
      · exact hne ▸ KeepFrom.root
      · exact (hin p hpaths hne).1 (hall p List.prefix_rfl hne)
    · intro hk m hmp hne
      exact (hin m (hw.mem_above hpaths hmp) hne).2 (hk.above hmp)
  · intro p hpaths
    refine and_congr_right fun hne => ?_
    rw [due_withRoot hw hpaths, hp.due_eq hw hpaths hne]

/-- Rows keep their names and offsets. -/
theorem Counted.row_iff {table' : List PathNode}
    (hc : Counted table table') (key : CStr) (o : Int) :
    (∃ e ∈ table', e.name = key ∧ e.offset = o)
      ↔ ∃ e ∈ table, e.name = key ∧ e.offset = o := by
  have hrows : table'.map (fun e => (e.name, e.offset))
      = table.map fun e => (e.name, e.offset) := by
    have hmap := congrArg (List.map fun e => (e.name, e.offset)) hc.rows
    rwa [List.map_map, List.map_map] at hmap
  have hiff : ∀ l : List PathNode,
      (key, o) ∈ l.map (fun e => (e.name, e.offset))
        ↔ ∃ e ∈ l, e.name = key ∧ e.offset = o := by
    intro l
    simp [List.mem_map, Prod.mk.injEq]
  rw [← hiff, ← hiff, hrows]

theorem Counted.names {table' : List PathNode}
    (hc : Counted table table') :
    table'.map PathNode.name = table.map PathNode.name := by
  have hmap := congrArg (List.map PathNode.name) hc.rows
  rwa [List.map_map, List.map_map] at hmap

/-- No node gets a second entry. -/
theorem Grows.single {K seed : Path → Prop} {P : Path}
    (hw : (R.tree b).Wf) (hg : Grows R b K seed P h h')
    (hp : p ∈ (R.tree b).paths) (hs : Single h.nodesTable (pathStr p)) :
    Single h'.nodesTable (pathStr p) := by
  obtain ⟨new, hnew, hnd, hadd⟩ := hg.nodes
  have hnames : (new.map (keptEntry R b)).map PathNode.name
      = new.map pathStr := by
    rw [List.map_map]
    rfl
  have hinj : ∀ n ∈ new, ∀ m ∈ new, pathStr n = pathStr m → n = m :=
    fun n hn m hm heq =>
      hw.pathStr_injective (hadd n hn).2.mem (hadd m hm).2.mem heq
  unfold Single at hs ⊢
  rw [hnew, List.map_append, List.count_append, hnames]
  by_cases hin : p ∈ new
  · have hzero : (h.nodesTable.map PathNode.name).count (pathStr p) = 0 := by
      rw [List.count_eq_zero, ← findNode_isSome]
      exact (hadd p hin).1
    have hone := List.nodup_iff_count_le_one.1 (hnd.map_on hinj)
      (pathStr p)
    omega
  · have hzero : (new.map pathStr).count (pathStr p) = 0 := by
      rw [List.count_eq_zero]
      intro hmem
      obtain ⟨n, hn, heq⟩ := List.mem_map.1 hmem
      exact hin (hw.pathStr_injective (hadd n hn).2.mem hp heq ▸ hn)
    omega

/-- An entry that was the only one of its name still is. -/
theorem single_withRoot (hw : (R.tree b).Wf) (hp : p ∈ (R.tree b).paths)
    (hs : Single h.nodesTable (pathStr p)) :
    Single (withRoot h).nodesTable (pathStr p) := by
  have hne : ¬['/'] = pathStr p := fun heq => hw.pathStr_ne hp heq.symm
  unfold Single at hs ⊢
  rw [withRoot, List.map_append, List.count_append]
  simpa [rootEntry, hne] using hs

/-- A stray entry that is there at the end was there before, or is that of
the root. -/
theorem Resolved.stray_cases (hp : Resolved R b h h₁ h₂) {e : PathNode}
    (he : e ∈ (withRoot h₂).nodesTable) (hstray : IsStray (R.tree b) e) :
    e ∈ h.nodesTable ∨ e.offset = R.off b [] := by
  obtain ⟨new, hnew, -, hadd⟩ := hp.grows.nodes
  have he : e ∈ h₂.nodesTable ++ [rootEntry h₂.rootOffset] := he
  rw [hnew, List.mem_append, List.mem_append, List.mem_singleton] at he
  obtain (hold | hkept) | hroot := he
  · exact .inl ((hp.marked.mem_stray hstray).1 hold)
  · obtain ⟨n, hn, rfl⟩ := List.mem_map.1 hkept
    have ha := (hadd n hn).2
    exact absurd rfl (hstray n ha.mem ha.ne)
  · refine .inr ?_
    rw [hroot]
    exact hp.consistent.root

/-- Stray entries stay. -/
theorem Resolved.stray_stays (hp : Resolved R b h h₁ h₂) {e : PathNode}
    (he : e ∈ h.nodesTable) (hstray : IsStray (R.tree b) e) :
    e ∈ (withRoot h₂).nodesTable := by
  obtain ⟨new, hnew, -⟩ := hp.grows.nodes
  have he₁ := (hp.marked.mem_stray hstray).2 he
  have he₂ : e ∈ h₂.nodesTable := hnew ▸ List.mem_append_left _ he₁
  exact List.mem_append_left _ he₂

/-- The seeds stay the same. -/
theorem Resolved.seed_iff (hp : Resolved R b h h₁ h₂)
    (hb : Readable R b) (hc : Counted (withRoot h₂).nodesTable table) :
    Seed R b table p ↔ Seed R b h.nodesTable p := by
  constructor
  · rintro ⟨hpaths, hne, e, he, hstray, hoff⟩
    obtain ⟨e', he', hname, hoff'⟩ :=
      (hc.row_iff e.name e.offset).1 ⟨e, he, rfl, rfl⟩
    have hstray' : IsStray (R.tree b) e' := by
      intro q hq hq0
      rw [hname]
      exact hstray q hq hq0
    cases hp.stray_cases he' hstray' with
    | inl hold => exact ⟨hpaths, hne, e', hold, hstray', hoff' ▸ hoff⟩
    | inr hroot =>
        rw [← hoff', hroot, hb.off_eq_iff hb.wf.root hpaths] at hoff
        exact absurd hoff.symm hne
  · rintro ⟨hpaths, hne, e, he, hstray, hoff⟩
    obtain ⟨e', he', hname, hoff'⟩ := (hc.row_iff e.name e.offset).2
      ⟨e, hp.stray_stays he hstray, rfl, rfl⟩
    refine ⟨hpaths, hne, e', he', ?_, hoff'.trans hoff⟩
    intro q hq hq0
    rw [hname]
    exact hstray q hq hq0

/-- After a call the context is ready for another. -/
theorem Resolved.ready (hp : Resolved R b h h₁ h₂) (hr : Ready R b h)
    (hb : Readable R b) (ht : Trimmed R [] (withRoot h₂) b h' b') :
    Ready R b h' := by
  have hdep : h'.depTable = h₂.depTable := by
    rw [ht.context]
    rfl
  have hin : ∀ p ∈ (R.tree b).paths, InTable h₂.nodesTable p →
      InTable h'.nodesTable p := by
    intro p hpaths hin
    rw [ht.table.inTable_iff, inTable_withRoot hb.wf hpaths]
    exact hin
  refine ⟨?_, ?_, ?_, ?_⟩
  · intro p hpaths hne
    unfold Single
    rw [ht.table.names]
    apply single_withRoot hb.wf hpaths
    exact hp.grows.single hb.wf hpaths
      (hp.marked.single _ (hr.single p hpaths hne))
  · intro d hd
    rw [hdep] at hd
    obtain ⟨p, hpaths, hne, hfrom, hor⟩ := hp.consistent.deps d hd
    refine ⟨p, hpaths, hne, hfrom, hor.imp (hin p hpaths) ?_⟩
    exact (hp.seed_iff hb ht.table).2
  · intro p q hq hrec m hm hne
    unfold recorded at hrec
    rw [hdep] at hrec
    exact hin m (hb.wf.mem_above hq hm) (hp.target hr hq hrec m hm hne)
  · intro e he hstray
    obtain ⟨e', he', hname, hoff⟩ :=
      (ht.table.row_iff e.name e.offset).1 ⟨e, he, rfl, rfl⟩
    have hstray' : IsStray (R.tree b) e' := by
      intro q hq hq0
      rw [hname]
      exact hstray q hq hq0
    rw [← hoff]
    cases hp.stray_cases he' hstray' with
    | inl hold => exact hr.leads e' hold hstray'
    | inr hroot => exact .inl ⟨[], hb.wf.root, hroot⟩

end Trim

-- ===================================================== fdtgen_generate

section Generate

variable {L : Libfdt} {R : L.Reading} {b : L.Blob} {h₀ h₁ h₂ h' : Context}
  {fuel : Nat}

/-- The buffer holds the input and a status for each of its nodes. -/
def BufferFits (R : L.Reading) (ori : L.Blob) (bufsize : Nat) : Prop :=
  R.size ori + (R.tree ori).length * statusSize R ≤ bufsize

/-- The steps that are enough for a tree, with a table that is not longer
than the tree has nodes. -/
def generateBound (t : Tree) : Nat :=
  2 ^ 31 + t.length * t.length + t.length
    + walkBound t.length maxFullPathLength t.length maxFullPathLength
      t.length + 1

/-- There are at most as many missing records as pairs of nodes. -/
theorem absent_le (h : Context) :
    absent R b h ≤ (R.tree b).length * (R.tree b).length := by
  unfold absent
  have hlen := List.length_product (R.tree b).paths (R.tree b).paths
  rw [Tree.length_paths] at hlen
  exact Nat.le_trans List.countP_le_length (Nat.le_of_eq hlen)

/-- What a call does to the tree in the buffer and to the context. -/
structure Generated (R : L.Reading) (b : L.Blob) (h₀ h' : Context)
    (dtb : L.Blob) : Prop where
  restricted : Restricted (R.tree b) (Asks R b h₀.nodesTable)
    (fun p => p ≠ [] ∧ due h₀.nodesTable p) (R.tree dtb)
  ready : Ready R b h'
  bufsize : h'.bufsize = h₀.bufsize
  inTable : ∀ p ∈ (R.tree b).paths, p ≠ [] →
    (InTable h'.nodesTable p ↔ Asks R b h₀.nodesTable p)
  seed : ∀ p, Seed R b h'.nodesTable p ↔ Seed R b h₀.nodesTable p
  settled : ∀ p ∈ (R.tree b).paths, p ≠ [] → due h'.nodesTable p = false
  length : h'.nodesTable.length
    ≤ h₀.nodesTable.length + 2 * (R.tree b).length + 1

/-- The first two passes. -/
theorem Input.resolved (hI : Input R b) (hr : Ready R b h₀)
    (hfuel : generateBound (R.tree b) + h₀.nodesTable.length ≤ fuel) :
    ∃ found h₁ h₂, findNodesToKeep L b fuel
        { h₀ with rootOffset := R.off b [], stringBuf := [] } (R.off b [])
        = .ok (found, h₁)
      ∧ resolveAllDependencies L b fuel h₁ = .ok h₂
      ∧ Resolved R b h₀ h₁ h₂ ∧ h₁.bufsize = h₀.bufsize := by
  have hb := hI.readable
  unfold generateBound walkBound maxFullPathLength at hfuel
  have hlim : 2 ^ 31 ≤ fuel := by omega
  obtain ⟨found, table, hfind, hm, -⟩ := hb.findNodesToKeep_ok
    (h := { h₀ with rootOffset := R.off b [], stringBuf := [] })
    hb.wf.root (hI.enough hlim).deep rfl
  let h₁ : Context := { h₀ with
    rootOffset := R.off b [], stringBuf := [], nodesTable := table }
  have habs : absent R b h₁ < fuel := by
    have hle := absent_le (R := R) (b := b) h₁
    omega
  have hlen : h₁.nodesTable.length + (R.tree b).length < fuel := by
    have hle : table.length ≤ h₀.nodesTable.length + (R.tree b).length :=
      hm.length_le
    show table.length + (R.tree b).length < fuel
    omega
  have hm₁ : Marked R b (fun m => [] <+: m ∧ m ≠ []) h₀.nodesTable
      h₁.nodesTable := hm
  obtain ⟨h₂, hres, hc, hg, hdone⟩ := hI.resolveAllDependencies_ok
    keepFrom_closedSet (hI.enough hlim)
    (fun _ he => hr.visited hm₁ he)
    (hr.consistent hm₁ rfl rfl) habs hlen
  exact ⟨found, h₁, h₂, hfind, hres, ⟨hm, rfl, hg, hc, hdone⟩, rfl⟩

/-- The buffer holds the input and every status that the table asks
for. -/
def FitsFor (R : L.Reading) (ori : L.Blob) (table : List PathNode)
    (bufsize : Nat) : Prop :=
  R.size ori + dues (R.tree ori) table * statusSize R ≤ bufsize

/-- A buffer with room for the changes has room for the tree. -/
theorem FitsFor.size_le {ori : L.Blob} {table : List PathNode}
    {bufsize : Nat} (hfits : FitsFor R ori table bufsize) :
    R.size ori ≤ bufsize :=
  Nat.le_trans (Nat.le_add_right _ _) hfits

/-- No table asks for more statuses than there are nodes. -/
theorem BufferFits.fitsFor {ori : L.Blob} {bufsize : Nat}
    (hfits : BufferFits R ori bufsize) (table : List PathNode) :
    FitsFor R ori table bufsize := by
  have hle : dues (R.tree ori) table ≤ (R.tree ori).length := by
    unfold dues
    rw [← Tree.length_paths]
    exact List.countP_le_length
  have hmul := Nat.mul_le_mul_right (statusSize R) hle
  unfold BufferFits at hfits
  unfold FitsFor
  omega

/-- There is room for them, if that is the size of the buffer. -/
theorem FitsFor.room {h : Context}
    (hfits : FitsFor R b h.nodesTable h.bufsize)
    (hcap : R.cap b = h.bufsize) : Room R h b := by
  unfold Room
  unfold FitsFor at hfits
  omega

/-- The first two passes ask for no further status. -/
theorem Resolved.room (hp : Resolved R b h₀ h₁ h₂) (hw : (R.tree b).Wf)
    (hroom : Room R h₀ b) : Room R (withRoot h₂) b := by
  apply hroom.of_due
  intro p hpaths hne hd
  rwa [due_withRoot hw hpaths, hp.due_eq hw hpaths hne] at hd

/-- Paths are short enough to be written into the buffer, so the fuel for
the depth suffices. -/
theorem Readable.deepEnough (hb : Readable R b) :
    DeepEnough R b [] maxFullPathLength := by
  intro r hr _
  have hlt := hb.path_lt r hr
  have hle := length_le_pathStr r
  rw [List.length_nil]
  omega

/-- What is due at the end: nothing, since the nodes that are left are not
open and the others have no entry. -/
theorem Resolved.settled {b' : L.Blob} (hp : Resolved R b h₀ h₁ h₂)
    (hr : Ready R b h₀) (hw : (R.tree b).Wf)
    (ht : Trimmed R [] (withRoot h₂) b h' b')
    (hrest : Restricted (R.tree b) (Asks R b h₀.nodesTable)
      (fun p => p ≠ [] ∧ due h₀.nodesTable p) (R.tree b'))
    (hopen : ∀ x ∈ (R.tree b').paths, x ≠ [] →
      ¬isOpen h'.nodesTable x) {p : Path} (hpaths : p ∈ (R.tree b).paths)
    (hne : p ≠ []) : due h'.nodesTable p = false := by
  by_cases hin : p ∈ (R.tree b').paths
  · exact not_due_of_not_open (hopen p hin hne)
  · have hout : ¬InTable h'.nodesTable p := by
      rw [ht.table.inTable_iff, inTable_withRoot hw hpaths,
        hp.inTable_iff hr hw hpaths hne]
      exact fun hk => hin ((hrest.mem_iff p).2 ⟨hpaths, hk⟩)
    unfold InTable at hout
    rw [Bool.not_eq_true, Option.isSome_eq_false_iff,
      Option.isNone_iff_eq_none] at hout
    unfold due
    rw [hout]
    rfl

/-- The three passes one after the other, between the two checks. -/
theorem Readable.generateIn_eq {b' : L.Blob} {found : Bool}
    (hb : Readable R b) (hcheck : L.checkFull b h₀.bufsize = 0)
    (hfind : findNodesToKeep L b fuel
      { h₀ with rootOffset := R.off b [], stringBuf := [] } (R.off b [])
      = .ok (found, h₁))
    (hres : resolveAllDependencies L b fuel h₁ = .ok h₂)
    (hroot : h₂.rootOffset = R.off b [])
    (htrim : trimTree L fuel (withRoot h₂) b (R.off b []) = .ok (h', b')) :
    generateIn L fuel h₀ b
      = if L.checkFull b' h'.bufsize ≠ 0 then .ok (-1, h', b')
        else .ok (0, h', b') := by
  unfold generateIn
  rw [if_neg (by rw [hcheck]; decide), hb.doc.pathOffset_root b hb.wf]
  show (findNodesToKeep L b fuel
    { h₀ with rootOffset := R.off b [], stringBuf := [] } (R.off b [])
    >>= _) = _
  rw [hfind, ok_bind]
  show (resolveAllDependencies L b fuel h₁ >>= _) = _
  rw [hres, ok_bind]
  show (trimTree L fuel (withRoot h₂) b h₂.rootOffset >>= _) = _
  rw [hroot, htrim, ok_bind]

/-- The tables of two contexts ask for the same. -/
structure SameDemand (R : L.Reading) (b : L.Blob) (h g : Context) :
    Prop where
  asks : ∀ p ∈ (R.tree b).paths, p ≠ [] →
    (Asks R b g.nodesTable p ↔ Asks R b h.nodesTable p)
  due : ∀ p ∈ (R.tree b).paths, p ≠ [] →
    due g.nodesTable p = due h.nodesTable p

/-- The tables agree after the first two passes then. -/
theorem SameDemand.agree {g₀ g₁ g₂ : Context}
    (hsame : SameDemand R b h₀ g₀) (hw : (R.tree b).Wf)
    (hr : Ready R b h₀) (hp : Resolved R b h₀ h₁ h₂)
    (hr' : Ready R b g₀) (hp' : Resolved R b g₀ g₁ g₂) :
    Agree (R.tree b) (withRoot h₂).nodesTable (withRoot g₂).nodesTable := by
  refine ⟨?_, ?_⟩
  · intro p hpaths hne
    rw [inTable_withRoot hw hpaths, inTable_withRoot hw hpaths,
      hp.inTable_iff hr hw hpaths hne, hp'.inTable_iff hr' hw hpaths hne]
    exact hsame.asks p hpaths hne
  · intro p hpaths hne
    rw [due_withRoot hw hpaths, due_withRoot hw hpaths,
      hp.due_eq hw hpaths hne, hp'.due_eq hw hpaths hne]
    exact hsame.due p hpaths hne

/-- `fdtgen_generate` once the input is in the buffer. What it leaves
there depends on what the table asks for alone. -/
theorem Input.generateIn_ok (hI : Input R b) (hr : Ready R b h₀)
    (hcap : R.cap b = h₀.bufsize) (hroom : Room R h₀ b)
    (hfuel : generateBound (R.tree b) + h₀.nodesTable.length ≤ fuel) :
    ∃ h' dtb, generateIn L fuel h₀ b = .ok (0, h', dtb)
      ∧ Generated R b h₀ h' dtb
      ∧ ∀ g₀ : Context, Ready R b g₀ → g₀.bufsize = h₀.bufsize →
          SameDemand R b h₀ g₀ →
          generateBound (R.tree b) + g₀.nodesTable.length ≤ fuel →
          ∃ g', generateIn L fuel g₀ b = .ok (0, g', dtb) := by
  have hb := hI.readable
  obtain ⟨found, h₁, h₂, hfind, hres, hp, hsize₁⟩ :=
    hI.resolved hr hfuel
  have hwalk : walkBound (R.tree b).length maxFullPathLength
      (R.tree b).length maxFullPathLength (R.tree b).length ≤ fuel := by
    unfold generateBound at hfuel
    omega
  obtain ⟨h', b', htrim, ht, hb', hopen, hfollow⟩ := hb.walkable.trimTree_ok
    (h := withRoot h₂) rfl (hb.shortBelow _ _) (hp.room hb.wf hroom)
    hb.deepEnough hwalk
  have hrest := hp.restricted hr hb.wf ht hb' hopen
  have hbufsize : h'.bufsize = h₀.bufsize := by
    rw [ht.context]
    exact hp.grows.bufsize.trans hsize₁
  -- the tree is checked before and after
  have hcheck : L.checkFull b h₀.bufsize = 0 := by
    rw [← hcap]
    exact hI.doc.checkFull_ok b hb.wf
  have hcheck' : L.checkFull b' h₀.bufsize = 0 := by
    rw [← hcap, ← ht.cap]
    exact hI.doc.checkFull_ok b' hb'.wf
  refine ⟨h', b', ?_,
    ⟨hrest, hp.ready hr hb ht, hbufsize, ?_, ?_, ?_, ?_⟩,
    ?_⟩
  · rw [hb.generateIn_eq hcheck hfind hres hp.consistent.root htrim,
      hbufsize, if_neg (by rw [hcheck']; decide)]
  · intro p hpaths hne
    rw [ht.table.inTable_iff, inTable_withRoot hb.wf hpaths,
      hp.inTable_iff hr hb.wf hpaths hne]
  · intro p
    exact hp.seed_iff hb ht.table
  · intro p hpaths hne
    exact hp.settled hr hb.wf ht hrest hopen hpaths hne
  · have hlen : h'.nodesTable.length = h₂.nodesTable.length + 1 := by
      have hnames := congrArg List.length ht.table.names
      rw [List.length_map, List.length_map] at hnames
      rw [hnames]
      exact List.length_append
    have hle₁ := hp.marked.length_le
    have hle₂ := hp.grows.length_le.2
    omega
  -- a context that asks for the same nodes makes the same cuts, in the
  -- same order
  · intro g₀ hr' hsize hsame hfuel'
    obtain ⟨gfound, g₁, g₂, hgfind, hgres, hp', hgsize₁⟩ :=
      hI.resolved hr' hfuel'
    obtain ⟨table, hgtrim⟩ := hfollow (withRoot g₂) rfl
      (hsame.agree hb.wf hr hp hr' hp')
    have hgsize : g₂.bufsize = h₀.bufsize :=
      (hp'.grows.bufsize.trans hgsize₁).trans hsize
    refine ⟨{ withRoot g₂ with nodesTable := table }, ?_⟩
    rw [hb.generateIn_eq (hsize ▸ hcheck) hgfind hgres
      hp'.consistent.root hgtrim]
    show (if L.checkFull b' g₂.bufsize ≠ 0 then _ else _) = _
    rw [hgsize, if_neg (by rw [hcheck']; decide)]

/-- Two contexts that are ready: the trees are the same exactly if the
same nodes are asked for, as far as the status of these is not in
question. -/
theorem Input.generateIn_two {g₀ : Context} (hI : Input R b)
    (hr : Ready R b h₀) (hr' : Ready R b g₀)
    (hcap : R.cap b = h₀.bufsize) (hfits : BufferFits R b h₀.bufsize)
    (hsize : g₀.bufsize = h₀.bufsize)
    (hdue : ∀ p ∈ (R.tree b).paths, p ≠ [] →
      Fdtgen.due g₀.nodesTable p = Fdtgen.due h₀.nodesTable p)
    (hfuel : generateBound (R.tree b) + h₀.nodesTable.length ≤ fuel)
    (hfuel' : generateBound (R.tree b) + g₀.nodesTable.length ≤ fuel) :
    ∃ h' dtb g' dtb', generateIn L fuel h₀ b = .ok (0, h', dtb)
      ∧ generateIn L fuel g₀ b = .ok (0, g', dtb')
      ∧ Generated R b h₀ h' dtb ∧ Generated R b g₀ g' dtb'
      ∧ (R.tree dtb = R.tree dtb' ↔ ∀ p ∈ (R.tree b).paths, p ≠ [] →
          (Asks R b g₀.nodesTable p ↔ Asks R b h₀.nodesTable p)) := by
  have hcap' : R.cap b = g₀.bufsize := hcap.trans hsize.symm
  have hroom : Room R h₀ b := (hfits.fitsFor _).room hcap
  have hroom' : Room R g₀ b := by
    rw [← hsize] at hfits
    exact (hfits.fitsFor _).room hcap'
  obtain ⟨h', dtb, hrun, hgen, hsame⟩ :=
    hI.generateIn_ok hr hcap hroom hfuel
  obtain ⟨g', dtb', hrun', hgen', -⟩ :=
    hI.generateIn_ok hr' hcap' hroom' hfuel'
  refine ⟨h', dtb, g', dtb', hrun, hrun', hgen, hgen', ?_, ?_⟩
  · intro htree p hp _
    have hmem := hgen.restricted.mem_iff p
    have hmem' := hgen'.restricted.mem_iff p
    rw [← htree, hmem] at hmem'
    have hiff := and_congr_right_iff.1 hmem' hp
    exact hiff.symm
  · intro hasks
    obtain ⟨g'', hrun''⟩ := hsame g₀ hr' hsize ⟨hasks, hdue⟩ hfuel'
    rw [hrun', Except.ok.injEq, Prod.mk.injEq, Prod.mk.injEq] at hrun''
    rw [hrun''.2.2]

end Generate

-- ====================================================== a fresh context

section Fresh

variable {L : Libfdt} {R : L.Reading} {b ori : L.Blob}
  {requested : Path → Prop} {table table' : List PathNode}
  {reqs : List (DeviceFlag × List CStr)} {junk : CStr → Int}
  {bufsize : Nat}

/-- The entries name nodes other than the root. -/
def NamesNodes (t : Tree) (table : List PathNode) : Prop :=
  ∀ key, (findNode table key).isSome →
    ∃ p ∈ t.paths, p ≠ [] ∧ key = pathStr p

/-- None of them is stray. -/
theorem NamesNodes.not_stray {t : Tree} (hnames : NamesNodes t table)
    {e : PathNode} (he : e ∈ table) : ¬IsStray t e := by
  intro hstray
  have hsome : (findNode table e.name).isSome := by
    rw [findNode_isSome]
    exact List.mem_map_of_mem he
  obtain ⟨p, hp, hne, hname⟩ := hnames _ hsome
  exact hstray p hp hne hname

/-- Every entry after the first pass is that of a wanted node. -/
theorem Marked.entry_of_mem
    (hm : Marked R b (fun m => [] <+: m ∧ m ≠ []) table table')
    (hnd : (table.map PathNode.name).Nodup)
    (hnames : NamesNodes (R.tree b) table) {e : PathNode}
    (he : e ∈ table') :
    ∃ p ∈ (R.tree b).paths, p ≠ [] ∧ Wanted (R.tree b) table p
      ∧ e = markedEntry R b table p := by
  cases hm.mem_cases (fun p _ _ => single_of_nodup hnd _) he with
  | inl hwant => exact hwant
  | inr hold => exact absurd hold.1 (hnames.not_stray hold.2)

/-- What `find_nodes_to_keep` starts with: a table of the requests. -/
structure Start (R : L.Reading) (b : L.Blob) (requested : Path → Prop)
    (table : List PathNode) : Prop where
  nodup : (table.map PathNode.name).Nodup
  names : NamesNodes (R.tree b) table
  inTable : ∀ p ∈ (R.tree b).paths, InTable table p → requested p
  requested : ∀ p ∈ (R.tree b).paths, requested p → InTable table p

/-- Every request is for a node of the tree other than the root. -/
def RequestsExist (t : Tree) (reqs : List (DeviceFlag × List CStr)) :
    Prop :=
  ∀ r ∈ reqs, ∀ s ∈ r.2, ∃ p ∈ t.paths, p ≠ [] ∧ s = pathStr p

/-- The table of the requests is what the first pass starts with. -/
theorem start_request (hreq : RequestsExist (R.tree ori) reqs)
    (junk : CStr → Int) (bufsize : Nat) :
    Start R ori (Requested reqs)
      (request junk (fdtgenNewContext bufsize) reqs).nodesTable := by
  have hin : ∀ s, (findNode
      (request junk (fdtgenNewContext bufsize) reqs).nodesTable s).isSome
      ↔ ∃ r ∈ reqs, s ∈ r.2 := by
    intro s
    rw [findNode_request_new, Option.isSome_map, lastFlag_isSome]
  refine ⟨?_, ?_, ?_, ?_⟩
  · exact (request_context (fdtgenNewContext bufsize) reqs List.nodup_nil).2
  · intro key hkey
    obtain ⟨r, hr, hs⟩ := (hin key).1 hkey
    exact hreq r hr key hs
  · intro p _ hp
    exact (hin (pathStr p)).1 hp
  · intro p _ hp
    exact (hin (pathStr p)).2 hp

/-- A context that no call has used yet. -/
structure Fresh (h : Context) : Prop where
  nodup : (h.nodesTable.map PathNode.name).Nodup
  deps : h.depTable = []
  counts : ∀ e ∈ h.nodesTable, e.cnt = 0

theorem fresh_new (bufsize : Nat) : Fresh (fdtgenNewContext bufsize) :=
  ⟨List.nodup_nil, rfl, by simp [fdtgenNewContext]⟩

theorem Fresh.asked {h h' : Context} {nodes : List CStr}
    {flag : DeviceFlag} (hf : Fresh h) (ha : Asked junk h nodes flag h') :
    Fresh h' := by
  refine ⟨ha.nodup hf.nodup, ?_, ?_⟩
  · rw [ha.context]
    exact hf.deps
  · intro e he
    have hfind := Single.findNode_eq he
      (single_of_nodup (ha.nodup hf.nodup) _)
    have hcnt : ∀ e', findNode h.nodesTable e.name = some e' →
        e'.cnt = 0 :=
      fun e' he' => hf.counts e' (List.mem_of_find?_eq_some he')
    rw [ha.entry] at hfind
    split at hfind
    · rw [Option.some.injEq] at hfind
      rw [← hfind]
      cases hold : findNode h.nodesTable e.name with
      | none => rfl
      | some e' => exact hcnt e' hold
    · exact hcnt e hfind

theorem Fresh.request {h : Context} (hf : Fresh h)
    (reqs : List (DeviceFlag × List CStr)) :
    Fresh (request junk h reqs) := by
  induction reqs generalizing h with
  | nil => exact hf
  | cons r reqs ih =>
      rw [request_cons]
      exact ih (hf.asked (asked_initKeepNode h r.2))

/-- A fresh context is ready, if its stray entries lead somewhere. -/
theorem Fresh.ready {h : Context} (hf : Fresh h)
    (hleads : ∀ e ∈ h.nodesTable, IsStray (R.tree b) e →
      (∃ p ∈ (R.tree b).paths, e.offset = R.off b p)
        ∨ L.propertyOffsets b e.offset = []) : Ready R b h := by
  refine ⟨fun p _ _ => single_of_nodup hf.nodup _, ?_, ?_, hleads⟩
  · intro d hd
    rw [hf.deps] at hd
    cases hd
  · intro p q _ hrec
    unfold recorded listed at hrec
    rw [hf.deps] at hrec
    cases hrec

/-- In a fresh context the nodes to be disabled are those whose entry says
so. -/
theorem Fresh.due_iff {h : Context} (hf : Fresh h) (p : Path) :
    due h.nodesTable p = true
      ↔ (findNode h.nodesTable (pathStr p)).map PathNode.flag
        = some .keepAndDisable := by
  unfold due
  cases hfind : findNode h.nodesTable (pathStr p) with
  | none => simp
  | some e =>
      have hcnt := hf.counts e (List.mem_of_find?_eq_some hfind)
      simp [hcnt]

/-- The nodes to be disabled are those whose last request says so. -/
theorem due_request (p : Path) :
    due (Fdtgen.request junk (fdtgenNewContext bufsize) reqs).nodesTable p
        = true
      ↔ Disabled reqs p := by
  rw [((fresh_new bufsize).request reqs).due_iff, findNode_request_new]
  unfold Disabled
  rw [Option.map_map]
  cases lastFlag reqs (pathStr p) <;> simp

/-- The input is in the buffer after `fdt_open_into`. -/
theorem opened (hL : L.Documented R) (hT : WellFormed (R.tree ori))
    (hfits : BufferFits R ori bufsize) :
    R.tree (L.openInto ori bufsize).2 = R.tree ori
      ∧ R.cap (L.openInto ori bufsize).2 = bufsize
      ∧ Input R (L.openInto ori bufsize).2
      ∧ BufferFits R (L.openInto ori bufsize).2 bufsize := by
  obtain ⟨htree, hcap, hsz⟩ :=
    hL.openInto_ok ori bufsize hT.wf (hfits.fitsFor []).size_le
  refine ⟨htree, hcap, ⟨hL, htree ▸ hT⟩, ?_⟩
  unfold BufferFits
  rw [htree, hsz]
  exact hfits

/-- `fdtgen_generate` on a context that is ready. -/
theorem generate_ready (hL : L.Documented R) (hT : WellFormed (R.tree ori))
    {h : Context} (hfits : FitsFor R ori h.nodesTable h.bufsize)
    (hr : Ready R (L.openInto ori h.bufsize).2 h) {fuel : Nat}
    (hfuel : generateBound (R.tree ori) + h.nodesTable.length ≤ fuel) :
    ∃ h' dtb, fdtgenGenerate L fuel h ori = .ok (0, h', dtb)
      ∧ Generated R (L.openInto ori h.bufsize).2 h h' dtb := by
  obtain ⟨htree, hcap, hsz⟩ :=
    hL.openInto_ok ori h.bufsize hT.wf hfits.size_le
  have hI : Input R (L.openInto ori h.bufsize).2 := ⟨hL, htree ▸ hT⟩
  have hroom : Room R h (L.openInto ori h.bufsize).2 := by
    refine FitsFor.room ?_ hcap
    unfold FitsFor
    rw [htree, hsz]
    exact hfits
  have hfuel' : generateBound (R.tree (L.openInto ori h.bufsize).2)
      + h.nodesTable.length ≤ fuel := by
    rw [htree]
    exact hfuel
  rw [fdtgenGenerate_eq]
  obtain ⟨h', dtb, hrun, hgen, -⟩ :=
    hI.generateIn_ok hr hcap hroom hfuel'
  exact ⟨h', dtb, hrun, hgen⟩

/-- If every request is for a node, the table asks for the closure of the
requests. -/
theorem Start.asks_iff (hs : Start R b requested table) {p : Path} :
    Asks R b table p ↔ Keep (R.tree b) requested p := by
  have hnone : ∀ p, ¬Seed R b table p := by
    rintro p ⟨-, -, e, he, hstray, -⟩
    exact hs.names.not_stray he hstray
  refine (keepFrom_none_iff hnone).trans ?_
  exact ⟨Keep.congr hs.inTable, Keep.congr hs.requested⟩

/-- `fdtgen_generate` returns 0, and the tree in the buffer is the
closure of the requests. -/
theorem generate_restricted (hL : L.Documented R)
    (hT : WellFormed (R.tree ori))
    (hreq : RequestsExist (R.tree ori) reqs)
    (hfits : BufferFits R ori bufsize) {fuel : Nat}
    (hfuel : generateBound (R.tree ori)
      + (Fdtgen.request junk (fdtgenNewContext bufsize) reqs).nodesTable.length
      ≤ fuel) :
    ∃ h' dtb, fdtgenGenerate L fuel
        (Fdtgen.request junk (fdtgenNewContext bufsize) reqs) ori
        = .ok (0, h', dtb)
      ∧ Restricted (R.tree ori)
          (Keep (R.tree ori) (Requested reqs)) (Disabled reqs)
          (R.tree dtb) := by
  obtain ⟨htree, -⟩ := opened hL hT hfits
  have hfresh : Fresh (Fdtgen.request junk (fdtgenNewContext bufsize)
      reqs) := (fresh_new bufsize).request reqs
  have hbufsize : (Fdtgen.request junk (fdtgenNewContext bufsize)
      reqs).bufsize = bufsize := by
    rw [(request_context (fdtgenNewContext bufsize) reqs
      List.nodup_nil).1]
    rfl
  have hs : Start R (L.openInto ori bufsize).2 (Requested reqs) _ :=
    start_request (htree ▸ hreq) junk bufsize
  have hready : Ready R (L.openInto ori bufsize).2
      (Fdtgen.request junk (fdtgenNewContext bufsize) reqs) :=
    hfresh.ready fun e he hstray => absurd hstray (hs.names.not_stray he)
  obtain ⟨h', dtb, hrun, hgen⟩ := generate_ready hL hT
    (by rw [hbufsize]; exact hfits.fitsFor _)
    (by rw [hbufsize]; exact hready) hfuel
  refine ⟨h', dtb, hrun, ?_⟩
  have hrest := hgen.restricted
  rw [hbufsize, htree] at hrest
  apply hrest.congr
  · intro p _
    have hasks := hs.asks_iff (p := p)
    rwa [htree] at hasks
  · intro p hp
    rw [due_request]
    refine and_iff_right_of_imp fun hdis => ?_
    have hkey : (lastFlag reqs (pathStr p)).isSome := by
      unfold Disabled at hdis
      rw [hdis]
      rfl
    -- a node that is disabled was asked for, so it is not the root
    obtain ⟨r, hr, hmem⟩ := lastFlag_isSome.1 hkey
    obtain ⟨q, hq, hq0, hname⟩ := hreq r hr _ hmem
    exact hT.wf.pathStr_injective hp hq hname ▸ hq0

end Fresh

end ProjectsLibs.Fdtgen
