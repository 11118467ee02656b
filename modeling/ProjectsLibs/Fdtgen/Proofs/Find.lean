/-
`find_nodes_to_keep`: the requests closed under ancestors.

A node is wanted when it or something below it has an entry. `Marked S`
says what the table looks like once the nodes of `S` have been visited:
the wanted ones have an entry with their offset, nothing else has
changed. Entries that are made on the way never make another node wanted
(`Marked.wanted_iff`), so it does not matter that the walk consults the
table it is changing.

# The first pass as a change of the table

Each call visits what is below its node and returns whether something
there has an entry; the loop over the children makes the entry of a child
from that. What this makes of the table is said by the set of nodes that
were visited (`Marked`): the wanted ones among them carry their own
offsets then, and all others are as they were. Two changes one after the
other are the union of their sets, so the loop over children is an
induction over the list of children, and the recursion one over the depth
limit. The table grows on the way, but what is entered is an ancestor of
something that was asked for, so nothing that is looked up later changes
its answer.
-/
import ProjectsLibs.Lib.Loop
import ProjectsLibs.Fdtgen.Proofs.Tables

namespace ProjectsLibs.Fdtgen

open Fdt Lib

-- ========================================================= wanted nodes

section Marked

variable {L : Libfdt} (R : L.Reading) (b : L.Blob)

/-- The node or one below it has an entry. -/
def Wanted (t : Tree) (table : List PathNode) (m : Path) : Prop :=
  ∃ r ∈ t.paths, m <+: r ∧ InTable table r

/-- The entry of a node that is wanted, after the visit. -/
def markedEntry (table : List PathNode) (m : Path) : PathNode :=
  match findNode table (pathStr m) with
  | some e => { e with offset := R.off b m }
  | none => ⟨pathStr m, R.off b m, 0, .keep⟩

/-- The nodes of `S` have been visited. -/
structure Marked (S : Path → Prop) (table table' : List PathNode) :
    Prop where
  single : ∀ key, Single table key → Single table' key
  order : ∃ new : List Path, table'.map PathNode.name
      = table.map PathNode.name ++ new.map pathStr
    ∧ new.Nodup ∧ ∀ n ∈ new, n ∈ (R.tree b).paths ∧ S n
  entry : ∀ m ∈ (R.tree b).paths, S m → Wanted (R.tree b) table m →
    findNode table' (pathStr m) = some (markedEntry R b table m)
  other : ∀ key, (∀ m ∈ (R.tree b).paths, S m →
      Wanted (R.tree b) table m → pathStr m ≠ key) →
    findNode table' key = findNode table key
  /-- also where a key comes twice -/
  rest : ∀ e, (∀ m ∈ (R.tree b).paths, S m →
      Wanted (R.tree b) table m → pathStr m ≠ e.name) →
    (e ∈ table' ↔ e ∈ table)

variable {R b} {S S' : Path → Prop} {table table' table'' : List PathNode}

/-- The entry has the path as its name. -/
theorem markedEntry_name (m : Path) :
    (markedEntry R b table m).name = pathStr m := by
  unfold markedEntry
  split
  · rename_i e he
    show e.name = pathStr m
    exact findNode_name he
  · rfl

theorem markedEntry_offset (m : Path) :
    (markedEntry R b table m).offset = R.off b m := by
  unfold markedEntry
  split <;> rfl

/-- Before any node is visited. -/
theorem Marked.start (hS : ∀ m, ¬S m) : Marked R b S table table := by
  refine ⟨fun _ hs => hs,
    ⟨[], (List.append_nil _).symm, List.nodup_nil, by simp⟩, ?_, ?_, ?_⟩
  · intro m _ hm
    exact absurd hm (hS m)
  · intro key _
    rfl
  · intro e _
    rfl

/-- The set of nodes may be described in another way. -/
theorem Marked.congr (hm : Marked R b S table table')
    (hS : ∀ m ∈ (R.tree b).paths, S m ↔ S' m) :
    Marked R b S' table table' := by
  refine ⟨hm.single, ?_, ?_, ?_, ?_⟩
  · obtain ⟨new, hnew, hnd, hmem⟩ := hm.order
    refine ⟨new, hnew, hnd, fun n hn => ?_⟩
    exact ⟨(hmem n hn).1, (hS n (hmem n hn).1).1 (hmem n hn).2⟩
  · intro m hmem hSm
    exact hm.entry m hmem ((hS m hmem).2 hSm)
  · intro key hkey
    apply hm.other
    intro m hmem hSm
    exact hkey m hmem ((hS m hmem).1 hSm)
  · intro e he
    apply hm.rest
    intro m hmem hSm
    exact he m hmem ((hS m hmem).1 hSm)

/-- Entries stay. -/
theorem Marked.inTable (hm : Marked R b S table table')
    {p : Path} (hp : InTable table p) : InTable table' p := by
  obtain ⟨new, hnew, -⟩ := hm.order
  unfold InTable at hp ⊢
  rw [findNode_isSome] at hp ⊢
  rw [hnew]
  exact List.mem_append_left _ hp

/-- No more entries are made than there are nodes. -/
theorem Marked.length_le (hm : Marked R b S table table') :
    table'.length ≤ table.length + (R.tree b).length := by
  obtain ⟨new, hnew, hnd, hmem⟩ := hm.order
  have hsub : new ⊆ (R.tree b).paths := fun n hn => (hmem n hn).1
  have hle := (List.subperm_of_subset hnd hsub).length_le
  rw [Tree.length_paths] at hle
  have hlen := congrArg List.length hnew
  rw [List.length_append, List.length_map, List.length_map,
    List.length_map] at hlen
  omega

/-- A node that gets an entry was wanted. -/
theorem Marked.wanted_of_inTable (hw : (R.tree b).Wf)
    (hm : Marked R b S table table') {r : Path}
    (hr : r ∈ (R.tree b).paths) (hin : InTable table' r) :
    Wanted (R.tree b) table r := by
  by_cases hwant : Wanted (R.tree b) table r
  · exact hwant
  · unfold InTable at hin
    rw [hm.other] at hin
    · exact ⟨r, hr, List.prefix_rfl, hin⟩
    · intro m hmem _ hwm heq
      rw [hw.pathStr_injective hmem hr heq] at hwm
      exact hwant hwm

/-- The visit of a node makes no other node wanted. -/
theorem Marked.wanted_iff (hw : (R.tree b).Wf)
    (hm : Marked R b S table table') {m : Path} :
    Wanted (R.tree b) table' m ↔ Wanted (R.tree b) table m := by
  constructor
  · intro hwant
    obtain ⟨r, hr, hmr, hin⟩ := hwant
    obtain ⟨r', hr', hrr', hin'⟩ := hm.wanted_of_inTable hw hr hin
    exact ⟨r', hr', hmr.trans hrr', hin'⟩
  · intro hwant
    obtain ⟨r, hr, hmr, hin⟩ := hwant
    exact ⟨r, hr, hmr, hm.inTable hin⟩

/-- What a node outside of `S` is found with has not changed. -/
theorem Marked.findNode_eq (hw : (R.tree b).Wf)
    (hm : Marked R b S table table') {p : Path}
    (hp : p ∈ (R.tree b).paths) (hS : ¬S p) :
    findNode table' (pathStr p) = findNode table (pathStr p) := by
  apply hm.other
  intro m hmem hSm _ heq
  exact hS (hw.pathStr_injective hmem hp heq ▸ hSm)

/-- Visits one after the other, of different nodes. -/
theorem Marked.trans (hw : (R.tree b).Wf)
    (hm : Marked R b S table table') (hm' : Marked R b S' table' table'')
    (hdisj : ∀ m, S m → ¬S' m) :
    Marked R b (fun m => S m ∨ S' m) table table'' := by
  refine ⟨fun key hs => hm'.single key (hm.single key hs), ?_, ?_, ?_, ?_⟩
  · obtain ⟨new, hnew, hnd, hmem⟩ := hm.order
    obtain ⟨new', hnew', hnd', hmem'⟩ := hm'.order
    refine ⟨new ++ new', ?_, List.nodup_append.2 ⟨hnd, hnd', ?_⟩, ?_⟩
    · rw [hnew', hnew, List.append_assoc, List.map_append]
    · rintro n hn _ hn' rfl
      exact hdisj n (hmem n hn).2 (hmem' n hn').2
    · intro n hn
      cases List.mem_append.1 hn with
      | inl hn => exact ⟨(hmem n hn).1, .inl (hmem n hn).2⟩
      | inr hn => exact ⟨(hmem' n hn).1, .inr (hmem' n hn).2⟩
  · intro m hmem hSm hwant
    cases hSm with
    | inl hSm =>
        rw [hm'.findNode_eq hw hmem (hdisj m hSm)]
        exact hm.entry m hmem hSm hwant
    | inr hSm =>
        have hsame := hm.findNode_eq hw hmem fun h => hdisj m h hSm
        rw [hm'.entry m hmem hSm ((hm.wanted_iff hw).2 hwant)]
        unfold markedEntry
        rw [hsame]
  · intro key hkey
    rw [hm'.other, hm.other]
    · intro m hmem hSm
      exact hkey m hmem (.inl hSm)
    · intro m hmem hSm hwant
      exact hkey m hmem (.inr hSm) ((hm.wanted_iff hw).1 hwant)
  · intro e he
    rw [hm'.rest, hm.rest]
    · intro m hmem hSm
      exact he m hmem (.inl hSm)
    · intro m hmem hSm hwant
      exact he m hmem (.inr hSm) ((hm.wanted_iff hw).1 hwant)

/-- The table after a child that is wanted. -/
def markChild (R : L.Reading) (b : L.Blob) (table : List PathNode)
    (c : Path) : List PathNode :=
  match findNode table (pathStr c) with
  | none => table ++ [⟨pathStr c, R.off b c, 0, .keep⟩]
  | some _ =>
      updateNode table (pathStr c) fun e => { e with offset := R.off b c }

/-- Marking writes the offset of this child only. -/
theorem findNode_markChild (c : Path) (key : CStr) :
    findNode (markChild R b table c) key
      = if key = pathStr c then some (markedEntry R b table c)
        else findNode table key := by
  unfold markChild markedEntry
  cases hf : findNode table (pathStr c) with
  | none =>
      exact findNode_add hf key
  | some e =>
      show findNode (updateNode _ _ _) key = _
      rw [findNode_updateNode (by intro e; rfl), hf]
      rfl

/-- A child that is wanted is marked. -/
theorem Marked.child {c : Path} (hc : c ∈ (R.tree b).paths)
    (hwant : Wanted (R.tree b) table c) :
    Marked R b (fun m => m = c) table (markChild R b table c) := by
  refine ⟨?_, ?_, ?_, ?_, ?_⟩
  · intro key hs
    unfold markChild
    split
    · rename_i hnone
      exact hs.add hnone
    · unfold Single
      rwa [updateNode_names (by intro e; rfl)]
  · unfold markChild
    split
    · exact ⟨[c], by rw [List.map_append]; rfl, List.nodup_singleton c,
        by simpa using hc⟩
    · refine ⟨[], ?_, List.nodup_nil, by simp⟩
      rw [updateNode_names (by intro e; rfl), List.map_nil,
        List.append_nil]
  · intro m _ heq _
    rw [findNode_markChild, heq, if_pos rfl]
  · intro key hkey
    rw [findNode_markChild, if_neg]
    intro heq
    exact hkey c hc rfl hwant heq.symm
  · intro e he
    have hne : e.name ≠ pathStr c := (he c hc rfl hwant).symm
    unfold markChild
    split
    · rw [List.mem_append, List.mem_singleton, or_iff_left]
      rintro rfl
      exact hne rfl
    · exact mem_updateNode (by intro e; rfl) hne

/-- One that is not leaves the table as it was. -/
theorem Marked.unwanted {c : Path}
    (hnot : ¬Wanted (R.tree b) table c) :
    Marked R b (fun m => m = c) table table := by
  refine ⟨fun _ hs => hs,
    ⟨[], (List.append_nil _).symm, List.nodup_nil, by simp⟩, ?_, ?_, ?_⟩
  · intro m _ heq hwant
    exact absurd (heq ▸ hwant) hnot
  · intro key _
    rfl
  · intro e _
    rfl

end Marked

-- ================================================================= walk

section Walk

variable {L : Libfdt} {R : L.Reading} {b : L.Blob} {P : Path}
  {h : Context} {fuel : Nat}

/-- Something strictly below `P` has an entry. -/
def WantedBelow (t : Tree) (table : List PathNode) (P : Path) : Prop :=
  ∃ r ∈ t.paths, P <+: r ∧ r ≠ P ∧ InTable table r

/-- A node is wanted for what is below it or for itself. -/
theorem wanted_iff_below {t : Tree} {table : List PathNode}
    (hP : P ∈ t.paths) :
    Wanted t table P ↔ WantedBelow t table P ∨ InTable table P := by
  constructor
  · intro hwant
    obtain ⟨r, hr, hPr, hin⟩ := hwant
    by_cases heq : r = P
    · exact .inr (heq ▸ hin)
    · exact .inl ⟨r, hr, hPr, heq, hin⟩
  · intro hor
    cases hor with
    | inl hbelow =>
        obtain ⟨r, hr, hPr, -, hin⟩ := hbelow
        exact ⟨r, hr, hPr, hin⟩
    | inr hin => exact ⟨P, hP, List.prefix_rfl, hin⟩

/-- Something below `P` has an entry if one of the children is wanted. -/
theorem wanted_children_iff {t : Tree} (hw : t.Wf)
    {table : List PathNode} :
    (∃ c ∈ t.children P, Wanted t table c) ↔ WantedBelow t table P := by
  constructor
  · intro hex
    obtain ⟨c, hc, r, hr, hcr, hin⟩ := hex
    obtain ⟨hPr, hne⟩ := (Tree.below_iff_children hw hr).1 ⟨c, hc, hcr⟩
    exact ⟨r, hr, hPr, hne, hin⟩
  · intro hbelow
    obtain ⟨r, hr, hPr, hne, hin⟩ := hbelow
    obtain ⟨c, hc, hcr⟩ := (Tree.below_iff_children hw hr).2 ⟨hPr, hne⟩
    exact ⟨c, hc, r, hr, hcr, hin⟩

/-- The condition the loop tests after a child's subtree: the child is
wanted. -/
theorem Readable.test_iff (hb : Readable R b) {c : Path}
    (hc : c ∈ (R.tree b).paths) {table table₁ : List PathNode}
    {found : Bool}
    (hm : Marked R b (fun m => c <+: m ∧ m ≠ c) table table₁)
    (hf : found = true ↔ WantedBelow (R.tree b) table c) :
    ((!found && (findNode table₁ (pathStr c)).isSome) || found) = true
      ↔ Wanted (R.tree b) table c := by
  rw [hm.findNode_eq hb.wf hc fun hS => hS.2 rfl, wanted_iff_below hc,
    ← hf]
  show _ ↔ _ ∨ (findNode table (pathStr c)).isSome = true
  cases found with
  | true => simp
  | false => simp

/-- A child and everything below it have been visited. -/
theorem Readable.marked_subtree (hb : Readable R b) {c : Path}
    {table table₁ table₂ : List PathNode}
    (hm : Marked R b (fun m => c <+: m ∧ m ≠ c) table table₁)
    (hm' : Marked R b (fun m => m = c) table₁ table₂) :
    Marked R b (fun m => c <+: m) table table₂ := by
  refine (hm.trans hb.wf hm' fun m hS => hS.2).congr ?_
  intro m _
  constructor
  · intro hor
    cases hor with
    | inl hS => exact hS.1
    | inr heq => exact heq ▸ List.prefix_rfl
  · intro hpre
    by_cases heq : m = c
    · exact .inr heq
    · exact .inl ⟨hpre, heq⟩

/-- The loop body visits a child and what is below it. -/
theorem Readable.findChild_ok (hb : Readable R b)
    {descend : Context → Int → Except Fault (Bool × Context)} {n : CStr}
    {find found : Bool} {table₁ : List PathNode}
    (hn : P ++ [n] ∈ (R.tree b).paths) (hbuf : h.stringBuf = pathStr P)
    (hdesc : descend { h with stringBuf := pathStr (P ++ [n]) }
        (R.off b (P ++ [n]))
      = .ok (found, { h with
          nodesTable := table₁, stringBuf := pathStr (P ++ [n]) }))
    (hm : Marked R b (fun m => P ++ [n] <+: m ∧ m ≠ P ++ [n])
      h.nodesTable table₁)
    (hf : found = true ↔ WantedBelow (R.tree b) h.nodesTable (P ++ [n])) :
    ∃ find' table, findChild L b descend find h (R.off b (P ++ [n]))
        = .ok (find', { h with nodesTable := table })
      ∧ Marked R b (fun m => P ++ [n] <+: m) h.nodesTable table
      ∧ (find' = true
        ↔ find = true ∨ Wanted (R.tree b) h.nodesTable (P ++ [n])) := by
  have htest := hb.test_iff hn hm hf
  have hback : ∀ table, { h with
      nodesTable := table, stringBuf := pathStr P }
      = { h with nodesTable := table } := by
    intro table
    rw [← hbuf]
  unfold findChild
  rw [hbuf, hb.strcatChild_eq hn, ok_bind, hdesc, ok_bind]
  by_cases hwant : Wanted (R.tree b) h.nodesTable (P ++ [n])
  · have hchild : Marked R b (fun m => m = P ++ [n]) table₁
        (markChild R b table₁ (P ++ [n])) :=
      Marked.child hn ((hm.wanted_iff hb.wf).2 hwant)
    refine ⟨true, markChild R b table₁ (P ++ [n]), ?_,
      hb.marked_subtree hm hchild, by simp [hwant]⟩
    unfold markChild
    simp only [htest.2 hwant, if_true]
    cases hfind : findNode table₁ (pathStr (P ++ [n])) with
    | none => simp only [take_pathStr, hback]
    | some e => simp only [take_pathStr, hback]
  · have hchild : Marked R b (fun m => m = P ++ [n]) table₁ table₁ :=
      Marked.unwanted fun hw => hwant ((hm.wanted_iff hb.wf).1 hw)
    refine ⟨find, table₁, ?_, hb.marked_subtree hm hchild,
      by simp [hwant]⟩
    have hfalse := Bool.eq_false_iff.2 fun htrue => hwant (htest.1 htrue)
    simp only [hfalse, Bool.false_eq_true, if_false, take_pathStr, hback]

/-- What `find_nodes_to_keep` does at `P`: it visits what is below, and
finds out whether something there has an entry. -/
def FindsBelow (R : L.Reading) (b : L.Blob) (P : Path) (h : Context)
    (r : Except Fault (Bool × Context)) : Prop :=
  ∃ found table, r = .ok (found, { h with nodesTable := table })
    ∧ Marked R b (fun m => P <+: m ∧ m ≠ P) h.nodesTable table
    ∧ (found = true ↔ WantedBelow (R.tree b) h.nodesTable P)

/-- The children up to any of them have been visited, with all below
them. -/
theorem Readable.findChildren_ok (hb : Readable R b)
    {descend : Context → Int → Except Fault (Bool × Context)}
    (hdesc : ∀ c ∈ (R.tree b).children P, ∀ h : Context,
      h.stringBuf = pathStr c → FindsBelow R b c h (descend h (R.off b c)))
    (hbuf : h.stringBuf = pathStr P) {done rest : List Path}
    (hl : (R.tree b).children P = done ++ rest) :
    ∃ find table, done.foldlM (fun s c =>
          findChild L b descend s.1 s.2 (R.off b c)) (false, h)
        = .ok (find, { h with nodesTable := table })
      ∧ Marked R b (fun m => ∃ c ∈ done, c <+: m) h.nodesTable table
      ∧ (find = true
        ↔ ∃ c ∈ done, Wanted (R.tree b) h.nodesTable c) := by
  let inv := fun (done : List Path) (s : Bool × Context) =>
    ∃ table, s.2 = { h with nodesTable := table }
      ∧ Marked R b (fun m => ∃ c ∈ done, c <+: m) h.nodesTable table
      ∧ (s.1 = true ↔ ∃ c ∈ done, Wanted (R.tree b) h.nodesTable c)
  have hinit : inv [] (false, h) :=
    ⟨h.nodesTable, rfl, Marked.start (by simp), by simp⟩
  have hstep : ∀ l₁ c l₂ s, done = l₁ ++ c :: l₂ → inv l₁ s →
      ∃ s', findChild L b descend s.1 s.2 (R.off b c) = .ok s'
        ∧ inv (l₁ ++ [c]) s' := by
    intro l₁ c l₂ s hdone hinv
    obtain ⟨find, h₁⟩ := s
    obtain ⟨table, hh₁, hm, hf⟩ := hinv
    subst hh₁
    rw [hdone, List.append_assoc, List.cons_append] at hl
    have hmem : c ∈ (R.tree b).children P := by
      rw [hl]
      exact List.mem_append_right _ (List.mem_cons_self ..)
    -- the subtrees of two children have no node in common
    have hdisj : ∀ m, (∃ d ∈ l₁, d <+: m) → ¬c <+: m :=
      hb.wf.children_disjoint hl
    have hdesc := hdesc c hmem { h with
      nodesTable := table, stringBuf := pathStr c } rfl
    obtain ⟨hc, n, rfl⟩ := Tree.mem_children.1 hmem
    obtain ⟨found, table₁, hrun₁, hm₁, hf₁⟩ := hdesc
    obtain ⟨find', table₂, hrun₂, hm₂, hf₂⟩ := hb.findChild_ok
      (h := { h with nodesTable := table }) hc hbuf hrun₁ hm₁ hf₁
    refine ⟨_, hrun₂, table₂, rfl, ?_, ?_⟩
    · refine (hm.trans hb.wf hm₂ hdisj).congr ?_
      intro m _
      simp only [List.mem_append, List.mem_singleton, or_and_right,
        exists_or, exists_eq_left]
    · rw [hf₂, hf, hm.wanted_iff hb.wf]
      simp only [List.mem_append, List.mem_singleton, or_and_right,
        exists_or, exists_eq_left]
  -- the invariant holds behind the last child
  obtain ⟨⟨find, h'⟩, hrun, table, hh', hm, hf⟩ :=
    foldlM_invariant inv hinit hstep
  subst hh'
  exact ⟨find, table, hrun, hm, hf⟩

/-- `find_nodes_to_keep` visits what is below a node, and finds out
whether something there has an entry. -/
theorem Readable.findNodesToKeep_ok (hb : Readable R b)
    (hP : P ∈ (R.tree b).paths) (hd : DeepEnough R b P fuel)
    (hbuf : h.stringBuf = pathStr P) :
    FindsBelow R b P h (findNodesToKeep L b fuel h (R.off b P)) := by
  induction fuel generalizing P h with
  | zero =>
      obtain ⟨fuel', hfuel⟩ := hd.pos hP
      cases hfuel
  | succ fuel ih =>
      rw [findNodesToKeep, hb.doc.subnodes_eq b P hb.wf hP,
        List.foldlM_map]
      have hdesc : ∀ c ∈ (R.tree b).children P, ∀ h : Context,
          h.stringBuf = pathStr c →
          FindsBelow R b c h (findNodesToKeep L b fuel h (R.off b c)) := by
        intro c hc h hbuf
        obtain ⟨hmem, n, rfl⟩ := Tree.mem_children.1 hc
        exact ih hmem (hd.child n) hbuf
      obtain ⟨found, table, hrun, hm, hf⟩ := hb.findChildren_ok hdesc hbuf
        (List.append_nil _).symm
      refine ⟨found, table, hrun, hm.congr ?_, hf.trans ?_⟩
      · intro m hmem
        exact Tree.below_iff_children hb.wf hmem
      · exact wanted_children_iff hb.wf

end Walk

end ProjectsLibs.Fdtgen
