/-
What the functions that register dependencies do to the tables.

# Shape of the argument

`register_node_dependencies` and `keep_node_and_parents` call each other,
and both only add: entries to `nodes_table`, targets to the lists of
`dep_table`. `Grows P h h'` says what a call made in `h` may have added
when it returns in `h'`:

- a new node belongs to the set `K` and its own dependencies are
  registered. Its ancestors have entries, but for those at or above `P`:
  `keep_node_and_parents` enters a path from the bottom up, and `P` is
  where it stands.
- the target of a new dependency has an entry, its ancestors too.

Nothing is said of the nodes that were in the table before: some of them
are being registered further up in the recursion. That a node with an
entry in `dep_table` has one in `nodes_table` (`Consistent.deps`) is why
the check for such an entry in `keep_node_and_parents` never skips a new
node.

The iteration also registers the nodes that the offsets of entries lead
to that name no node: the seeds. A seed need not have an entry when it is
registered, and when it gets one later it is skipped; it is registered
all the same, by the iteration.

Every recursive call of `register_node_dependencies` is made after a pair
of nodes has been recorded that was not before, so `absent`, the number
of pairs not recorded, bounds the depth.

`string_buf` does not appear: it is overwritten at any time, and each
function reads it only before it makes a call.
-/
import ProjectsLibs.Lib.Loop
import ProjectsLibs.Fdtgen.Proofs.Tables

namespace ProjectsLibs.Fdtgen

open Fdt Lib

-- ========================================================== definitions

section Definitions

variable {L : Libfdt} (R : L.Reading) (b : L.Blob) (K seed : Path → Prop)

/-- What is assumed of the blob that the registering functions read. -/
structure Input : Prop where
  doc : L.Documented R
  ok : WellFormed (R.tree b)

/-- A tree that is well formed can be read. -/
theorem Input.readable {R : L.Reading} {b : L.Blob} (hI : Input R b) :
    Readable R b :=
  ⟨hI.doc, hI.ok.wf, hI.ok.path_lt⟩

/-- A node whose dependencies are looked at is kept, unless it is a
seed. -/
structure Consistent (h : Context) : Prop where
  root : h.rootOffset = R.off b []
  deps : ∀ d ∈ h.depTable, ∃ p ∈ (R.tree b).paths,
    p ≠ [] ∧ d.fromPath = pathStr p ∧ (InTable h.nodesTable p ∨ seed p)

/-- A node and its ancestors, the root aside, have entries. -/
def Closed (table : List PathNode) (p : Path) : Prop :=
  ∀ m, m <+: p → m ≠ [] → InTable table m

/-- Every dependency of `p` is recorded. -/
def Done (h : Context) (p : Path) : Prop :=
  ∀ q, Edge (R.tree b) p q → p = q ∨ recorded h p q

/-- The entry that `keep_node_and_parents` makes for `n`. -/
def keptEntry (n : Path) : PathNode :=
  ⟨pathStr n, R.off b n.dropLast, 0, .keep⟩

/-- What holds of a node that has been added; `P` is the node whose
children `keep_node_and_parents` looks at. -/
structure Added (P : Path) (h' : Context) (n : Path) : Prop where
  mem : n ∈ (R.tree b).paths
  ne : n ≠ []
  kept : K n
  done : seed n ∨ Done R b h' n
  above : ∀ m, m <+: n → m ≠ [] → InTable h'.nodesTable m ∨ m <+: P

/-- What a call has added to the tables. -/
structure Grows (P : Path) (h h' : Context) : Prop where
  bufsize : h'.bufsize = h.bufsize
  nodes : ∃ new : List Path,
    h'.nodesTable = h.nodesTable ++ new.map (keptEntry R b) ∧ new.Nodup
      ∧ ∀ n ∈ new, ¬InTable h.nodesTable n ∧ Added R b K seed P h' n
  deps : ∀ key, (findDep h.depTable key).isSome →
    (findDep h'.depTable key).isSome
  mono : ∀ p q, recorded h p q → recorded h' p q
  targets : ∀ p, ∀ q ∈ (R.tree b).paths, recorded h' p q →
    recorded h p q ∨ Closed h'.nodesTable q

/-- The number of pairs of nodes that are not recorded. -/
def absent (h : Context) : Nat :=
  ((R.tree b).paths.product (R.tree b).paths).countP
    fun pq => !recorded h pq.1 pq.2

/-- What `register_node_dependencies` does to a node that is kept, if it
can go `fuel` calls deep. -/
def Registers (register : Register) (fuel : Nat) : Prop :=
  ∀ h, ∀ p ∈ (R.tree b).paths, Consistent R b seed h →
    (p ≠ [] → seed p ∨ InTable h.nodesTable p ∧ K p) →
    absent R b h < fuel →
    ∃ h', register h (R.off b p) = .ok h' ∧ Consistent R b seed h'
      ∧ Grows R b K seed [] h h' ∧ (p ≠ [] → Done R b h' p)

end Definitions

-- =============================================================== growth

section Growth

variable {L : Libfdt} {R : L.Reading} {b : L.Blob} {K seed : Path → Prop}
  {P : Path} {h h' h'' : Context}

/-- What is done stays done when more is recorded. -/
theorem Done.mono {p : Path} (hd : Done R b h p)
    (hm : ∀ q, recorded h p q → recorded h' p q) : Done R b h' p := by
  intro q hq
  exact (hd q hq).imp_right (hm q)

theorem Grows.inTable (hg : Grows R b K seed P h h') {p : Path}
    (hp : InTable h.nodesTable p) : InTable h'.nodesTable p := by
  obtain ⟨new, hnew, -⟩ := hg.nodes
  rw [hnew]
  exact hp.append _

/-- A node whose targets are all there keeps them. -/
theorem Grows.closed (hg : Grows R b K seed P h h') {p : Path}
    (hp : Closed h.nodesTable p) : Closed h'.nodesTable p := by
  intro m hm hne
  exact hg.inTable (hp m hm hne)

/-- The nodes that were added are in the table. -/
theorem inTable_new {new : List Path} {n : Path} (hn : n ∈ new)
    (table : List PathNode) :
    InTable (table ++ new.map (keptEntry R b)) n := by
  unfold InTable
  rw [findNode_isSome, List.map_append, List.mem_append, List.map_map]
  exact .inr (List.mem_map.2 ⟨n, hn, rfl⟩)

/-- A change of `string_buf` adds nothing. -/
theorem Grows.buf (h : Context) (s : CStr) :
    Grows R b K seed P h { h with stringBuf := s } := by
  refine ⟨rfl, ⟨[], by simp, List.nodup_nil, by simp⟩, ?_, ?_, ?_⟩
  · intro key hkey
    exact hkey
  · intro p q hpq
    exact hpq
  · intro p q _ hpq
    exact .inl hpq

theorem Grows.refl (h : Context) : Grows R b K seed P h h :=
  Grows.buf h h.stringBuf

/-- What has been added stays so when more is added. -/
theorem Added.grows {Q : Path} {n : Path} (ha : Added R b K seed P h' n)
    (hg : Grows R b K seed Q h' h'')
    (hP : ∀ m, m <+: P → m ≠ [] →
      InTable h''.nodesTable m ∨ m <+: Q) :
    Added R b K seed Q h'' n := by
  refine ⟨ha.mem, ha.ne, ha.kept,
    ha.done.imp_right fun hd => hd.mono (hg.mono n), ?_⟩
  intro m hm hne
  cases ha.above m hm hne with
  | inl hin => exact .inl (hg.inTable hin)
  | inr hpre => exact hP m hpre hne

/-- Calls one after the other: the second may stand further up, if the
nodes it has come up by are entered. -/
theorem Grows.trans {Q : Path} (hg : Grows R b K seed P h h')
    (hg' : Grows R b K seed Q h' h'')
    (hP : ∀ m, m <+: P → m ≠ [] →
      InTable h''.nodesTable m ∨ m <+: Q) :
    Grows R b K seed Q h h'' := by
  obtain ⟨new, hnew, hnd, hadd⟩ := hg.nodes
  obtain ⟨new', hnew', hnd', hadd'⟩ := hg'.nodes
  refine ⟨hg'.bufsize.trans hg.bufsize, ⟨new ++ new', ?_, ?_, ?_⟩, ?_, ?_,
    ?_⟩
  · rw [hnew', hnew, List.map_append, List.append_assoc]
  · refine List.nodup_append.2 ⟨hnd, hnd', ?_⟩
    rintro n hn _ hn' rfl
    refine (hadd' n hn').1 ?_
    rw [hnew]
    exact inTable_new hn _
  · intro n hn
    cases List.mem_append.1 hn with
    | inl hn => exact ⟨(hadd n hn).1, (hadd n hn).2.grows hg' hP⟩
    | inr hn =>
        refine ⟨fun hin => (hadd' n hn).1 ?_, (hadd' n hn).2⟩
        exact hg.inTable hin
  · intro key hkey
    exact hg'.deps key (hg.deps key hkey)
  · intro p q hpq
    exact hg'.mono p q (hg.mono p q hpq)
  · intro p q hq hpq
    cases hg'.targets p q hq hpq with
    | inr hcl => exact .inr hcl
    | inl hpq =>
        cases hg.targets p q hq hpq with
        | inl hpq => exact .inl hpq
        | inr hcl => exact .inr (hg'.closed hcl)

/-- Calls one after the other, from the same place. -/
theorem Grows.trans_same (hg : Grows R b K seed P h h')
    (hg' : Grows R b K seed P h' h'') : Grows R b K seed P h h'' := by
  apply hg.trans hg'
  intro m hm _
  exact .inr hm

/-- A whole call within one that stands at `Q`. -/
theorem Grows.nested {Q : Path} (hg : Grows R b K seed [] h h') :
    Grows R b K seed Q h h' := by
  apply hg.trans (Grows.refl h')
  intro m hm hne
  exact absurd (List.prefix_nil.1 hm) hne

/-- The number of pairs not recorded does not grow. -/
theorem absent_mono (hmono : ∀ p q, recorded h p q → recorded h' p q) :
    absent R b h' ≤ absent R b h := by
  apply List.countP_mono_left
  intro pq _ hpq
  rw [Bool.not_eq_true'] at hpq ⊢
  rw [Bool.eq_false_iff] at hpq ⊢
  intro hrec
  exact hpq (hmono pq.1 pq.2 hrec)

/-- Fewer records are missing the more there are. -/
theorem Grows.absent_le (hg : Grows R b K seed P h h') :
    absent R b h' ≤ absent R b h :=
  absent_mono hg.mono

/-- The string buffer has no part in it. -/
theorem Consistent.buf (hc : Consistent R b seed h) (s : CStr) :
    Consistent R b seed { h with stringBuf := s } :=
  ⟨hc.root, hc.deps⟩

/-- A node without an entry that has dependencies listed is a seed. -/
theorem Consistent.seed_of_findDep (hc : Consistent R b seed h)
    (hw : (R.tree b).Wf) {n : Path} (hn : n ∈ (R.tree b).paths)
    (hfind : findNode h.nodesTable (pathStr n) = none) {d : Dependency}
    (hd : findDep h.depTable (pathStr n) = some d) : seed n := by
  have hkey := List.find?_some hd
  obtain ⟨p, hp, -, hfrom, hin⟩ := hc.deps d (List.mem_of_find?_eq_some hd)
  have hpn : p = n := by
    apply hw.pathStr_injective hp hn
    rw [← hfrom]
    exact of_decide_eq_true hkey
  subst hpn
  refine hin.resolve_left fun hin => ?_
  unfold InTable at hin
  rw [hfind] at hin
  cases hin

/-- A node is entered. -/
theorem Consistent.enter (hc : Consistent R b seed h) (n : Path) :
    Consistent R b seed
      { h with nodesTable := h.nodesTable ++ [keptEntry R b n] } := by
  refine ⟨hc.root, ?_⟩
  intro d hd
  obtain ⟨p, hp, hp0, hfrom, hin⟩ := hc.deps d hd
  exact ⟨p, hp, hp0, hfrom, hin.imp_left fun hin => hin.append _⟩

/-- What is added after a node was entered, and the node. -/
theorem Grows.enter {n : Path}
    (hfind : findNode h.nodesTable (pathStr n) = none)
    (hg : Grows R b K seed []
      { h with nodesTable := h.nodesTable ++ [keptEntry R b n] } h')
    (ha : Added R b K seed P h' n) : Grows R b K seed P h h' := by
  obtain ⟨new, hnew, hnd, hadd⟩ := hg.nodes
  have hout : ¬InTable h.nodesTable n := by
    unfold InTable
    rw [hfind]
    simp
  refine ⟨hg.bufsize, ⟨n :: new, ?_, ?_, ?_⟩, hg.deps, hg.mono,
    hg.targets⟩
  · rw [hnew, List.append_assoc, List.map_cons, List.singleton_append]
  · refine List.nodup_cons.2 ⟨fun hn => (hadd n hn).1 ?_, hnd⟩
    exact inTable_new (List.mem_singleton_self n) _
  · intro m hm
    cases hm with
    | head => exact ⟨hout, ha⟩
    | tail _ hm =>
        refine ⟨fun hin => (hadd m hm).1 (hin.append _), ?_⟩
        refine (hadd m hm).2.grows (Grows.refl h') ?_
        intro k hk hne
        exact absurd (List.prefix_nil.1 hk) hne

end Growth

end ProjectsLibs.Fdtgen
