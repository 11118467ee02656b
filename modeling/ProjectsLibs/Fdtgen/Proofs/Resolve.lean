/-
`resolve_all_dependencies`: the loop over `nodes_table` reaches every
entry the table had before it, and stops.

The entries that `find_nodes_to_keep` left carry the offset of their own
node, those added since the offset of its parent. Either way the offset
is of a node that is kept, and the entries that are added have had their
dependencies registered already; it does not matter whether the iteration
still comes to them.

An entry that names no node has whatever offset it was made with. If that
is the offset of a node, the node is registered as well: it is a seed.
-/
import Mathlib.Data.List.Perm.Subperm
import ProjectsLibs.Fdtgen.Proofs.Register

namespace ProjectsLibs.Fdtgen

open Fdt Lib

variable {L : Libfdt} {R : L.Reading} {b : L.Blob} {K seed : Path → Prop}
  {h h₀ h' : Context} {register : Register} {fuel lim : Nat}

/-- No more entries are added than there are nodes. -/
theorem Grows.length_le {P : Path} (hg : Grows R b K seed P h h') :
    h.nodesTable.length ≤ h'.nodesTable.length
      ∧ h'.nodesTable.length
        ≤ h.nodesTable.length + (R.tree b).length := by
  obtain ⟨new, hnew, hnd, hadd⟩ := hg.nodes
  have hsub : new ⊆ (R.tree b).paths := fun n hn => (hadd n hn).2.mem
  have hle := (List.subperm_of_subset hnd hsub).length_le
  rw [Tree.length_paths] at hle
  rw [hnew, List.length_append, List.length_map]
  omega

/-- An entry that names no node below the root. -/
def IsStray (t : Tree) (e : PathNode) : Prop :=
  ∀ p ∈ t.paths, p ≠ [] → e.name ≠ pathStr p

/-- An entry as `find_nodes_to_keep` leaves it: it carries the offset of
its node. If it names none it has the offset that it had, which leads to
a seed or nowhere. -/
def Visited (R : L.Reading) (b : L.Blob) (K seed : Path → Prop)
    (e : PathNode) : Prop :=
  (∃ p ∈ (R.tree b).paths, p ≠ [] ∧ K p ∧ e.name = pathStr p
      ∧ e.offset = R.off b p)
    ∨ IsStray (R.tree b) e
      ∧ ((∃ p ∈ (R.tree b).paths, e.offset = R.off b p
          ∧ (p ≠ [] → seed p))
        ∨ L.propertyOffsets b e.offset = [])

/-- The offsets in the table are those of kept nodes and of seeds, or
lead nowhere. -/
theorem Grows.offset (hw : (R.tree b).Wf)
    (hK : ClosedSet (R.tree b) K seed) (hg : Grows R b K seed [] h₀ h)
    (hvis : ∀ e ∈ h₀.nodesTable, Visited R b K seed e)
    {e : PathNode} (he : e ∈ h.nodesTable) :
    (∃ r ∈ (R.tree b).paths, e.offset = R.off b r
        ∧ (r ≠ [] → seed r ∨ InTable h.nodesTable r ∧ K r))
      ∨ L.propertyOffsets b e.offset = [] := by
  obtain ⟨new, hnew, -, hadd⟩ := hg.nodes
  rw [hnew, List.mem_append] at he
  cases he with
  | inl he =>
      obtain ⟨p, hp, -, hKp, hname, hoff⟩ | ⟨-, hlead | hnone⟩ :=
        hvis e he
      · refine .inl ⟨p, hp, hoff, fun _ => .inr ⟨?_, hKp⟩⟩
        apply hg.inTable
        unfold InTable
        rw [findNode_isSome, ← hname]
        exact List.mem_map_of_mem he
      · obtain ⟨p, hp, hoff, hseed⟩ := hlead
        exact .inl ⟨p, hp, hoff, fun hne => .inl (hseed hne)⟩
      · exact .inr hnone
  | inr he =>
      obtain ⟨n, hn, rfl⟩ := List.mem_map.1 he
      have ha := (hadd n hn).2
      have hpre := List.dropLast_prefix n
      refine .inl ⟨n.dropLast, hw.mem_above ha.mem hpre, rfl, ?_⟩
      intro hne
      refine .inr ⟨?_, hK.above n _ ha.kept hpre⟩
      cases ha.above _ hpre hne with
      | inl hin => exact hin
      | inr hnil => exact absurd (List.prefix_nil.1 hnil) hne

/-- Where there are no properties there is nothing to register. -/
theorem registerNodeDependencies_none {o : Int}
    (hnone : L.propertyOffsets b o = []) (hfuel : 0 < fuel)
    (h : Context) : registerNodeDependencies L b lim fuel h o = .ok h := by
  obtain ⟨fuel, rfl⟩ : ∃ n, fuel = n + 1 := ⟨fuel - 1, by omega⟩
  unfold registerNodeDependencies
  split
  · rfl
  · rw [hnone]
    rfl

/-- A node without properties depends on nothing. -/
theorem Input.done_of_none (hI : Input R b) {p : Path}
    (hp : p ∈ (R.tree b).paths)
    (hnone : L.propertyOffsets b (R.off b p) = []) : Done R b h p := by
  intro q hedge
  obtain ⟨pr, hpr, -⟩ := hedge
  rw [← hI.doc.propertyOffsets_eq b p hI.ok.wf hp, hnone] at hpr
  cases hpr

/-- One entry of the iteration. -/
theorem Input.resolve_entry (hI : Input R b)
    (hreg : Registers R b K seed (registerNodeDependencies L b lim fuel)
      fuel)
    (hK : ClosedSet (R.tree b) K seed)
    (hvis : ∀ e ∈ h₀.nodesTable, Visited R b K seed e)
    (hc : Consistent R b seed h) (hg : Grows R b K seed [] h₀ h)
    (habs : absent R b h < fuel) {e : PathNode} (he : e ∈ h.nodesTable) :
    ∃ h', registerNodeDependencies L b lim fuel h e.offset = .ok h'
      ∧ Consistent R b seed h' ∧ Grows R b K seed [] h h'
      ∧ ∀ p ∈ (R.tree b).paths, e.offset = R.off b p → p ≠ [] →
          Done R b h' p := by
  cases hg.offset hI.ok.wf hK hvis he with
  | inl hlead =>
      obtain ⟨r, hr, hoff, hkept⟩ := hlead
      obtain ⟨h', hrun, hc', hg', hd'⟩ := hreg h r hr hc hkept habs
      rw [hoff]
      refine ⟨h', hrun, hc', hg', ?_⟩
      intro p hp heq hne
      rw [hI.readable.off_eq_iff hr hp] at heq
      subst heq
      exact hd' hne
  | inr hnone =>
      refine ⟨h, registerNodeDependencies_none hnone (by omega) h, hc,
        Grows.refl h, ?_⟩
      intro p hp heq _
      rw [heq] at hnone
      exact hI.done_of_none hp hnone

/-- The iteration from the entry `i` on. -/
theorem Input.resolveLoop_ok (hI : Input R b)
    (hreg : Registers R b K seed (registerNodeDependencies L b lim fuel)
      fuel)
    (hK : ClosedSet (R.tree b) K seed)
    (hvis : ∀ e ∈ h₀.nodesTable, Visited R b K seed e) {n i : Nat}
    {more : Bool} (hc : Consistent R b seed h)
    (hg : Grows R b K seed [] h₀ h) (habs : absent R b h < fuel)
    (hi : i < h.nodesTable.length)
    (hn : h₀.nodesTable.length + (R.tree b).length < n + i)
    (htrue : more = true → i + 1 < h.nodesTable.length)
    (hfalse : more = false → h₀.nodesTable.length ≤ i + 1)
    (hdone : ∀ j < i, ∀ e, h₀.nodesTable[j]? = some e →
      ∀ p ∈ (R.tree b).paths, e.offset = R.off b p → p ≠ [] →
      Done R b h p) :
    ∃ h', resolveLoop (registerNodeDependencies L b lim fuel) n h i more
        = .ok h' ∧ Consistent R b seed h' ∧ Grows R b K seed [] h₀ h'
      ∧ ∀ e ∈ h₀.nodesTable, ∀ p ∈ (R.tree b).paths,
          e.offset = R.off b p → p ≠ [] → Done R b h' p := by
  induction n generalizing h i more with
  | zero =>
      have hle := hg.length_le.2
      omega
  | succ n ih =>
      obtain ⟨h₁, hrun, hc₁, hg₁, hd₁⟩ :=
        hI.resolve_entry hreg hK hvis hc
        hg habs (List.getElem_mem hi)
      have hlen := hg₁.length_le.1
      -- the entries up to `i` that were there before
      have hdone₁ : ∀ j < i + 1, ∀ e, h₀.nodesTable[j]? = some e →
          ∀ p ∈ (R.tree b).paths, e.offset = R.off b p → p ≠ [] →
          Done R b h₁ p := by
        intro j hj e he p hp hp' hne
        by_cases hji : j < i
        · exact (hdone j hji e he p hp hp' hne).mono (hg₁.mono p)
        · have hji : j = i := by omega
          subst hji
          have heq : h.nodesTable[j]? = some e := by
            obtain ⟨new, hnew, -⟩ := hg.nodes
            have hlt := (List.getElem?_eq_some_iff.1 he).1
            rw [hnew, List.getElem?_append_left hlt]
            exact he
          rw [List.getElem?_eq_getElem hi, Option.some.injEq] at heq
          rw [heq] at hd₁
          exact hd₁ p hp hp' hne
      rw [resolveLoop, List.getElem?_eq_getElem hi]
      simp only [hrun, ok_bind]
      cases more with
      | true =>
          have hi₁ := htrue rfl
          rw [if_pos rfl]
          apply ih hc₁ (hg.trans_same hg₁)
            (Nat.lt_of_le_of_lt hg₁.absent_le habs) (by omega) (by omega)
            ?_ ?_ hdone₁
          · intro hmore
            exact of_decide_eq_true hmore
          · intro hmore
            have hlt := of_decide_eq_false hmore
            have hle := (hg.trans_same hg₁).length_le.1
            omega
      | false =>
          rw [if_neg (by decide)]
          refine ⟨h₁, rfl, hc₁, hg.trans_same hg₁, ?_⟩
          intro e he
          obtain ⟨j, hj, hje⟩ := List.getElem_of_mem he
          have hle := hfalse rfl
          exact hdone₁ j (by omega) e
            (List.getElem?_eq_some_iff.2 ⟨hj, hje⟩)

/-- The nodes that the table leads to are registered in the end. -/
theorem Input.resolveAllDependencies_ok (hI : Input R b)
    (hK : ClosedSet (R.tree b) K seed) (hlim : Enough R b fuel)
    (hvis : ∀ e ∈ h.nodesTable, Visited R b K seed e)
    (hc : Consistent R b seed h) (habs : absent R b h < fuel)
    (hlen : h.nodesTable.length + (R.tree b).length < fuel) :
    ∃ h', resolveAllDependencies L b fuel h = .ok h'
      ∧ Consistent R b seed h' ∧ Grows R b K seed [] h h'
      ∧ ∀ e ∈ h.nodesTable, ∀ p ∈ (R.tree b).paths,
          e.offset = R.off b p → p ≠ [] → Done R b h' p := by
  have hreg : Registers R b K seed (registerNodeDependencies L b fuel fuel)
      fuel := hI.registers hK hlim
  cases htab : h.nodesTable with
  | nil =>
      refine ⟨h, ?_, hc, Grows.refl h, ?_⟩
      · unfold resolveAllDependencies
        obtain ⟨fuel, rfl⟩ : ∃ n, fuel = n + 1 := ⟨fuel - 1, by omega⟩
        rw [resolveLoop, htab]
        rfl
      · intro e he
        cases he
  | cons e₀ rest =>
      have hpos : 0 < h.nodesTable.length := by
        rw [htab, List.length_cons]
        omega
      have htrue : decide (1 < h.nodesTable.length) = true →
          0 + 1 < h.nodesTable.length := of_decide_eq_true
      have hfalse : decide (1 < h.nodesTable.length) = false →
          h.nodesTable.length ≤ 0 + 1 :=
        fun hmore => Nat.le_of_not_lt (of_decide_eq_false hmore)
      rw [← htab]
      exact hI.resolveLoop_ok hreg hK hvis (n := fuel) hc (Grows.refl h)
        habs hpos hlen htrue hfalse
        (fun j hj => absurd hj (Nat.not_lt_zero _))

/-- Every node that was in the table is registered in the end, and every
seed that a stray entry leads to. -/
theorem visited_done (hw : (R.tree b).Wf)
    (hvis : ∀ e ∈ h.nodesTable, Visited R b K seed e)
    (hdone : ∀ e ∈ h.nodesTable, ∀ p ∈ (R.tree b).paths,
      e.offset = R.off b p → p ≠ [] → Done R b h' p) {p : Path}
    (hp : p ∈ (R.tree b).paths) (hne : p ≠ [])
    (hin : InTable h.nodesTable p) : Done R b h' p := by
  unfold InTable at hin
  rw [findNode_isSome] at hin
  obtain ⟨e, he, hname⟩ := List.mem_map.1 hin
  cases hvis e he with
  | inl hown =>
      obtain ⟨q, hq, -, -, hqname, hoff⟩ := hown
      have hqp : q = p := by
        apply hw.pathStr_injective hq hp
        rw [← hqname, hname]
      subst hqp
      exact hdone e he q hq hoff hne
  | inr hstray => exact absurd hname (hstray.1 p hp hne)

end ProjectsLibs.Fdtgen
