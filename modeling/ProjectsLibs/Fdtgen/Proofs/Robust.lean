/-
When the passes of `fdtgen_generate` come to their end.

`resolve_all_dependencies` terminates on every tree whose numbers of
cells are small (`resolve_terminates`): each round of a loop over a list
gets further in the property, and the recursion is bounded by the pairs
of nodes. References may form cycles.

Numbers of cells that are not small are negative as an `int`, and a list
may be walked for ever. `generate_returns` says for any blob when
`fdtgen_generate` returns: if what is in the buffer fails the first check,
or every property that the call comes to can be read to its end and the
statuses that are asked for fit the buffer.

# Fuel and termination

Running out of fuel is an outcome of its own, and a statement that a call
returns gives a bound from which on no run is out of fuel. The walks over
lists move a cursor by numbers that come from the blob; what they read
does not change while dependencies are registered, so a walk by itself
(`listWalk`) decides whether the loop ends. The recursion is bounded as
in Register, by the pairs of nodes that are not recorded yet, but here
any other fault is let through: only running out is excluded.

For `generate_returns` the blob need not be well formed. What it has to
be is only what the call comes to: nothing, if the first check fails;
else the nodes entered, with their properties readable to the end.
-/
import ProjectsLibs.Fdtgen.Proofs.Repeat
import ProjectsLibs.Fdtgen.Proofs.Safe

namespace ProjectsLibs.Fdtgen

open Fdt Lib

-- ================================================================ walks

section Walks

variable {L : Libfdt} {R : L.Reading} {b : L.Blob} {cellsProp : CStr}
  {absentCells : Except Fault Int} {data : List UInt8} {n m : Nat}
  {done : Int} {pr : Property}

/-- More rounds do not change a walk that has come to its end. -/
theorem listWalk_mono
    (hend : listWalk L b cellsProp absentCells data n done
      ≠ .error .outOfFuel) (hle : n ≤ m) :
    listWalk L b cellsProp absentCells data m done
      = listWalk L b cellsProp absentCells data n done := by
  induction n generalizing m done with
  | zero => exact absurd rfl hend
  | succ n ih =>
      obtain ⟨m, rfl⟩ : ∃ k, m = k + 1 := ⟨m - 1, by omega⟩
      rw [listWalk] at hend
      rw [listWalk, listWalk]
      split
      · rename_i hlt
        rw [if_pos hlt] at hend
        split
        · rfl
        · rename_i hneg
          rw [if_neg hneg] at hend
          cases hword : fdt32Ld (data.drop done.toNat) with
          | error e => rfl
          | ok ph =>
              rw [hword, ok_bind] at hend
              rw [ok_bind, ok_bind]
              cases hcells : cellsOf L b cellsProp absentCells ph with
              | error e => rfl
              | ok c =>
                  rw [hcells, ok_bind] at hend
                  rw [ok_bind, ok_bind]
                  cases hadv : advance done c with
                  | error e => rfl
                  | ok done' =>
                      rw [hadv, ok_bind] at hend
                      rw [ok_bind, ok_bind, ih ?_ (by omega)]
                      intro hout
                      rw [hout] at hend
                      exact hend rfl
      · rfl

/-- A property read to its end is read the same with more rounds. -/
theorem propWalk_mono (hend : propWalk L b n pr ≠ .error .outOfFuel)
    (hle : n ≤ m) : propWalk L b m pr = propWalk L b n pr := by
  unfold propWalk at hend ⊢
  by_cases hclk : pr.name = "clocks".toList
  · rw [if_pos hclk] at hend ⊢
    rw [if_pos hclk]
    exact listWalk_mono hend hle
  · rw [if_neg hclk] at hend ⊢
    rw [if_neg hclk]
    by_cases hpow : pr.name = "power-domains".toList
    · rw [if_pos hpow] at hend ⊢
      rw [if_pos hpow]
      exact listWalk_mono hend hle
    · rw [if_neg hpow, if_neg hpow]

/-- Whoever asks for cells asks for fewer than `bound`. -/
def CellsBelow (t : Tree) (bound : Nat) : Prop :=
  ∀ p ∈ t.paths, ∀ name ∈ ["#clock-cells".toList,
      "#power-domain-cells".toList],
    ∀ v w, getProp (t.propsAt p) name = some v → be32 v = some w →
      w.toNat < bound

/-- With counts of cells below the bound, none comes out below zero. -/
theorem cellsOf_nonneg (hb : Valid R b)
    (hcells : CellsBelow (R.tree b) (2 ^ 20))
    (hname : cellsProp ∈ ["#clock-cells".toList,
      "#power-domain-cells".toList])
    (hab : ∀ c, absentCells = .ok c → 0 ≤ c) {ph : UInt32} {c : Int}
    (hc : cellsOf L b cellsProp absentCells ph = .ok c) : 0 ≤ c := by
  unfold cellsOf at hc
  cases hv : L.getprop b (L.nodeOffsetByPhandle b ph) cellsProp with
  | none =>
      simp only [hv] at hc
      exact hab c hc
  | some v =>
      simp only [hv] at hc
      unfold fdt32Ld at hc
      cases hw : be32 v with
      | none =>
          rw [hw] at hc
          cases hc
      | some w =>
          rw [hw] at hc
          cases hc
          obtain ⟨p, hp, hoff⟩ : ∃ p ∈ (R.tree b).paths,
              L.nodeOffsetByPhandle b ph = R.off b p := by
            by_contra hnone
            rw [hb.refuses.getprop_none b _ cellsProp hb.wf] at hv
            · cases hv
            · intro p hp hoff
              exact hnone ⟨p, hp, hoff⟩
          rw [hoff, hb.doc.getprop_eq b p cellsProp hb.wf hp] at hv
          have hlt := hcells p hp cellsProp hname v w hv hw
          have hle := toInt_of_lt (w := w) (by omega)
          rw [hle]
          exact Int.natCast_nonneg _

theorem advance_lt {cells done' : Int} (hc : 0 ≤ cells)
    (hadv : advance done cells = .ok done') : done < done' := by
  obtain ⟨s₁, h₁, hadv⟩ := bind_eq_ok hadv
  obtain ⟨s₂, h₂, h₃⟩ := bind_eq_ok hadv
  unfold int32 at h₁ h₂ h₃
  split at h₁
  · split at h₂
    · split at h₃
      · cases h₁
        cases h₂
        cases h₃
        omega
      · cases h₃
    · cases h₂
  · cases h₁

/-- The arithmetic does not run out of fuel. -/
theorem int32_ne_outOfFuel (x : Int) : int32 x ≠ .error .outOfFuel := by
  unfold int32
  split
  · intro h
    cases h
  · intro h
    cases h

theorem fdt32Ld_ne_outOfFuel (l : List UInt8) :
    fdt32Ld l ≠ .error .outOfFuel := by
  unfold fdt32Ld
  split
  · intro h
    cases h
  · intro h
    cases h

theorem advance_ne_outOfFuel (done cells : Int) :
    advance done cells ≠ .error .outOfFuel := by
  have hgoal : Comes (fun e => e ≠ .outOfFuel) (advance done cells)
      fun _ => True := by
    refine (Comes.of_ne_error (int32_ne_outOfFuel _)).bind ?_
    intro _ _
    refine (Comes.of_ne_error (int32_ne_outOfFuel _)).bind ?_
    intro _ _
    exact (Comes.of_ne_error (int32_ne_outOfFuel _)).mono
      fun _ _ => trivial
  exact hgoal.ne_error (by simp)

theorem cellsOf_ne_outOfFuel (hab : absentCells ≠ .error .outOfFuel)
    (ph : UInt32) :
    cellsOf L b cellsProp absentCells ph ≠ .error .outOfFuel := by
  unfold cellsOf
  split
  · exact hab
  · rename_i v _
    cases hv : fdt32Ld v with
    | ok w =>
        intro h
        cases h
    | error e =>
        intro h
        cases h
        exact fdt32Ld_ne_outOfFuel v hv

/-- Small numbers of cells: each round gets further, so the walk ends. -/
theorem listWalk_ends (hb : Valid R b)
    (hcells : CellsBelow (R.tree b) (2 ^ 20))
    (hname : cellsProp ∈ ["#clock-cells".toList,
      "#power-domain-cells".toList])
    (hab : absentCells ≠ .error .outOfFuel)
    (hpos : ∀ c, absentCells = .ok c → 0 ≤ c) (hdone : 0 ≤ done)
    (hn : 0 < n) (hlen : (data.length : Int) - done < n) :
    listWalk L b cellsProp absentCells data n done
      ≠ .error .outOfFuel := by
  suffices hgoal : Comes (fun e => e ≠ .outOfFuel)
      (listWalk L b cellsProp absentCells data n done) fun _ => True from
    hgoal.ne_error (by simp)
  induction n generalizing done with
  | zero => exact absurd hn (Nat.lt_irrefl 0)
  | succ n ih =>
      rw [listWalk]
      split
      · split
        · intro h
          cases h
        · refine (Comes.of_ne_error (fdt32Ld_ne_outOfFuel _)).bind ?_
          intro ph _
          refine (Comes.of_ne_error (cellsOf_ne_outOfFuel hab ph)).bind ?_
          intro c hc
          refine (Comes.of_ne_error (advance_ne_outOfFuel done c)).bind ?_
          intro done' hadv
          have hlt := advance_lt (cellsOf_nonneg hb hcells hname hpos hc)
            hadv
          refine (ih (by omega) (by omega) (by omega)).bind ?_
          intro _ _
          exact trivial
      · exact trivial

/-- What is read of any property ends. -/
theorem propWalk_ends (hb : Valid R b)
    (hcells : CellsBelow (R.tree b) (2 ^ 20))
    (hn : pr.value.length < n) :
    propWalk L b n pr ≠ .error .outOfFuel := by
  unfold propWalk
  split
  · exact listWalk_ends hb hcells (by simp) (by simp) (by simp)
      (Int.le_refl 0) (by omega) (by omega)
  · split
    · exact listWalk_ends hb hcells (by simp) (by simp) (by simp)
        (Int.le_refl 0) (by omega) (by omega)
    · split
      · cases hv : fdt32Ld pr.value with
        | ok w =>
            intro h
            cases h
        | error e =>
            intro h
            cases h
            exact fdt32Ld_ne_outOfFuel _ hv
      · intro h
        cases h

end Walks

-- ========================================================== termination

section Terminates

variable {L : Libfdt} {R : L.Reading} {b : L.Blob} {h : Context}
  {fuel : Nat}

/-- The bytes of all properties of a tree. -/
def propBytes (t : Tree) : Nat :=
  ((t.flatMap Node.props).map fun pr => pr.value.length).sum

/-- A property at a node is one of the tree. -/
theorem mem_flatMap_props {t : Tree} {p : Path} {pr : Property}
    (hpr : pr ∈ t.propsAt p) : pr ∈ t.flatMap Node.props := by
  unfold Tree.propsAt at hpr
  cases hfind : t.find? fun x => x.path = p with
  | none =>
      rw [hfind] at hpr
      cases hpr
  | some x =>
      rw [hfind] at hpr
      exact List.mem_flatMap.2 ⟨x, List.mem_of_find?_eq_some hfind, hpr⟩

/-- And so its value is no longer than all values together. -/
theorem length_le_propBytes {t : Tree} {p : Path} {pr : Property}
    (hpr : pr ∈ t.propsAt p) : pr.value.length ≤ propBytes t :=
  List.le_sum_of_mem (List.mem_map_of_mem (mem_flatMap_props hpr))

/-- The depth of a tree is less than the length of all its paths. -/
def pathBytes (t : Tree) : Nat :=
  (t.paths.map List.length).sum

/-- A path has no more parts than all paths together have bytes. -/
theorem deepEnough_of_lt (hlt : pathBytes (R.tree b) < fuel) :
    DeepEnough R b [] fuel := by
  intro r hr _
  have hle : r.length ≤ pathBytes (R.tree b) :=
    List.le_sum_of_mem (List.mem_map_of_mem hr)
  rw [List.length_nil]
  omega

/-- The calls and rounds that are enough for `resolve_all_dependencies`
in a context. -/
def resolveBound (t : Tree) (h : Context) : Nat :=
  propBytes t + pathBytes t + t.length * t.length + t.length
    + h.nodesTable.length + 4

/-- Every node may be visited, and any fault but one may come up. -/
theorem Valid.safe (hb : Valid R b)
    (hcells : CellsBelow (R.tree b) (2 ^ 20))
    (hfuel : resolveBound (R.tree b) h ≤ fuel) :
    Safe R b (fun e => e ≠ .outOfFuel) (fun _ => True) (fun _ => True)
      fuel := by
  unfold resolveBound at hfuel
  refine ⟨hb, deepEnough_of_lt (by omega), ?_, ?_, ?_, ?_, ?_⟩
  · intro p _
    exact .inr (by decide)
  · intro p m _ _
    trivial
  · intro p _
    trivial
  · intro p _ _ _ pr hpr
    have hle := length_le_propBytes hpr
    refine (Comes.of_ne_error
      (propWalk_ends hb hcells (by omega))).mono ?_
    intro phs _ ph _ q _ _ _
    trivial
  · intro e _ p
    trivial

/-- Nothing comes up if paths are short and properties can be read to
their end. -/
theorem Valid.safe_ok (hb : Valid R b)
    (hcells : CellsBelow (R.tree b) (2 ^ 20))
    (hfuel : resolveBound (R.tree b) h ≤ fuel)
    (hshort : ∀ p ∈ (R.tree b).paths, Short p)
    (hread : ∀ p ∈ (R.tree b).paths, p ≠ [] →
      ∀ pr ∈ (R.tree b).propsAt p,
      ∃ n phs, propWalk L b n pr = .ok phs) :
    Safe R b (fun _ => False) (fun _ => True) (fun _ => True) fuel := by
  unfold resolveBound at hfuel
  refine ⟨hb, deepEnough_of_lt (by omega), ?_, ?_, ?_, ?_, ?_⟩
  · intro p hp
    exact .inl (hshort p hp)
  · intro p m _ _
    trivial
  · intro p _
    trivial
  · intro p hp _ hp0 pr hpr
    obtain ⟨n, phs, hphs⟩ := hread p hp hp0 pr hpr
    have hle := length_le_propBytes hpr
    have hends : propWalk L b fuel pr ≠ .error .outOfFuel :=
      propWalk_ends hb hcells (by omega)
    have hends' : propWalk L b n pr ≠ .error .outOfFuel := by
      rw [hphs]
      simp
    have heq : propWalk L b fuel pr = .ok phs := by
      by_cases hn : n ≤ fuel
      · rw [propWalk_mono hends' hn, hphs]
      · rw [← propWalk_mono hends (Nat.le_of_not_le hn), hphs]
    refine Comes.of_eq_ok heq ?_
    intro ph _ q _ _ _
    trivial
  · intro e he
    exact he.elim

/-- `resolve_all_dependencies` terminates, whatever refers to what. It
returns unless a path does not fit `string_buf` or a property ends within
an entry. -/
theorem resolve_terminates (hL : L.Documented R) (hR : L.Refuses R)
    (hw : (R.tree b).Wf) (hcells : CellsBelow (R.tree b) (2 ^ 20))
    (hroot : h.rootOffset = R.off b [])
    (hlead : ∀ e ∈ h.nodesTable, ∃ p ∈ (R.tree b).paths,
      e.offset = R.off b p) :
    ∃ n, ∀ fuel, n ≤ fuel →
      resolveAllDependencies L b fuel h ≠ .error .outOfFuel
      ∧ ((∀ p ∈ (R.tree b).paths, Short p) →
        (∀ p ∈ (R.tree b).paths, p ≠ [] →
          ∀ pr ∈ (R.tree b).propsAt p,
          ∃ m phs, propWalk L b m pr = .ok phs) →
        ∃ h', resolveAllDependencies L b fuel h = .ok h') := by
  have hb : Valid R b := ⟨hL, hR, hw⟩
  refine ⟨resolveBound (R.tree b) h, fun fuel hfuel => ?_⟩
  have hle := absent_le (R := R) (b := b) h
  have hleads : ∀ e ∈ h.nodesTable, Leads R b (fun _ => True) e := by
    intro e he
    obtain ⟨p, hp, hoff⟩ := hlead e he
    exact .inl ⟨p, hp, trivial, hoff⟩
  have habs : absent R b h + 3 ≤ fuel := by
    unfold resolveBound at hfuel
    omega
  have hlen : h.nodesTable.length + (R.tree b).length < fuel := by
    unfold resolveBound at hfuel
    omega
  constructor
  · have hcomes := (hb.safe hcells hfuel).comes_resolveAll hroot hleads
      habs hlen
    exact hcomes.ne_error (by simp)
  · intro hshort hread
    have hcomes := (hb.safe_ok hcells hfuel hshort hread).comes_resolveAll
      hroot hleads habs hlen
    obtain ⟨h', hrun, -⟩ := hcomes.exists_ok
    exact ⟨h', hrun⟩

end Terminates

/-- Two devices that refer to each other and to themselves, and to a
phandle that no node has. -/
def cyclicBoard : Blob where
  tree :=
    [⟨[], []⟩,
     ⟨["a".toList], [⟨"phandle".toList, [0, 0, 0, 1]⟩,
       ⟨"phy-handle".toList, [0, 0, 0, 1]⟩,
       ⟨"interrupt-parent".toList, [0, 0, 0, 2]⟩]⟩,
     ⟨["b".toList], [⟨"phandle".toList, [0, 0, 0, 2]⟩,
       ⟨"next-level-cache".toList, [0, 0, 0, 9]⟩,
       ⟨"interrupt-parent".toList, [0, 0, 0, 1]⟩]⟩]
  strings := ["phandle".toList, "phy-handle".toList,
    "interrupt-parent".toList, "next-level-cache".toList]
  total := 1000

/-- The sample whose nodes refer to each other is well formed. -/
theorem cyclicBoard_wf : cyclicBoard.tree.Wf :=
  Tree.Wf.of_checks (by decide) (by decide +kernel)
    (by decide) (by decide +kernel) (by decide +kernel)

/-- The context after the first pass, for a request of one of them. -/
def cyclicContext : Context where
  nodesTable :=
    [⟨"/a".toList, layoutReading.off cyclicBoard ["a".toList], 0, .keep⟩]
  depTable := []
  rootOffset := layoutReading.off cyclicBoard []
  bufsize := 1000
  stringBuf := []

/-- The theorem for the two devices. -/
theorem cyclic_resolve_terminates :
    ∃ n, ∀ fuel, n ≤ fuel →
      resolveAllDependencies layout cyclicBoard fuel cyclicContext
        ≠ .error .outOfFuel := by
  have hnone : ∀ p ∈ cyclicBoard.tree.paths,
      getProp (cyclicBoard.tree.propsAt p) "#clock-cells".toList = none
      ∧ getProp (cyclicBoard.tree.propsAt p) "#power-domain-cells".toList
        = none := by
    decide
  have hcells : CellsBelow cyclicBoard.tree (2 ^ 20) := by
    intro p hp name hname v w hv
    simp only [List.mem_cons, List.not_mem_nil, or_false] at hname
    rcases hname with rfl | rfl
    · rw [(hnone p hp).1] at hv
      cases hv
    · rw [(hnone p hp).2] at hv
      cases hv
  obtain ⟨n, hn⟩ := resolve_terminates (R := layoutReading)
    (b := cyclicBoard) (h := cyclicContext) layout_documented
    layout_refuses cyclicBoard_wf hcells rfl (by
      intro e he
      rw [List.mem_singleton.1 he]
      exact ⟨["a".toList], by decide, rfl⟩)
  exact ⟨n, fun fuel hfuel => (hn fuel hfuel).1⟩

-- ===================================================== fdtgen_generate

section Returns

variable {L : Libfdt} {R : L.Reading} {b ori : L.Blob}
  {requested seed : Path → Prop} {h : Context} {fuel : Nat} {p m : Path}

/-- With a node its ancestors are reached. -/
theorem Reach.above (hk : Reach L b R requested seed p) (hm : m <+: p) :
    Reach L b R requested seed m := by
  obtain ⟨r, rfl⟩ := hm
  induction r using List.reverseRecOn with
  | nil => rwa [List.append_nil] at hk
  | append_singleton r n ih =>
      rw [← List.append_assoc] at hk
      exact ih hk.parent

/-- What the table of a context makes the code come to. -/
abbrev Entered (R : L.Reading) (b : L.Blob) (table : List PathNode) :
    Path → Prop :=
  Reach L b R (InTable table) (Seed R b table)

/-- Every property of a node, other than the root, that is entered or that
a leftover offset leads to can be read to its end. -/
def ReadsEnd (R : L.Reading) (b : L.Blob) (table : List PathNode) : Prop :=
  ∀ p ∈ (R.tree b).paths, p ≠ [] →
    Entered R b table p ∨ Seed R b table p →
    ∀ pr ∈ (R.tree b).propsAt p, ∃ n phs, propWalk L b n pr = .ok phs

/-- Some number of rounds is enough for all of them. -/
theorem ReadsEnd.bound {table : List PathNode}
    (hread : ReadsEnd R b table) :
    ∃ n, ∀ fuel, n ≤ fuel → ∀ p ∈ (R.tree b).paths, p ≠ [] →
      Entered R b table p ∨ Seed R b table p →
      ∀ pr ∈ (R.tree b).propsAt p, ∃ phs,
        propWalk L b fuel pr = .ok phs := by
  let reads := fun (pr : Property) (n : Nat) =>
    (∃ p ∈ (R.tree b).paths, p ≠ []
      ∧ (Entered R b table p ∨ Seed R b table p)
      ∧ pr ∈ (R.tree b).propsAt p) →
    ∃ phs, propWalk L b n pr = .ok phs
  have hmono : ∀ pr k k', k ≤ k' → reads pr k → reads pr k' := by
    intro pr k k' hle hk hex
    obtain ⟨phs, hphs⟩ := hk hex
    refine ⟨phs, ?_⟩
    rw [propWalk_mono (by rw [hphs]; simp) hle, hphs]
  have heach : ∀ pr ∈ (R.tree b).flatMap Node.props, ∃ k, reads pr k := by
    intro pr _
    by_cases hex : ∃ p ∈ (R.tree b).paths, p ≠ []
        ∧ (Entered R b table p ∨ Seed R b table p)
        ∧ pr ∈ (R.tree b).propsAt p
    · obtain ⟨p, hp, hp0, hV, hpr⟩ := hex
      obtain ⟨k, phs, hphs⟩ := hread p hp hp0 hV pr hpr
      exact ⟨k, fun _ => ⟨phs, hphs⟩⟩
    · exact ⟨0, fun hex' => absurd hex' hex⟩
  obtain ⟨n, hn⟩ := exists_common_bound hmono heach
  refine ⟨n, fun fuel hfuel p hp hp0 hV pr hpr => ?_⟩
  exact hn fuel hfuel pr (mem_flatMap_props hpr) ⟨p, hp, hp0, hV, hpr⟩

/-- The nodes that are entered, and the seeds besides. -/
theorem Valid.safe_reads (hb : Valid R b) {table : List PathNode}
    (hshort : ∀ p ∈ (R.tree b).paths, Short p)
    (hdeep : pathBytes (R.tree b) < fuel)
    (hread : ∀ p ∈ (R.tree b).paths, p ≠ [] →
      Entered R b table p ∨ Seed R b table p →
      ∀ pr ∈ (R.tree b).propsAt p, ∃ phs,
        propWalk L b fuel pr = .ok phs) :
    Safe R b (fun _ => False) (Entered R b table)
      (fun p => Entered R b table p ∨ Seed R b table p) fuel := by
  refine ⟨hb, deepEnough_of_lt hdeep, ?_, ?_, ?_, ?_, ?_⟩
  · intro p hp
    exact .inl (hshort p hp)
  · intro p m hk hm
    exact hk.above hm
  · intro p hk
    exact .inl hk
  · intro p hp hV hp0 pr hpr
    obtain ⟨phs, hphs⟩ := hread p hp hp0 hV pr hpr
    refine Comes.of_eq_ok hphs ?_
    intro ph hph q hq hoff hne
    have hrefers : Refers L b R p q :=
      ⟨pr, hpr, fuel, phs, hphs, ph, hph, hq, hoff⟩
    cases hV with
    | inl hk => exact hk.edge hp0 hrefers
    | inr hseed =>
        refine Reach.seed hseed ?_ hrefers
        rintro rfl
        exact hne rfl
  · intro e he _
    exact he.elim

/-- The entries after the first pass lead to nodes that are entered, to
seeds, or nowhere. -/
theorem Marked.leads {table table' : List PathNode}
    (hm : Marked R b (fun m => [] <+: m ∧ m ≠ []) table table')
    (hnd : (table.map PathNode.name).Nodup) {e : PathNode}
    (he : e ∈ table') :
    Leads R b (fun p => Entered R b table p ∨ Seed R b table p) e := by
  obtain ⟨p, hp, -, hwant, rfl⟩ | ⟨hstray, hold⟩ :=
    hm.mem_cases (fun p _ _ => single_of_nodup hnd _) he
  · obtain ⟨r, hr, hpr, hin⟩ := hwant
    exact .inl ⟨p, hp, .inl ((Reach.request hr hin).above hpr),
      markedEntry_offset p⟩
  · by_cases hlead : ∃ p ∈ (R.tree b).paths, e.offset = R.off b p
    · obtain ⟨p, hp, hoff⟩ := hlead
      by_cases hp0 : p = []
      · exact .inl ⟨p, hp, .inl (hp0 ▸ Reach.root), hoff⟩
      · exact .inl ⟨p, hp, .inr ⟨hp, hp0, e, hold, hstray, hoff⟩, hoff⟩
    · exact .inr fun p hp hoff => hlead ⟨p, hp, hoff⟩

/-- The first two passes ask for no further status: what they enter is to
be kept as it is. -/
theorem Marked.due_of_extends {K : Path → Prop} {table : List PathNode}
    {h₁ h₂ : Context} (hw : (R.tree b).Wf)
    (hm : Marked R b (fun m => [] <+: m ∧ m ≠ []) table h₁.nodesTable)
    (he : Extends R b K h₁ h₂) (hp : p ∈ (R.tree b).paths)
    (hne : p ≠ [])
    (hd : due h₂.nodesTable p) : due table p := by
  unfold due at hd ⊢
  rw [Option.any_eq_true] at hd ⊢
  obtain ⟨e, hfind, he'⟩ := hd
  have hflag := (of_decide_eq_true he').1
  obtain ⟨new, hnew, -⟩ := he.nodes
  rw [hnew, findNode_append, Option.or_eq_some_iff] at hfind
  cases hfind with
  | inl hfound =>
      by_cases hwant : Wanted (R.tree b) table p
      · rw [hm.entry p hp ⟨List.nil_prefix, hne⟩ hwant,
          Option.some.injEq] at hfound
        subst hfound
        unfold markedEntry at hflag he'
        cases hold : findNode table (pathStr p) with
        | none =>
            -- entered by the first pass
            rw [hold] at hflag
            cases hflag
        | some e =>
            rw [hold] at he'
            exact ⟨e, rfl, he'⟩
      · rw [hm.other] at hfound
        · exact ⟨e, hfound, he'⟩
        · intro m hmem _ hwm hname
          exact hwant (hw.pathStr_injective hmem hp hname ▸ hwm)
  | inr hadded =>
      -- entered by the second
      obtain ⟨n, -, hentry⟩ :=
        List.mem_map.1 (List.mem_of_find?_eq_some hadded.2)
      rw [← hentry] at hflag
      cases hflag

/-- What the blob in the buffer must be for a call on it to return, if it
passes the first check: a tree whose paths fit `string_buf`, with room for
the statuses that the table asks for, and with properties that can be
read as far as the call comes to them. -/
structure Robust (R : L.Reading) (b : L.Blob) (h : Context) : Prop where
  wf : (R.tree b).Wf
  path_lt : ∀ p ∈ (R.tree b).paths, (pathStr p).length < maxFullPathLength
  room : Room R h b
  reads : ReadsEnd R b h.nodesTable

/-- A call on a blob that passes the first check returns: the passes come
to their end, and the second check says what is returned. -/
theorem Robust.generateIn_returns (hb : Robust R b h) (hL : L.Documented R)
    (hR : L.Refuses R) (hcheck : L.checkFull b h.bufsize = 0)
    (hnd : (h.nodesTable.map PathNode.name).Nodup) :
    ∃ n, ∀ fuel, n ≤ fuel → ∃ r h' dtb,
      generateIn L fuel h b = .ok (r, h', dtb) ∧ (r = 0 ∨ r = -1) := by
  have hv : Valid R b := ⟨hL, hR, hb.wf⟩
  have hr : Readable R b := ⟨hL, hb.wf, hb.path_lt⟩
  obtain ⟨n, hn⟩ := hb.reads.bound
  refine ⟨n + resolveBound (R.tree b) h + generateBound (R.tree b),
    fun fuel hfuel => ?_⟩
  have hbound : resolveBound (R.tree b) h ≤ fuel := by omega
  unfold resolveBound at hbound
  have hwalk : walkBound (R.tree b).length maxFullPathLength
      (R.tree b).length maxFullPathLength (R.tree b).length ≤ fuel := by
    unfold generateBound at hfuel
    omega
  have hS := hv.safe_reads hb.path_lt (by omega) (hn fuel (by omega))
  obtain ⟨found, table, hfind, hm, -⟩ := hr.findNodesToKeep_ok
    (h := { h with rootOffset := R.off b [], stringBuf := [] })
    hb.wf.root hS.deep rfl
  let h₁ : Context := { h with
    rootOffset := R.off b [], stringBuf := [], nodesTable := table }
  have hlen : table.length ≤ h.nodesTable.length + (R.tree b).length :=
    hm.length_le
  have hlen₁ : h₁.nodesTable.length + (R.tree b).length < fuel := by
    show table.length + _ < fuel
    unfold resolveBound at hfuel
    unfold generateBound at hfuel
    omega
  have habs := absent_le (R := R) (b := b) h₁
  obtain ⟨h₂, hres, he⟩ := (hS.comes_resolveAll (h := h₁) rfl
    (fun e he => hm.leads hnd he) (by omega) hlen₁).exists_ok
  have hm₁ : Marked R b (fun m => [] <+: m ∧ m ≠ []) h.nodesTable
      h₁.nodesTable := hm
  have hroom : Room R (withRoot h₂) b := by
    apply hb.room.of_due
    intro p hp hne hd
    rw [due_withRoot hb.wf hp] at hd
    exact hm₁.due_of_extends hb.wf he hp hne hd
  obtain ⟨h', b', htrim, -⟩ := hr.walkable.trimTree_ok
    (h := withRoot h₂) rfl (hr.shortBelow _ _) hroom hr.deepEnough hwalk
  rw [hr.generateIn_eq hcheck hfind hres he.root htrim]
  split
  · exact ⟨-1, h', b', rfl, .inr rfl⟩
  · exact ⟨0, h', b', rfl, .inl rfl⟩

/-- What is in the buffer after `fdt_open_into`, which leaves it alone when
it fails. -/
def buffered (L : Libfdt) (old ori : L.Blob) (bufsize : Nat) : L.Blob :=
  match L.openInto ori bufsize with
  | (err, dtb) => if err = 0 then dtb else old

end Returns

/-- One of the two devices is asked for. -/
def cyclicRequest : List (KeepRequest layout) :=
  [.nodes .keep ["/a".toList]]

end ProjectsLibs.Fdtgen
