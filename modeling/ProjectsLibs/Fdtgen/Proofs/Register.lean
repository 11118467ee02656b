/-
The functions that register the dependencies of a node, each property
format and then the node as a whole: `Registers` holds of
`register_node_dependencies`.

# Why it comes to its end

`register_node_dependencies` calls itself for the targets of the node,
and a tree may have references in a circle. What ends it is the table: a
dependency is recorded before it is followed, and one that is recorded is
not followed again. The measure is the number of pairs of nodes that are
not recorded yet (`absent`), and the fuel is compared with it.
`Registers` says for one call what it does with so much fuel, and the
functions in between, for a property, a list or a single reference, are
proved under the assumption that it holds of the recursive call. The
induction on the fuel then has one step only, `Input.registers`.

# What is carried along

`Consistent` is the invariant of the tables; `Grows` is the relation
between two states of a run, which is transitive and says that nothing
recorded is lost and that what is new is a consequence of the requests.
`Followed` is what one property has achieved. A loop over properties or
over the cells of one keeps the three together, so its lemma is one step
and an induction over what is left.
-/
import Mathlib.Data.List.ProdSigma
import ProjectsLibs.Fdtgen.Proofs.Keep

namespace ProjectsLibs.Fdtgen

open Fdt Lib

-- ============================================================== entries

/-- A list of no entries is read to its end. -/
theorem phandleList_nil {cells : UInt32 → Option Nat} {bytes : List UInt8}
    (h : phandleList cells bytes = some []) : bytes = [] := by
  by_contra hne
  rw [phandleList, dif_neg hne] at h
  split at h
  · cases h
  · split at h
    · cases h
    · split at h
      · cases h
      · cases h

/-- The first entry of a list, and the rest. -/
theorem phandleList_cons {cells : UInt32 → Option Nat} {bytes : List UInt8}
    {e : UInt32 × Nat} {es : List (UInt32 × Nat)}
    (h : phandleList cells bytes = some (e :: es)) :
    bytes ≠ [] ∧ be32 bytes = some e.1 ∧ cells e.1 = some e.2
      ∧ phandleList cells (bytes.drop (4 + 4 * e.2)) = some es := by
  rw [phandleList] at h
  split at h
  · cases h
  · rename_i hne
    split at h
    · cases h
    · rename_i ph hph
      split at h
      · cases h
      · rename_i c hc
        split at h
        · cases h
        · rename_i es' hes
          cases h
          exact ⟨hne, hph, hc, hes⟩

/-- The entries of a list, from the first and the rest. -/
theorem phandleList_of {cells : UInt32 → Option Nat} {bytes : List UInt8}
    {ph : UInt32} {c : Nat} {es : List (UInt32 × Nat)} (hne : bytes ≠ [])
    (hph : be32 bytes = some ph) (hc : cells ph = some c)
    (hes : phandleList cells (bytes.drop (4 + 4 * c)) = some es) :
    phandleList cells bytes = some ((ph, c) :: es) := by
  rw [phandleList, dif_neg hne]
  simp only [hph, hc, hes]

theorem phandleList_empty (cells : UInt32 → Option Nat) :
    phandleList cells [] = some [] := by
  rw [phandleList, dif_pos rfl]

/-- Other properties refer to nothing. -/
theorem propEntries_of_not_mem {t : Tree} {pr : Property}
    (hname : pr.name ∉ propsWithDep) : propEntries t pr = some [] := by
  unfold propEntries
  rw [if_neg, if_neg, if_neg hname]
  · intro heq
    exact hname (heq ▸ by decide)
  · intro heq
    exact hname (heq ▸ by decide)

/-- How many cells follow a phandle in `clocks` is said by its target. -/
theorem propEntries_clocks {t : Tree} {pr : Property}
    (hname : pr.name = "clocks".toList) : propEntries t pr
      = phandleList (cellCount t "#clock-cells".toList none) pr.value :=
  if_pos hname

/-- The same for `power-domains`, where none follow if the target does not
say. -/
theorem propEntries_powerDomains {t : Tree} {pr : Property}
    (hname : pr.name = "power-domains".toList) : propEntries t pr
      = phandleList (cellCount t "#power-domain-cells".toList (some 0))
        pr.value := by
  have hclk : pr.name ≠ "clocks".toList := by
    rw [hname]
    decide
  unfold propEntries
  rw [if_neg hclk, if_pos hname]

/-- Of the other four the first word is read. -/
theorem propEntries_single {t : Tree} {pr : Property}
    (hclk : pr.name ≠ "clocks".toList)
    (hpow : pr.name ≠ "power-domains".toList)
    (hname : pr.name ∈ propsWithDep) :
    propEntries t pr = (be32 pr.value).map fun ph => [(ph, 0)] := by
  unfold propEntries
  rw [if_neg hclk, if_neg hpow, if_pos hname]

theorem entriesSize_cons (e : UInt32 × Nat) (es : List (UInt32 × Nat)) :
    entriesSize (e :: es) = 4 + 4 * e.2 + entriesSize es := rfl

/-- The node with a phandle is a node. -/
theorem byPhandle_mem {t : Tree} {ph : UInt32} {q : Path}
    (h : t.byPhandle ph = some q) : q ∈ t.paths := by
  obtain ⟨x, hx, rfl⟩ := Option.map_eq_some_iff.1 h
  exact List.mem_map_of_mem (List.mem_of_find?_eq_some hx)

/-- An edge leads to a node of the tree. -/
theorem Edge.mem {t : Tree} {p q : Path} (hedge : Edge t p q) :
    q ∈ t.paths := by
  obtain ⟨_, _, _, _, _, _, hph⟩ := hedge
  exact byPhandle_mem hph

-- =========================================== register_single_dependency

section Register

variable {L : Libfdt} {R : L.Reading} {b : L.Blob} {K seed : Path → Prop}
  {h h' : Context} {register : Register} {fuel lim : Nat} {p q : Path}

/-- A target added to the list of the entry `key`. -/
def addTo (h : Context) (key : CStr) (d : DListNode) : Context :=
  { h with
    depTable := appendDep h.depTable key d
    stringBuf := [] }

/-- Entries stay. -/
theorem findDep_addTo_mono (h : Context) (key : CStr) (d : DListNode)
    {k : CStr} (hk : (findDep h.depTable k).isSome) :
    (findDep (addTo h key d).depTable k).isSome := by
  unfold addTo
  rw [findDep_appendDep]
  split
  · rename_i heq
    rwa [Option.isSome_map, ← heq]
  · exact hk

/-- The dependency of `p` on `q` added to its list. -/
def addTarget (h : Context) (p q : Path) (ph : UInt32) : Context :=
  { h with
    depTable := appendDep h.depTable (pathStr p) ⟨fullPath q, ph⟩
    stringBuf := [] }

/-- A target is recorded for the path that it was added to. -/
theorem recorded_addTarget
    (hdep : (findDep h.depTable (pathStr p)).isSome) (ph : UInt32)
    (p' q' : Path) :
    recorded (addTarget h p q ph) p' q'
      = (recorded h p' q'
        || decide (pathStr p' = pathStr p ∧ fullPath q' = fullPath q)) :=
  listed_appendDep hdep _ _ _

/-- Adding a target keeps the tables in order. -/
theorem Consistent.addTarget (hc : Consistent R b seed h) (p q : Path)
    (ph : UInt32) : Consistent R b seed (addTarget h p q ph) := by
  refine ⟨hc.root, ?_⟩
  intro d hd
  obtain ⟨d', hd', rfl⟩ := List.mem_map.1 hd
  obtain ⟨r, hr, hr0, hfrom, hin⟩ := hc.deps d' hd'
  refine ⟨r, hr, hr0, ?_, hin⟩
  rw [← hfrom]
  split <;> rfl

/-- A pair that is recorded for the first time is one less to record. -/
theorem absent_addTarget (hp : p ∈ (R.tree b).paths)
    (hq : q ∈ (R.tree b).paths)
    (hdep : (findDep h.depTable (pathStr p)).isSome)
    (hnew : ¬recorded h p q) (ph : UInt32) :
    absent R b (addTarget h p q ph) < absent R b h := by
  apply countP_lt_countP (a := (p, q))
  · intro pq _ hpq
    rw [recorded_addTarget hdep] at hpq
    simp only [Bool.not_eq_true', Bool.or_eq_false_iff] at hpq
    simp only [hpq.1, Bool.not_false]
  · exact List.mem_product.2 ⟨hp, hq⟩
  · simp only [hnew, Bool.not_false]
  · rw [recorded_addTarget hdep]
    simp

/-- What is added after a dependency was recorded, and the dependency:
its target is in the table by then. -/
theorem Grows.addTarget (hw : (R.tree b).Wf) (hq : q ∈ (R.tree b).paths)
    (hdep : (findDep h.depTable (pathStr p)).isSome) {ph : UInt32}
    (hg : Grows R b K seed [] (addTarget h p q ph) h')
    (hcl : Closed h'.nodesTable q) : Grows R b K seed [] h h' := by
  refine ⟨hg.bufsize, hg.nodes, ?_, ?_, ?_⟩
  · intro key hkey
    exact hg.deps key (findDep_addTo_mono h _ _ hkey)
  · intro p' q' hrec
    apply hg.mono
    rw [recorded_addTarget hdep, hrec, Bool.true_or]
  · intro p' q' hq' hrec
    cases hg.targets p' q' hq' hrec with
    | inr hcl' => exact .inr hcl'
    | inl hrec =>
        rw [recorded_addTarget hdep, Bool.or_eq_true] at hrec
        cases hrec with
        | inl hrec => exact .inl hrec
        | inr heq =>
            have hqq := (of_decide_eq_true heq).2
            rw [hw.fullPath_injective hq' hq hqq]
            exact .inr hcl

/-- The path of a target fits into the buffer. -/
theorem Input.getPath_eq (hI : Input R b) (hp : p ∈ (R.tree b).paths)
    (buf : CStr) :
    L.getPath b (R.off b p) buf maxFullPathLength = fullPath p := by
  apply hI.doc.getPath_eq b p buf _ hI.ok.wf hp
  unfold fullPath
  split
  · decide
  · exact hI.ok.path_lt p hp

/-- The search for a node from the root, with nothing in `string_buf`:
the way to it is entered. -/
theorem Input.keep_root (hI : Input R b)
    (hreg : Registers R b K seed register fuel) (hq : q ∈ (R.tree b).paths)
    (hKq : ∀ m, m <+: q → K m) (hd : DeepEnough R b [] lim)
    (hc : Consistent R b seed h) (habs : absent R b h < fuel)
    (hbuf : h.stringBuf = []) :
    ∃ found h', keepNodeAndParents L b register lim h h.rootOffset
        (R.off b q) = .ok (found, h')
      ∧ (q ≠ [] → found = true) ∧ Consistent R b seed h'
      ∧ Grows R b K seed [] h h' ∧ Closed h'.nodesTable q := by
  by_cases hq0 : q = []
  · subst hq0
    obtain ⟨lim, rfl⟩ := hd.pos hI.root_mem
    refine ⟨false, h, ?_, fun hne => absurd rfl hne, hc, Grows.refl h, ?_⟩
    · rw [keepNodeAndParents, if_pos hc.root.symm]
    · intro m hm hne
      exact absurd (List.prefix_nil.1 hm) hne
  · obtain ⟨h', hkeep, hc', hg', hin⟩ := hI.keep_hit hreg hq hq0 hKq
      List.nil_prefix hd hc habs hbuf
    rw [hc.root]
    exact ⟨true, h', hkeep, fun _ => rfl, hc', hg',
      fun m hm hne => hin m List.nil_prefix hne hm⟩

/-- The target of a dependency is entered, with what it depends on. -/
theorem Input.follow (hI : Input R b)
    (hreg : Registers R b K seed register fuel) (hq : q ∈ (R.tree b).paths)
    (hKq : ∀ m, m <+: q → K m) (hd : DeepEnough R b [] lim)
    (hc : Consistent R b seed h) (habs : absent R b h < fuel)
    (hbuf : h.stringBuf = []) :
    ∃ found h₁ h', keepNodeAndParents L b register lim h h.rootOffset
        (R.off b q) = .ok (found, h₁)
      ∧ register h₁ (R.off b q) = .ok h' ∧ Consistent R b seed h'
      ∧ Grows R b K seed [] h h' ∧ Closed h'.nodesTable q := by
  obtain ⟨found, h₁, hkeep, -, hc₁, hg₁, hcl₁⟩ :=
    hI.keep_root hreg hq hKq hd hc habs hbuf
  obtain ⟨h', hr, hc', hg', -⟩ := hreg h₁ q hq hc₁
    (fun hne => .inr ⟨hcl₁ q List.prefix_rfl hne, hKq q List.prefix_rfl⟩)
    (Nat.lt_of_le_of_lt hg₁.absent_le habs)
  exact ⟨found, h₁, h', hkeep, hr, hc', hg₁.trans_same hg',
    hg'.closed hcl₁⟩

/-- `register_single_dependency` records a dependency, unless the node
refers to itself. -/
theorem Input.registerSingleDependency_ok (hI : Input R b)
    (hreg : Registers R b K seed register fuel) {data : List UInt8}
    {ph : UInt32} (hp : p ∈ (R.tree b).paths) (hbe : be32 data = some ph)
    (hph : (R.tree b).byPhandle ph = some q)
    (hKq : p ≠ q → ∀ m, m <+: q → K m)
    (hd : DeepEnough R b [] lim) (hc : Consistent R b seed h)
    (hdep : (findDep h.depTable (pathStr p)).isSome)
    (habs : absent R b h ≤ fuel) :
    ∃ h', registerSingleDependency L b register lim h (R.off b p) data
        (pathStr p) = .ok h'
      ∧ Consistent R b seed h' ∧ Grows R b K seed [] h h'
      ∧ (p = q ∨ recorded h' p q) := by
  have hq := byPhandle_mem hph
  obtain ⟨this, hthis⟩ := Option.isSome_iff_exists.1 hdep
  have hlisted : recorded h p q
      = this.toList.any fun d => d.toPath = fullPath q := by
    unfold recorded listed
    rw [hthis]
    rfl
  unfold registerSingleDependency fdt32Ld
  simp only [hbe, bind, Except.bind,
    hI.doc.nodeOffsetByPhandle_eq b ph q hI.ok.wf hI.ok.phandles hph,
    hI.getPath_eq hq, hthis, hI.readable.off_eq_iff hp hq, ← hlisted]
  by_cases hold : p = q ∨ recorded h p q
  · rw [if_pos hold]
    exact ⟨_, rfl, hc.buf _, Grows.buf h _, hold⟩
  · rw [if_neg hold]
    have hnew : ¬recorded h p q := fun hrec => hold (.inr hrec)
    have hKq := hKq fun heq => hold (.inl heq)
    obtain ⟨found, h₁, h', hkeep, hr, hc', hg', hcl⟩ :=
      hI.follow hreg hq hKq hd (hc.addTarget p q ph)
        (Nat.lt_of_lt_of_le (absent_addTarget hp hq hdep hnew ph) habs) rfl
    unfold addTarget at hkeep
    simp only [hkeep, hr]
    refine ⟨h', rfl, hc', hg'.addTarget hI.ok.wf hq hdep hcl, .inr ?_⟩
    apply hg'.mono
    rw [recorded_addTarget hdep]
    simp

-- ================================================ lists of references

/-- What is asked of the entries of a property of `p`: they resolve, to
`p` itself or to nodes that are kept. -/
def Kept (t : Tree) (K : Path → Prop) (p : Path)
    (es : List (UInt32 × Nat)) : Prop :=
  ∀ e ∈ es, ∃ q, t.byPhandle e.1 = some q
    ∧ (p ≠ q → ∀ m, m <+: q → K m)

/-- The dependencies of `p` that entries stand for are recorded. -/
def Followed (t : Tree) (h : Context) (p : Path)
    (es : List (UInt32 × Nat)) : Prop :=
  ∀ e ∈ es, ∀ q, t.byPhandle e.1 = some q → p = q ∨ recorded h p q

theorem Followed.grows {P : Path} {es : List (UInt32 × Nat)}
    (hf : Followed (R.tree b) h p es) (hg : Grows R b K seed P h h') :
    Followed (R.tree b) h' p es := by
  intro e he q hq
  exact (hf e he q hq).imp_right (hg.mono p q)

/-- A cell below 2 to the power of 31 is the same `int`. -/
theorem toInt_of_lt {w : UInt32} (hw : w.toNat < 2 ^ 31) :
    toInt w = w.toNat := if_pos hw

/-- Small natural numbers are values of `int`. -/
theorem int32_eq {x : Int} {n : Nat} (hx : x = n) (hn : n < 2 ^ 31) :
    int32 x = .ok (n : Int) := by
  unfold int32
  rw [if_pos (by omega), hx]

/-- The number of cells the loop reads is the one the entry has. -/
theorem Input.cells_eq (hI : Input R b) {cellsProp : CStr}
    {absentCells : Except Fault Int} {absentCount : Option Nat}
    (hab : ∀ c, absentCount = some c → absentCells = .ok (c : Int))
    {ph : UInt32} {c : Nat}
    (hcount : cellCount (R.tree b) cellsProp absentCount ph = some c)
    (hc : c < 2 ^ 31) (hph : (R.tree b).byPhandle ph = some q) :
    (match L.getprop b (R.off b q) cellsProp with
      | none => absentCells
      | some v => (fdt32Ld v).map toInt) = .ok (c : Int) := by
  unfold cellCount at hcount
  rw [hph] at hcount
  rw [hI.doc.getprop_eq b q cellsProp hI.ok.wf (byPhandle_mem hph)]
  cases hv : getProp ((R.tree b).propsAt q) cellsProp with
  | none =>
      simp only [hv] at hcount
      exact hab c hcount
  | some v =>
      simp only [hv] at hcount
      obtain ⟨w, hw, rfl⟩ := Option.map_eq_some_iff.1 hcount
      simp only [fdt32Ld, hw, Except.map, toInt_of_lt hc]

/-- One iteration of the loop over a list. -/
theorem registerCellsLoop_step {cellsProp : CStr}
    {absentCells : Except Fault Int} {offset : Int} {data : List UInt8}
    {fromPath : CStr} {n done c : Nat} {ph : UInt32}
    (hlt : done < data.length) (hbe : be32 (data.drop done) = some ph)
    (hcells : (match L.getprop b (L.nodeOffsetByPhandle b ph) cellsProp with
      | none => absentCells
      | some v => (fdt32Ld v).map toInt) = .ok (c : Int))
    (hsize : done + (4 + 4 * c) < 2 ^ 31) :
    registerCellsLoop L b register lim cellsProp absentCells offset data
        fromPath (n + 1) h done
      = (do
          let h₁ ← registerSingleDependency L b register lim h offset
            (data.drop done) fromPath
          registerCellsLoop L b register lim cellsProp absentCells offset
            data fromPath n h₁ (done + (4 + 4 * c) : Nat)) := by
  have hstep₁ : int32 ((c : Int) * 4) = .ok ((4 * c : Nat) : Int) :=
    int32_eq (by omega) (by omega)
  have hstep₂ : int32 (4 + ((4 * c : Nat) : Int))
      = .ok ((4 + 4 * c : Nat) : Int) := int32_eq (by omega) (by omega)
  have hstep₃ : int32 ((done : Int) + ((4 + 4 * c : Nat) : Int))
      = .ok ((done + (4 + 4 * c) : Nat) : Int) := int32_eq (by omega) hsize
  have hword : fdt32Ld (data.drop done) = .ok ph := by
    rw [fdt32Ld, hbe]
  rw [registerCellsLoop, if_pos (by omega), if_neg (by omega),
    Int.toNat_natCast, hword, ok_bind]
  cases hv : L.getprop b (L.nodeOffsetByPhandle b ph) cellsProp with
  | none =>
      simp only [hv] at hcells
      simp only [hv]
      rw [hcells, ok_bind]
      refine congrArg _ (funext fun h₁ => ?_)
      rw [hstep₁, ok_bind, hstep₂, ok_bind, hstep₃, ok_bind]
  | some v =>
      simp only [hv] at hcells
      simp only [hv]
      rw [hcells, ok_bind]
      refine congrArg _ (funext fun h₁ => ?_)
      rw [hstep₁, ok_bind, hstep₂, ok_bind, hstep₃, ok_bind]

/-- The loop over a list registers every entry of it. -/
theorem Input.registerCellsLoop_ok (hI : Input R b)
    (hreg : Registers R b K seed register fuel) {cellsProp : CStr}
    {absentCells : Except Fault Int} {absentCount : Option Nat}
    (hab : ∀ c, absentCount = some c → absentCells = .ok (c : Int))
    {data : List UInt8} {es : List (UInt32 × Nat)} {n done : Nat}
    (hp : p ∈ (R.tree b).paths) (hd : DeepEnough R b [] lim)
    (hes : phandleList (cellCount (R.tree b) cellsProp absentCount)
      (data.drop done) = some es)
    (hsize : done + entriesSize es < 2 ^ 31) (hn : es.length < n)
    (hK : Kept (R.tree b) K p es) (hc : Consistent R b seed h)
    (hdep : (findDep h.depTable (pathStr p)).isSome)
    (habs : absent R b h ≤ fuel) :
    ∃ h', registerCellsLoop L b register lim cellsProp absentCells
        (R.off b p) data (pathStr p) n h done = .ok h'
      ∧ Consistent R b seed h' ∧ Grows R b K seed [] h h'
      ∧ Followed (R.tree b) h' p es := by
  -- one round for each entry of the property; the cursor stands behind the
  -- entries followed so far
  induction es generalizing n done h with
  | nil =>
      cases n with
      | zero => exact absurd hn (Nat.not_lt_zero _)
      | succ n =>
          have hend := List.drop_eq_nil_iff.1 (phandleList_nil hes)
          rw [registerCellsLoop, if_neg (by omega)]
          refine ⟨h, rfl, hc, Grows.refl h, ?_⟩
          intro e he
          cases he
  | cons e es ih =>
      cases n with
      | zero => exact absurd hn (Nat.not_lt_zero _)
      | succ n =>
          obtain ⟨hne, hbe, hcount, hrest⟩ := phandleList_cons hes
          rw [List.drop_drop] at hrest
          rw [entriesSize_cons] at hsize
          rw [List.length_cons] at hn
          have hlt : done < data.length := by
            by_contra hge
            exact hne (List.drop_eq_nil_iff.2 (by omega))
          obtain ⟨q, hph, hKq⟩ := hK e (List.mem_cons_self ..)
          obtain ⟨h₁, hsingle, hc₁, hg₁, hrec⟩ :=
            hI.registerSingleDependency_ok hreg hp hbe hph hKq hd hc hdep
              habs
          obtain ⟨h₂, hloop, hc₂, hg₂, hf₂⟩ := ih hrest (by omega)
            (Nat.lt_of_succ_lt_succ hn)
            (fun e' he' => hK e' (List.mem_cons_of_mem _ he'))
            hc₁ (hg₁.deps _ hdep) (Nat.le_trans hg₁.absent_le habs)
          have hcells := hI.cells_eq hab hcount (by omega) hph
          rw [← hI.doc.nodeOffsetByPhandle_eq b e.1 q hI.ok.wf
            hI.ok.phandles hph] at hcells
          refine ⟨h₂, ?_, hc₂, hg₁.trans_same hg₂, ?_⟩
          · rw [registerCellsLoop_step hlt hbe hcells (by omega), hsingle,
              ok_bind]
            exact hloop
          · intro e' he' q' hq'
            cases he' with
            | head =>
                rw [hph, Option.some.injEq] at hq'
                subst hq'
                exact hrec.imp_right (hg₂.mono p q)
            | tail _ he' => exact hf₂ e' he' q' hq'

-- ============================================= register_node_dependency

/-- The context in which `register_node_dependency` has an entry for a
path. -/
def withEntry (h : Context) (s : CStr) : Context :=
  match findDep h.depTable s with
  | none =>
      { h with depTable := h.depTable ++ [⟨s, []⟩], stringBuf := s }
  | some _ => { h with stringBuf := s }

/-- There is an entry for the path then. -/
theorem findDep_withEntry (h : Context) (s : CStr) :
    (findDep (withEntry h s).depTable s).isSome := by
  unfold withEntry
  split
  · rename_i hnone
    show (findDep (h.depTable ++ _) s).isSome
    rw [findDep_append, hnone]
    simp [findDep]
  · rename_i d hsome
    show (findDep h.depTable s).isSome
    rw [hsome]
    rfl

/-- Entries stay. -/
theorem findDep_withEntry_mono (h : Context) (s : CStr) {key : CStr}
    (hkey : (findDep h.depTable key).isSome) :
    (findDep (withEntry h s).depTable key).isSome := by
  unfold withEntry
  split
  · show (findDep (h.depTable ++ _) key).isSome
    rw [findDep_append, Option.isSome_or, hkey, Bool.true_or]
  · exact hkey

/-- A new entry lists nothing, so what is listed stays as it was. -/
theorem listed_withEntry (h : Context) (s key x : CStr) :
    listed (withEntry h s).depTable key x = listed h.depTable key x := by
  unfold withEntry
  split
  · exact listed_newDep _ _
  · rfl

/-- The context in which `register_node_dependency` has an entry for
`p`. -/
def withDep (h : Context) (p : Path) : Context :=
  match findDep h.depTable (pathStr p) with
  | none =>
      { h with depTable := h.depTable ++ [⟨pathStr p, []⟩],
               stringBuf := pathStr p }
  | some _ => { h with stringBuf := pathStr p }

theorem findDep_withDep (h : Context) (p : Path) :
    (findDep (withDep h p).depTable (pathStr p)).isSome :=
  findDep_withEntry h (pathStr p)

theorem recorded_withDep (h : Context) (p p' q' : Path) :
    recorded (withDep h p) p' q' = recorded h p' q' :=
  listed_withEntry h (pathStr p) _ _

/-- An empty entry keeps the tables in order. -/
theorem Consistent.withDep (hc : Consistent R b seed h)
    (hp : p ∈ (R.tree b).paths) (hp0 : p ≠ [])
    (hin : InTable h.nodesTable p ∨ seed p) :
    Consistent R b seed (withDep h p) := by
  unfold Fdtgen.withDep
  split
  · refine ⟨hc.root, ?_⟩
    intro d hd
    cases List.mem_append.1 hd with
    | inl hd => exact hc.deps d hd
    | inr hd =>
        rw [List.mem_singleton.1 hd]
        exact ⟨p, hp, hp0, rfl, hin⟩
  · exact hc.buf _

theorem Grows.withDep (h : Context) (p : Path) :
    Grows R b K seed [] h (withDep h p) := by
  refine ⟨?_, ⟨[], ?_, List.nodup_nil, by simp⟩, ?_, ?_, ?_⟩
  · unfold Fdtgen.withDep
    split <;> rfl
  · unfold Fdtgen.withDep
    split <;> simp
  · intro key hkey
    exact findDep_withEntry_mono h (pathStr p) hkey
  · intro p' q' hrec
    rwa [recorded_withDep]
  · intro p' q' _ hrec
    rw [recorded_withDep] at hrec
    exact .inl hrec

/-- A property is registered: its entries are recorded. -/
theorem Input.registerNodeDependency_ok (hI : Input R b)
    (hreg : Registers R b K seed register fuel) {pr : Property}
    {pOffset : Int} {es : List (UInt32 × Nat)}
    (hp : p ∈ (R.tree b).paths) (hp0 : p ≠ [])
    (hin : InTable h.nodesTable p ∨ seed p)
    (hvalue : L.getpropByOffset b pOffset = pr.value)
    (hname : pr.name ∈ propsWithDep)
    (hes : propEntries (R.tree b) pr = some es)
    (hsize : entriesSize es < 2 ^ 31) (hlen : es.length < lim)
    (hK : Kept (R.tree b) K p es) (hd : DeepEnough R b [] lim)
    (hc : Consistent R b seed h) (habs : absent R b h ≤ fuel) :
    ∃ h', registerNodeDependency L b register lim h (R.off b p) pr.name
        pOffset = .ok h'
      ∧ Consistent R b seed h' ∧ Grows R b K seed [] h h'
      ∧ Followed (R.tree b) h' p es := by
  have hc₁ := hc.withDep hp hp0 hin
  have hg₁ : Grows R b K seed [] h (withDep h p) := Grows.withDep h p
  have hdep := findDep_withDep h p
  have habs₁ := Nat.le_trans hg₁.absent_le habs
  suffices hgoal : ∃ h', registerNodeDependency L b register lim h
      (R.off b p) pr.name pOffset = .ok h' ∧ Consistent R b seed h'
      ∧ Grows R b K seed [] (withDep h p) h'
      ∧ Followed (R.tree b) h' p es by
    obtain ⟨h', hrun, hc', hg', hf'⟩ := hgoal
    exact ⟨h', hrun, hc', hg₁.trans_same hg', hf'⟩
  unfold registerNodeDependency
  simp only [hI.getPath_eq hp, fullPath_of_ne hp0, hvalue]
  by_cases hclk : pr.name = "clocks".toList
  · rw [propEntries_clocks hclk, ← List.drop_zero (l := pr.value)] at hes
    rw [if_pos hclk]
    refine hI.registerCellsLoop_ok hreg ?_ hp hd hes
      (by rwa [Nat.zero_add]) hlen hK hc₁ hdep habs₁
    intro c hnone
    cases hnone
  · rw [if_neg hclk]
    by_cases hpow : pr.name = "power-domains".toList
    · rw [propEntries_powerDomains hpow,
        ← List.drop_zero (l := pr.value)] at hes
      rw [if_pos hpow]
      refine hI.registerCellsLoop_ok hreg ?_ hp hd hes
        (by rwa [Nat.zero_add]) hlen hK hc₁ hdep habs₁
      intro c hzero
      cases hzero
      rfl
    · rw [propEntries_single hclk hpow hname] at hes
      rw [if_neg hpow]
      obtain ⟨ph, hbe, rfl⟩ := Option.map_eq_some_iff.1 hes
      obtain ⟨q, hph, hKq⟩ := hK _ (List.mem_singleton_self _)
      obtain ⟨h', hrun, hc', hg', hrec⟩ := hI.registerSingleDependency_ok
        hreg hp hbe hph hKq hd hc₁ hdep habs₁
      refine ⟨h', hrun, hc', hg', ?_⟩
      intro e he q' hq'
      rw [List.mem_singleton.1 he] at hq'
      rw [hph, Option.some.injEq] at hq'
      exact hq' ▸ hrec

-- =========================================== register_node_dependencies

/-- What the loops of the registering functions need to come to their
end: `lim` is more than the depth of the tree and the entries of any
property. -/
structure Enough (R : L.Reading) (b : L.Blob) (lim : Nat) : Prop where
  deep : DeepEnough R b [] lim
  long : ∀ p ∈ (R.tree b).paths, p ≠ [] →
    ∀ pr ∈ (R.tree b).propsAt p,
    ∀ es, propEntries (R.tree b) pr = some es → es.length < lim

/-- There are no more entries than bytes, so the fuel suffices. -/
theorem length_le_entriesSize (es : List (UInt32 × Nat)) :
    es.length ≤ entriesSize es := by
  induction es with
  | nil => exact Nat.zero_le _
  | cons e es ih =>
      rw [entriesSize_cons, List.length_cons]
      omega

/-- Paths are bounded by the buffer, lists by the `int` that counts their
bytes. -/
theorem Input.enough (hI : Input R b) (hlim : 2 ^ 31 ≤ lim) :
    Enough R b lim := by
  refine ⟨?_, ?_⟩
  · intro r hr _
    have hlt := hI.ok.path_lt r hr
    have hle := length_le_pathStr r
    unfold maxFullPathLength at hlt
    omega
  · intro p hp hp0 pr hpr es hes
    obtain ⟨es', hes', hsize, -⟩ := hI.ok.resolves p hp hp0 pr hpr
    rw [hes, Option.some.injEq] at hes'
    subst hes'
    have hle := length_le_entriesSize es
    omega

/-- What is asked of the nodes to keep: they are closed under parents and
under dependencies, and have those of the seeds. -/
structure ClosedSet (t : Tree) (K seed : Path → Prop) : Prop where
  above : ∀ p m, K p → m <+: p → K m
  edge : ∀ p q, seed p ∨ K p → p ≠ [] → p ≠ q → Edge t p q → K q

/-- One property of a node that is kept. -/
theorem Input.registerProperty_ok (hI : Input R b)
    (hreg : Registers R b K seed register fuel)
    (hK : ClosedSet (R.tree b) K seed) (hlim : Enough R b lim)
    {pr : Property} {pOffset : Int} (hp : p ∈ (R.tree b).paths)
    (hp0 : p ≠ []) (hin : InTable h.nodesTable p ∨ seed p)
    (hKp : seed p ∨ K p) (hpr : pr ∈ (R.tree b).propsAt p)
    (hname : L.propertyName b pOffset = pr.name)
    (hvalue : L.getpropByOffset b pOffset = pr.value)
    (hc : Consistent R b seed h) (habs : absent R b h ≤ fuel) :
    ∃ h', propsWithDep.foldlM (fun h dep =>
          if L.propertyName b pOffset = dep then
            registerNodeDependency L b register lim h (R.off b p)
              (L.propertyName b pOffset) pOffset
          else .ok h) h = .ok h'
      ∧ Consistent R b seed h' ∧ Grows R b K seed [] h h'
      ∧ ∀ es, propEntries (R.tree b) pr = some es →
          Followed (R.tree b) h' p es := by
  rw [foldlM_select _ _ (by decide), hname]
  by_cases hmem : pr.name ∈ propsWithDep
  · obtain ⟨es, hes, hsize, hres⟩ := hI.ok.resolves p hp hp0 pr hpr
    have hkept : Kept (R.tree b) K p es := by
      intro e he
      obtain ⟨q, hq⟩ := hres e he
      refine ⟨q, hq, ?_⟩
      intro hne m hm
      apply hK.above q m ?_ hm
      exact hK.edge p q hKp hp0 hne ⟨pr, hpr, es, hes, e, he, hq⟩
    obtain ⟨h', hrun, hc', hg', hf'⟩ := hI.registerNodeDependency_ok hreg
      hp hp0 hin hvalue hmem hes hsize (hlim.long p hp hp0 pr hpr es hes) hkept
      hlim.deep hc habs
    rw [if_pos hmem]
    refine ⟨h', hrun, hc', hg', ?_⟩
    intro es' hes'
    rw [hes, Option.some.injEq] at hes'
    exact hes' ▸ hf'
  · rw [if_neg hmem]
    refine ⟨h, rfl, hc, Grows.refl h, ?_⟩
    intro es hes e he
    rw [propEntries_of_not_mem hmem, Option.some.injEq] at hes
    rw [← hes] at he
    cases he

/-- `register_node_dependencies` does what it should, however deep it has
to go. -/
theorem Input.registers (hI : Input R b) (hK : ClosedSet (R.tree b) K seed)
    (hlim : Enough R b lim) :
    Registers R b K seed (registerNodeDependencies L b lim fuel) fuel := by
  induction fuel with
  | zero =>
      intro h p _ _ _ habs
      exact absurd habs (Nat.not_lt_zero _)
  | succ fuel ih =>
      intro h p hp hc hkept habs
      unfold registerNodeDependencies
      by_cases hp0 : p = []
      · subst hp0
        rw [if_pos hc.root.symm]
        exact ⟨h, rfl, hc, Grows.refl h, fun hne => absurd rfl hne⟩
      · rw [if_neg (by rwa [hc.root, hI.readable.off_eq_iff hp hI.root_mem])]
        have hin := (hkept hp0).elim Or.inr fun hand => Or.inl hand.1
        have hKp := (hkept hp0).imp_right And.right
        have hprops := hI.doc.propertyOffsets_eq b p hI.ok.wf hp
        -- one property after the other; those passed are followed
        let inv := fun (done : List Int) (h' : Context) =>
          Consistent R b seed h' ∧ Grows R b K seed [] h h'
            ∧ ∀ po ∈ done, ∀ es, propEntries (R.tree b)
                ⟨L.propertyName b po, L.getpropByOffset b po⟩ = some es →
              Followed (R.tree b) h' p es
        have hstep : ∀ l₁ po l₂ h₁,
            L.propertyOffsets b (R.off b p) = l₁ ++ po :: l₂ →
              inv l₁ h₁ →
            ∃ h₂, propsWithDep.foldlM (fun h dep =>
                if L.propertyName b po = dep then
                  registerNodeDependency L b
                    (registerNodeDependencies L b lim fuel) lim h
                    (R.off b p) (L.propertyName b po) po
                else .ok h) h₁ = .ok h₂ ∧ inv (l₁ ++ [po]) h₂ := by
          intro l₁ po l₂ h₁ hl hinv
          obtain ⟨hc₁, hg₁, hf₁⟩ := hinv
          have hpr : ⟨L.propertyName b po, L.getpropByOffset b po⟩
              ∈ (R.tree b).propsAt p := by
            rw [← hprops, hl, List.map_append, List.map_cons]
            exact List.mem_append_right _ (List.mem_cons_self ..)
          have habs₁ : absent R b h₁ ≤ fuel :=
            Nat.le_trans hg₁.absent_le (Nat.le_of_lt_succ habs)
          obtain ⟨h₂, hrun₂, hc₂, hg₂, hf₂⟩ :=
            hI.registerProperty_ok ih hK
            hlim hp hp0
              (hin.imp_left hg₁.inTable) hKp hpr rfl rfl hc₁ habs₁
          refine ⟨h₂, hrun₂, hc₂, hg₁.trans_same hg₂, ?_⟩
          intro po' hpo' es hes
          cases List.mem_append.1 hpo' with
          | inl hold => exact (hf₁ po' hold es hes).grows hg₂
          | inr hnew =>
              rw [List.mem_singleton.1 hnew] at hes
              exact hf₂ es hes
        obtain ⟨h', hrun, hc', hg', hf'⟩ := foldlM_invariant inv
          ⟨hc, Grows.refl h, by simp⟩ hstep
        refine ⟨h', hrun, hc', hg', ?_⟩
        intro _ q hedge
        obtain ⟨pr, hpr, es, hes, e, he, hq⟩ := hedge
        rw [← hprops] at hpr
        obtain ⟨po, hpo, rfl⟩ := List.mem_map.1 hpr
        exact hf' po hpo es hes e he q hq

end Register

end ProjectsLibs.Fdtgen
