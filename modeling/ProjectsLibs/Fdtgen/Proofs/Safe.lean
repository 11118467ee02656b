/-
How the functions that register dependencies end, on any blob.

`Comes ok` says which faults are allowed. With none allowed it is that
the functions return; with all but `outOfFuel` that they terminate, and
then nothing is asked of the references: phandles may not resolve, lists
may end within an entry and paths may be longer than `string_buf`.

# The measure

A call of `register_node_dependencies` that `register_single_dependency`
makes comes after a pair of paths was recorded, so `absent` bounds the
depth, as in `Growth`. Two things are different here:

- a phandle that does not resolve records whatever `fdt_get_path` left.
  The call that follows is for no node, and returns at once: one more
  call.
- a node whose path is too long for `string_buf` is not recorded under
  its path. `keep_node_and_parents` overflows the buffer before it comes
  to such a node, so only the iteration over `nodes_table` registers
  one: one more call again.
-/
import ProjectsLibs.Lib.Outcome
import ProjectsLibs.Fdtgen.Proofs.Resolve

namespace ProjectsLibs.Fdtgen

open Fdt Lib

-- ========================================================== definitions

section Definitions

variable {L : Libfdt} (R : L.Reading) (b : L.Blob) (ok : Fault → Prop)
  (K V : Path → Prop)

/-- What is assumed of a blob. -/
structure Valid : Prop where
  doc : L.Documented R
  refuses : L.Refuses R
  wf : (R.tree b).Wf

/-- The offset of no node. -/
def Nowhere (o : Int) : Prop := ∀ p ∈ (R.tree b).paths, o ≠ R.off b p

/-- If a phandle that `p` refers to is that of another node, this one is
kept. -/
def Covered (p : Path) (ph : UInt32) : Prop :=
  ∀ q ∈ (R.tree b).paths, L.nodeOffsetByPhandle b ph = R.off b q →
    R.off b p ≠ R.off b q → K q

/-- The nodes that are visited (`V`) and those that are entered (`K`)
among them: what is read of their properties, and what for. Faults are
allowed only where all nodes may be entered. -/
structure Safe (lim : Nat) : Prop where
  valid : Valid R b
  deep : DeepEnough R b [] lim
  long : ∀ p ∈ (R.tree b).paths, Short p ∨ ok .overflow
  above : ∀ p m, K p → m <+: p → K m
  visited : ∀ p, K p → V p
  walks : ∀ p ∈ (R.tree b).paths, V p → p ≠ [] →
    ∀ pr ∈ (R.tree b).propsAt p, Comes ok (propWalk L b lim pr)
      fun phs => ∀ ph ∈ phs, Covered R b K p ph
  faults : ∀ e, ok e → ∀ p, K p

/-- What a call has added to the tables. -/
structure Extends (h h' : Context) : Prop where
  root : h'.rootOffset = h.rootOffset
  bufsize : h'.bufsize = h.bufsize
  nodes : ∃ new : List Path,
    h'.nodesTable = h.nodesTable ++ new.map (keptEntry R b) ∧ new.Nodup
      ∧ ∀ n ∈ new, ¬InTable h.nodesTable n ∧ n ∈ (R.tree b).paths
        ∧ K n
  deps : ∀ key, (findDep h.depTable key).isSome →
    (findDep h'.depTable key).isSome
  mono : ∀ p q, recorded h p q → recorded h' p q

/-- How `register_node_dependencies` ends, if it can go `fuel` calls
deep. -/
structure Steady (register : Register) (fuel : Nat) : Prop where
  node : ∀ h, ∀ p ∈ (R.tree b).paths, V p → Short p →
    h.rootOffset = R.off b [] → absent R b h + 2 ≤ fuel →
    Comes ok (register h (R.off b p)) (Extends R b K h)
  nowhere : ∀ h o, Nowhere R b o → 0 < fuel → register h o = .ok h

end Definitions

-- =============================================================== growth

section Extends

variable {L : Libfdt} {R : L.Reading} {b : L.Blob} {K : Path → Prop}
  {h h' h'' : Context}

/-- A change of `string_buf` adds nothing. -/
theorem Extends.buf (h : Context) (s : CStr) :
    Extends R b K h { h with stringBuf := s } := by
  refine ⟨rfl, rfl, ⟨[], by simp, List.nodup_nil, by simp⟩, ?_, ?_⟩
  · intro key hkey
    exact hkey
  · intro p q hpq
    exact hpq

theorem Extends.refl (h : Context) : Extends R b K h h :=
  Extends.buf h h.stringBuf

theorem Extends.inTable (he : Extends R b K h h') {p : Path}
    (hp : InTable h.nodesTable p) : InTable h'.nodesTable p := by
  obtain ⟨new, hnew, -⟩ := he.nodes
  rw [hnew]
  exact hp.append _

/-- Calls one after the other. -/
theorem Extends.trans (he : Extends R b K h h')
    (he' : Extends R b K h' h'') : Extends R b K h h'' := by
  obtain ⟨new, hnew, hnd, hadd⟩ := he.nodes
  obtain ⟨new', hnew', hnd', hadd'⟩ := he'.nodes
  refine ⟨he'.root.trans he.root, he'.bufsize.trans he.bufsize,
    ⟨new ++ new', ?_, ?_, ?_⟩, ?_, ?_⟩
  · rw [hnew', hnew, List.map_append, List.append_assoc]
  · refine List.nodup_append.2 ⟨hnd, hnd', ?_⟩
    rintro n hn _ hn' rfl
    refine (hadd' n hn').1 ?_
    rw [hnew]
    exact inTable_new hn _
  · intro n hn
    cases List.mem_append.1 hn with
    | inl hn => exact hadd n hn
    | inr hn =>
        exact ⟨fun hin => (hadd' n hn).1 (he.inTable hin), (hadd' n hn).2⟩
  · intro key hkey
    exact he'.deps key (he.deps key hkey)
  · intro p q hpq
    exact he'.mono p q (he.mono p q hpq)

/-- Fewer records are missing the more there are. -/
theorem Extends.absent_le (he : Extends R b K h h') :
    absent R b h' ≤ absent R b h :=
  absent_mono he.mono

/-- A node is entered. -/
theorem Extends.enter {n : Path} (hn : n ∈ (R.tree b).paths) (hK : K n)
    (hfind : findNode h.nodesTable (pathStr n) = none) :
    Extends R b K h
      { h with nodesTable := h.nodesTable ++ [keptEntry R b n] } := by
  refine ⟨rfl, rfl, ⟨[n], rfl, List.nodup_singleton n, ?_⟩, ?_, ?_⟩
  · intro m hm
    rw [List.mem_singleton.1 hm]
    refine ⟨?_, hn, hK⟩
    unfold InTable
    rw [hfind]
    simp
  · intro key hkey
    exact hkey
  · intro p q hpq
    exact hpq

/-- An entry of `dep_table` is made. -/
theorem Extends.withEntry (h : Context) (s : CStr) :
    Extends R b K h (withEntry h s) := by
  refine ⟨?_, ?_, ⟨[], ?_, List.nodup_nil, by simp⟩, ?_, ?_⟩
  · unfold Fdtgen.withEntry
    split <;> rfl
  · unfold Fdtgen.withEntry
    split <;> rfl
  · unfold Fdtgen.withEntry
    split <;> simp
  · exact fun key => findDep_withEntry_mono h s
  · intro p q hpq
    unfold recorded at hpq ⊢
    rwa [listed_withEntry]

/-- A dependency is added to a list. -/
theorem Extends.addTo {key : CStr}
    (hdep : (findDep h.depTable key).isSome) (d : DListNode) :
    Extends R b K h (addTo h key d) := by
  refine ⟨rfl, rfl, ⟨[], by simp [Fdtgen.addTo], List.nodup_nil,
    by simp⟩, ?_, ?_⟩
  · exact fun k => findDep_addTo_mono h key d
  · intro p q hpq
    unfold recorded at hpq ⊢
    show listed (appendDep _ _ _) _ _ = true
    rw [listed_appendDep hdep, hpq, Bool.true_or]

/-- No more entries are added than there are nodes. -/
theorem Extends.length_le (he : Extends R b K h h') :
    h.nodesTable.length ≤ h'.nodesTable.length
      ∧ h'.nodesTable.length
        ≤ h.nodesTable.length + (R.tree b).length := by
  obtain ⟨new, hnew, hnd, hadd⟩ := he.nodes
  have hsub : new ⊆ (R.tree b).paths := fun n hn => (hadd n hn).2.1
  have hle := (List.subperm_of_subset hnd hsub).length_le
  rw [Tree.length_paths] at hle
  rw [hnew, List.length_append, List.length_map]
  omega

end Extends

-- ================================================ keep_node_and_parents

section Keep

variable {L : Libfdt} {R : L.Reading} {b : L.Blob} {ok : Fault → Prop}
  {K V : Path → Prop} {lim fuel : Nat} {register : Register}
  {h : Context} {P : Path} {o : Int}

theorem Valid.walkable (hb : Valid R b) : Walkable R b := ⟨hb.doc, hb.wf⟩

theorem Valid.off_eq_iff (hb : Valid R b) {p q : Path}
    (hp : p ∈ (R.tree b).paths) (hq : q ∈ (R.tree b).paths) :
    R.off b p = R.off b q ↔ p = q :=
  hb.walkable.off_eq_iff hp hq

/-- A name appended to `string_buf`: it overflows, or the path fits. -/
theorem Safe.comes_strcatChild (hS : Safe R b ok K V lim) {n : CStr}
    (hn : P ++ [n] ∈ (R.tree b).paths) :
    Comes ok (strcatChild (pathStr P) (L.getName b (R.off b (P ++ [n]))))
      fun s => s = pathStr (P ++ [n]) ∧ Short (P ++ [n]) := by
  rw [hS.valid.doc.getName_eq b P n hS.valid.wf hn, strcatChild_ite,
    ← pathStr_append]
  by_cases hshort : (pathStr (P ++ [n])).length < maxFullPathLength
  · rw [if_pos hshort]
    exact ⟨rfl, hshort⟩
  · rw [if_neg hshort]
    exact (hS.long _ hn).resolve_left hshort

/-- What `keep_node_and_parents` returns from `P`, for the target `o`. -/
def Searched (R : L.Reading) (b : L.Blob) (K : Path → Prop) (P : Path)
    (o : Int) (h : Context) : Bool × Context → Prop
  | (true, h') => Extends R b K h h'
      ∧ ∃ q ∈ (R.tree b).paths, o = R.off b q ∧ P <+: q ∧ Short q
  | (false, h') => h' = h
      ∧ ∀ q ∈ (R.tree b).paths, P <+: q → o ≠ R.off b q

/-- What the target of a search must be: if it is a node, it is one to
keep, and there is fuel for it. -/
def Wants (R : L.Reading) (b : L.Blob) (K : Path → Prop) (fuel : Nat)
    (o : Int) (h : Context) : Prop :=
  ∀ q ∈ (R.tree b).paths, o = R.off b q →
    K q ∧ (Short q → absent R b h + 2 ≤ fuel)

/-- The entry made for the child that the target was found below. -/
theorem Safe.comes_enter (hS : Safe R b ok K V lim)
    (hreg : Steady R b ok K V register fuel) {n : CStr} {h₁ : Context}
    (hn : P ++ [n] ∈ (R.tree b).paths) (hshort : Short (P ++ [n]))
    (hK : K (P ++ [n])) (hroot : h₁.rootOffset = R.off b [])
    (hfuel : absent R b h₁ + 2 ≤ fuel) (len : Nat) :
    Comes ok (do
      let h := match findNode h₁.nodesTable (pathStr (P ++ [n])) with
        | none =>
            { h₁ with
              nodesTable := h₁.nodesTable
                ++ [⟨pathStr (P ++ [n]), R.off b P, 0, .keep⟩] }
        | some _ => h₁
      let h ← match findDep h.depTable (pathStr (P ++ [n])) with
        | none => register h (R.off b (P ++ [n]))
        | some _ => .ok h
      .ok (true, { h with stringBuf := h.stringBuf.take len }))
      fun r => r.1 = true ∧ Extends R b K h₁ r.2 := by
  have hentry : (⟨pathStr (P ++ [n]), R.off b P, 0, .keep⟩ : PathNode)
      = keptEntry R b (P ++ [n]) := by
    unfold keptEntry
    rw [List.dropLast_concat]
  -- the context with the entry
  obtain ⟨h₂, hh₂, he₂⟩ : ∃ h₂, (match findNode h₁.nodesTable
        (pathStr (P ++ [n])) with
      | none =>
          { h₁ with
            nodesTable := h₁.nodesTable
              ++ [⟨pathStr (P ++ [n]), R.off b P, 0, .keep⟩] }
      | some _ => h₁) = h₂ ∧ Extends R b K h₁ h₂ := by
    refine ⟨_, rfl, ?_⟩
    cases hfind : findNode h₁.nodesTable (pathStr (P ++ [n])) with
    | none =>
        rw [hentry]
        exact Extends.enter hn hK hfind
    | some e => exact Extends.refl h₁
  simp only [hh₂]
  cases findDep h₂.depTable (pathStr (P ++ [n])) with
  | some d =>
      refine ⟨rfl, he₂.trans (Extends.buf h₂ _)⟩
  | none =>
      refine (hreg.node h₂ _ hn (hS.visited _ hK) hshort
        (he₂.root.trans hroot) ?_).bind ?_
      · have hle := he₂.absent_le
        omega
      · intro h₃ he₃
        exact ⟨rfl, (he₂.trans he₃).trans (Extends.buf h₃ _)⟩

/-- The loop over the children of `P`, or over some of them. -/
theorem Safe.comes_keepChildren (hS : Safe R b ok K V lim)
    (hreg : Steady R b ok K V register fuel)
    {descend : Context → Int → Except Fault (Bool × Context)}
    (hbuf : h.stringBuf = pathStr P) (hroot : h.rootOffset = R.off b [])
    (hwants : Wants R b K fuel o h) {cs : List Path}
    (hcs : ∀ c ∈ cs, c ∈ (R.tree b).children P)
    (hdesc : ∀ c ∈ cs, Short c →
      Comes ok (descend { h with stringBuf := pathStr c } (R.off b c))
        (Searched R b K c o { h with stringBuf := pathStr c })) :
    Comes ok
      (keepChildren L b register descend (R.off b P) h (cs.map (R.off b)))
      fun r => if r.1 then Extends R b K h r.2
          ∧ ∃ q ∈ (R.tree b).paths, o = R.off b q ∧ P <+: q ∧ Short q
        else r.2 = h ∧ ∀ c ∈ cs, ∀ q ∈ (R.tree b).paths, c <+: q →
          o ≠ R.off b q := by
  induction cs with
  | nil => exact ⟨rfl, by simp⟩
  | cons c cs ih =>
      have hdesc₀ := hdesc c (List.mem_cons_self ..)
      obtain ⟨hc, n, rfl⟩ :=
        Tree.mem_children.1 (hcs c (List.mem_cons_self ..))
      rw [List.map_cons, keepChildren, hbuf]
      refine (hS.comes_strcatChild hc).bind ?_
      rintro s ⟨rfl, hshort⟩
      refine (hdesc₀ hshort).bind ?_
      rintro ⟨keep, h₁⟩ hfound
      -- found below this child: it is entered on the way back; otherwise
      -- the search goes on with the next one
      cases keep with
      | true =>
          obtain ⟨he, q, hq, hoq, hpre, hqshort⟩ := hfound
          have he₁ := (Extends.buf h _).trans he
          obtain ⟨hKq, hfuel⟩ := hwants q hq hoq
          refine (hS.comes_enter hreg hc hshort (hS.above _ _ hKq hpre)
            (he.root.trans hroot) ?_ (pathStr P).length).mono ?_
          · have hle := he₁.absent_le
            have hfuel := hfuel hqshort
            omega
          · rintro ⟨_, h₂⟩ ⟨rfl, he₂⟩
            refine ⟨he₁.trans he₂, q, hq, hoq, ?_, hqshort⟩
            exact (List.prefix_append P [n]).trans hpre
      | false =>
          obtain ⟨rfl, hmiss⟩ := hfound
          have hback : { h with stringBuf := pathStr P } = h := by
            rw [← hbuf]
          have hrest := ih (fun c hc => hcs c (List.mem_cons_of_mem _ hc))
            (fun c hc => hdesc c (List.mem_cons_of_mem _ hc))
          simp only [take_pathStr, hback]
          refine hrest.mono ?_
          rintro ⟨found, h₂⟩ hpost
          cases found with
          | true => exact hpost
          | false =>
              refine ⟨hpost.1, ?_⟩
              intro c hmem
              cases hmem with
              | head => exact hmiss
              | tail _ hmem => exact hpost.2 c hmem

/-- `keep_node_and_parents` for a target other than the root. -/
theorem Safe.comes_keep (hS : Safe R b ok K V lim)
    (hreg : Steady R b ok K V register fuel) (ho : o ≠ R.off b [])
    {deep : Nat} (hP : P ∈ (R.tree b).paths) (hshort : Short P)
    (hd : DeepEnough R b P deep) (hbuf : h.stringBuf = pathStr P)
    (hroot : h.rootOffset = R.off b []) (hwants : Wants R b K fuel o h) :
    Comes ok (keepNodeAndParents L b register deep h (R.off b P) o)
      (Searched R b K P o h) := by
  induction deep generalizing P h with
  | zero =>
      obtain ⟨deep', hdeep⟩ := hd.pos hP
      cases hdeep
  | succ deep ih =>
      rw [keepNodeAndParents, hroot, if_neg ho]
      by_cases hoP : o = R.off b P
      · rw [if_pos hoP]
        exact ⟨Extends.refl h, P, hP, hoP, List.prefix_rfl, hshort⟩
      · rw [if_neg hoP, hS.valid.doc.subnodes_eq b P hS.valid.wf hP]
        refine (hS.comes_keepChildren hreg hbuf hroot hwants
          (fun c hc => hc) ?_).mono ?_
        · intro c hc hshort'
          obtain ⟨hmem, n, rfl⟩ := Tree.mem_children.1 hc
          exact ih hmem hshort' (hd.child n) rfl hroot hwants
        · rintro ⟨found, h'⟩ hpost
          cases found with
          | true => exact hpost
          | false =>
              refine ⟨hpost.1, ?_⟩
              intro q hq hPq hoq
              have hne : q ≠ P := by
                rintro rfl
                exact hoP hoq
              obtain ⟨c, hc, hcq⟩ := (Tree.below_iff_children hS.valid.wf
                hq).2 ⟨hPq, hne⟩
              exact hpost.2 c hc q hq hcq hoq

end Keep

-- =========================================== register_single_dependency

section Register

variable {L : Libfdt} {R : L.Reading} {b : L.Blob} {ok : Fault → Prop}
  {K V : Path → Prop} {lim fuel : Nat} {register : Register}
  {h : Context} {p : Path} {o : Int}

/-- The target is looked for and registered. -/
theorem Safe.comes_follow (hS : Safe R b ok K V lim)
    (hreg : Steady R b ok K V register fuel) (hbuf : h.stringBuf = [])
    (hroot : h.rootOffset = R.off b []) (hwants : Wants R b K fuel o h)
    (hpos : 0 < fuel) :
    Comes ok (do
      let (_, h) ← keepNodeAndParents L b register lim h h.rootOffset o
      register h o) (Extends R b K h) := by
  have hw := hS.valid.wf
  by_cases ho : o = R.off b []
  · subst ho
    obtain ⟨lim, rfl⟩ := hS.deep.pos hw.root
    obtain ⟨hK, hfuel⟩ := hwants [] hw.root rfl
    rw [keepNodeAndParents, if_pos hroot.symm]
    exact hreg.node h [] hw.root (hS.visited _ hK) short_nil hroot
      (hfuel short_nil)
  · rw [hroot]
    refine (hS.comes_keep hreg ho hw.root short_nil hS.deep hbuf hroot
      hwants).bind ?_
    rintro ⟨found, h₁⟩ hfound
    cases found with
    | true =>
        obtain ⟨he, q, hq, rfl, -, hshort⟩ := hfound
        obtain ⟨hK, hfuel⟩ := hwants q hq rfl
        refine (hreg.node h₁ q hq (hS.visited _ hK) hshort
          (he.root.trans hroot) ?_).mono fun h₂ he₂ => he.trans he₂
        have hle := he.absent_le
        have hfuel := hfuel hshort
        omega
    | false =>
        obtain ⟨rfl, hmiss⟩ := hfound
        have hnone : Nowhere R b o :=
          fun q hq => hmiss q hq List.nil_prefix
        exact Comes.of_eq_ok (hreg.nowhere h₁ o hnone hpos)
          (Extends.refl h₁)

/-- The fuel that the dependencies of `p` take: a pair is recorded before
the next call if the entry is that of `p`. -/
def Reserve (R : L.Reading) (b : L.Blob) (p : Path) (fromPath : CStr)
    (fuel : Nat) (h : Context) : Prop :=
  fromPath = pathStr p ∧ absent R b h + 1 ≤ fuel
    ∨ absent R b h + 2 ≤ fuel

/-- The fuel reserved still suffices when the tables have grown. -/
theorem Reserve.extends {fromPath : CStr} {h' : Context}
    (hr : Reserve R b p fromPath fuel h) (he : Extends R b K h h') :
    Reserve R b p fromPath fuel h' := by
  have hle := he.absent_le
  refine hr.imp (fun hand => ⟨hand.1, ?_⟩) fun habs => ?_
  · have habs := hand.2
    omega
  · omega

/-- Once the target is recorded there is fuel for it. -/
theorem Safe.wants_addTo (hS : Safe R b ok K V lim) {fromPath buf : CStr}
    {ph : UInt32} {this : Dependency} (hp : p ∈ (R.tree b).paths)
    (hcov : Covered R b K p ph)
    (hthis : findDep h.depTable fromPath = some this)
    (hr : Reserve R b p fromPath fuel h)
    (ho : R.off b p ≠ L.nodeOffsetByPhandle b ph)
    (hnew : ¬this.toList.any fun d => d.toPath
      = L.getPath b (L.nodeOffsetByPhandle b ph) buf maxFullPathLength) :
    Wants R b K fuel (L.nodeOffsetByPhandle b ph)
      (addTo h fromPath ⟨L.getPath b (L.nodeOffsetByPhandle b ph) buf
        maxFullPathLength, ph⟩) := by
  have hdep : (findDep h.depTable fromPath).isSome := by
    rw [hthis]
    rfl
  intro q hq hoq
  refine ⟨hcov q hq hoq (hoq ▸ ho), fun hshort => ?_⟩
  cases hr with
  | inr habs =>
      have hle := (Extends.addTo (R := R) (b := b) (K := K) hdep
        ⟨L.getPath b (L.nodeOffsetByPhandle b ph) buf maxFullPathLength,
          ph⟩).absent_le
      omega
  | inl hand =>
      obtain ⟨rfl, habs⟩ := hand
      have hpath : L.getPath b (L.nodeOffsetByPhandle b ph) buf
          maxFullPathLength = fullPath q := by
        rw [hoq]
        apply hS.valid.doc.getPath_eq b q buf _ hS.valid.wf hq
        unfold fullPath
        split
        · decide
        · exact hshort
      rw [hpath] at hnew ⊢
      have hrec : ¬recorded h p q := by
        unfold recorded listed
        rw [hthis]
        exact hnew
      have hlt : absent R b (addTo h (pathStr p) ⟨fullPath q, ph⟩)
          < absent R b h := absent_addTarget hp hq hdep hrec ph
      omega

/-- `register_single_dependency`, once the phandle is read. -/
theorem Safe.comes_single (hS : Safe R b ok K V lim)
    (hreg : Steady R b ok K V register fuel) {data : List UInt8}
    {fromPath : CStr} {ph : UInt32} (hp : p ∈ (R.tree b).paths)
    (hbe : be32 data = some ph) (hcov : Covered R b K p ph)
    (hroot : h.rootOffset = R.off b [])
    (hdep : (findDep h.depTable fromPath).isSome)
    (hr : Reserve R b p fromPath fuel h) :
    Comes ok (registerSingleDependency L b register lim h (R.off b p) data
      fromPath) (Extends R b K h) := by
  obtain ⟨this, hthis⟩ := Option.isSome_iff_exists.1 hdep
  have hpos : 0 < fuel := by
    rcases hr with ⟨-, habs⟩ | habs
    · omega
    · omega
  unfold registerSingleDependency fdt32Ld
  rw [hbe]
  show Comes ok (match findDep h.depTable fromPath with
    | none => _
    | some this => _) _
  rw [hthis]
  dsimp only
  split
  · exact Extends.buf h _
  · rename_i hnot
    rw [not_or] at hnot
    have hwants := hS.wants_addTo hp hcov hthis hr hnot.1 hnot.2
    have hfollow := hS.comes_follow
      (h := addTo h fromPath ⟨L.getPath b (L.nodeOffsetByPhandle b ph)
        h.stringBuf maxFullPathLength, ph⟩) hreg rfl hroot hwants hpos
    refine hfollow.mono ?_
    intro h' he'
    exact (Extends.addTo hdep _).trans he'

-- ================================================ lists of references

/-- The loop as the walk sees it: what is read, and what is registered
between. -/
theorem registerCellsLoop_succ {cellsProp : CStr}
    {absentCells : Except Fault Int} {data : List UInt8} {fromPath : CStr}
    {n : Nat} {done : Int} (hlt : done < data.length) (hge : ¬done < 0) :
    registerCellsLoop L b register lim cellsProp absentCells o data
        fromPath (n + 1) h done
      = (do
          let ph ← fdt32Ld (data.drop done.toNat)
          let cells ← cellsOf L b cellsProp absentCells ph
          let h ← registerSingleDependency L b register lim h o
            (data.drop done.toNat) fromPath
          let done ← advance done cells
          registerCellsLoop L b register lim cellsProp absentCells o data
            fromPath n h done) := by
  rw [registerCellsLoop, if_pos hlt, if_neg hge]
  cases fdt32Ld (data.drop done.toNat) with
  | error e => rfl
  | ok ph =>
      rw [ok_bind, ok_bind]
      unfold advance cellsOf
      cases hv : L.getprop b (L.nodeOffsetByPhandle b ph) cellsProp with
      | none => simp only [hv, bind_assoc]
      | some v => simp only [hv, bind_assoc]

/-- What is left of a walk after a phandle is read; if a fault follows
that is allowed, any phandle will do. -/
theorem Safe.walk_rest (hS : Safe R b ok K V lim) {cellsProp : CStr}
    {absentCells : Except Fault Int} {data : List UInt8} {n : Nat}
    {done cells : Int} {ph : UInt32}
    (hwalk : Comes ok (do
        let done ← advance done cells
        let rest ← listWalk L b cellsProp absentCells data n done
        .ok (ph :: rest)) fun phs => ∀ x ∈ phs, Covered R b K p x) :
    Covered R b K p ph
      ∧ Comes ok (advance done cells) fun done =>
          Comes ok (listWalk L b cellsProp absentCells data n done)
            fun phs => ∀ x ∈ phs, Covered R b K p x := by
  have hany : ∀ e, ok e → Covered R b K p ph :=
    fun e he q _ _ _ => hS.faults e he q
  cases hadv : advance done cells with
  | error e =>
      rw [hadv] at hwalk
      exact ⟨hany e hwalk, hwalk⟩
  | ok done' =>
      rw [hadv, ok_bind] at hwalk
      show _ ∧ Comes ok (listWalk L b cellsProp absentCells data n done') _
      cases hrest : listWalk L b cellsProp absentCells data n done' with
      | error e =>
          rw [hrest] at hwalk
          exact ⟨hany e hwalk, hwalk⟩
      | ok phs =>
          rw [hrest] at hwalk
          have hall : ∀ x ∈ ph :: phs, Covered R b K p x := hwalk
          exact ⟨hall ph (List.mem_cons_self ..),
            fun x hx => hall x (List.mem_cons_of_mem _ hx)⟩

/-- The loop ends as the walk does. -/
theorem Safe.comes_cellsLoop (hS : Safe R b ok K V lim)
    (hreg : Steady R b ok K V register fuel) {cellsProp : CStr}
    {absentCells : Except Fault Int} {data : List UInt8} {fromPath : CStr}
    {n : Nat} {done : Int} (hp : p ∈ (R.tree b).paths)
    (hwalk : Comes ok (listWalk L b cellsProp absentCells data n done)
      fun phs => ∀ ph ∈ phs, Covered R b K p ph)
    (hroot : h.rootOffset = R.off b [])
    (hdep : (findDep h.depTable fromPath).isSome)
    (hr : Reserve R b p fromPath fuel h) :
    Comes ok (registerCellsLoop L b register lim cellsProp absentCells
      (R.off b p) data fromPath n h done) (Extends R b K h) := by
  induction n generalizing h done with
  | zero => exact hwalk
  | succ n ih =>
      rw [listWalk] at hwalk
      by_cases hlt : done < data.length
      · rw [if_pos hlt] at hwalk
        by_cases hneg : done < 0
        · rw [if_pos hneg] at hwalk
          rw [registerCellsLoop, if_pos hlt, if_pos hneg]
          exact hwalk
        · rw [if_neg hneg] at hwalk
          rw [registerCellsLoop_succ hlt hneg]
          cases hbe : be32 (data.drop done.toNat) with
          | none =>
              unfold fdt32Ld at hwalk ⊢
              rw [hbe] at hwalk ⊢
              exact hwalk
          | some ph =>
              have hword : fdt32Ld (data.drop done.toNat) = .ok ph := by
                rw [fdt32Ld, hbe]
              rw [hword, ok_bind] at hwalk ⊢
              cases hcells : cellsOf L b cellsProp absentCells ph with
              | error e =>
                  rw [hcells] at hwalk
                  exact hwalk
              | ok c =>
                  rw [hcells, ok_bind] at hwalk
                  rw [ok_bind]
                  obtain ⟨hcov, hrest⟩ := hS.walk_rest hwalk
                  refine (hS.comes_single hreg hp hbe hcov hroot hdep
                    hr).bind ?_
                  intro h₁ he₁
                  refine hrest.bind ?_
                  intro done' hwalk'
                  exact (ih hwalk' (he₁.root.trans hroot)
                    (he₁.deps _ hdep) (hr.extends he₁)).mono
                    fun h₂ he₂ => he₁.trans he₂
      · rw [registerCellsLoop, if_neg hlt]
        exact Extends.refl h

/-- A property of a node, once its dependencies have an entry. -/
theorem Safe.comes_nodeDependency (hS : Safe R b ok K V lim)
    (hreg : Steady R b ok K V register fuel) {pr : Property}
    {pOffset : Int} (hp : p ∈ (R.tree b).paths) (hp0 : p ≠ [])
    (hvalue : L.getpropByOffset b pOffset = pr.value)
    (hname : pr.name ∈ propsWithDep)
    (hwalk : Comes ok (propWalk L b lim pr)
      fun phs => ∀ ph ∈ phs, Covered R b K p ph)
    (hroot : h.rootOffset = R.off b [])
    (hr : Short p ∧ absent R b h + 1 ≤ fuel ∨ absent R b h + 2 ≤ fuel) :
    Comes ok (registerNodeDependency L b register lim h (R.off b p) pr.name
      pOffset) (Extends R b K h) := by
  let fromPath := L.getPath b (R.off b p) h.stringBuf maxFullPathLength
  have he : Extends R b K h (withEntry h fromPath) :=
    Extends.withEntry h fromPath
  have hdep := findDep_withEntry h fromPath
  have hroot₁ := he.root.trans hroot
  have hr₁ : Reserve R b p fromPath fuel (withEntry h fromPath) := by
    have hr₀ : Reserve R b p fromPath fuel h := by
      refine hr.imp_left fun hand => ⟨?_, hand.2⟩
      have hlt : (fullPath p).length < maxFullPathLength := by
        rw [fullPath_of_ne hp0]
        exact hand.1
      rw [← fullPath_of_ne hp0]
      exact hS.valid.doc.getPath_eq b p _ _ hS.valid.wf hp hlt
    exact hr₀.extends he
  suffices hgoal : Comes ok (registerNodeDependency L b register lim h
      (R.off b p) pr.name pOffset)
      (Extends R b K (withEntry h fromPath)) from
    hgoal.mono fun h' he' => he.trans he'
  unfold registerNodeDependency
  simp only [hvalue]
  unfold propWalk at hwalk
  by_cases hclk : pr.name = "clocks".toList
  · rw [if_pos hclk] at hwalk ⊢
    exact hS.comes_cellsLoop hreg hp hwalk hroot₁ hdep hr₁
  · rw [if_neg hclk] at hwalk ⊢
    by_cases hpow : pr.name = "power-domains".toList
    · rw [if_pos hpow] at hwalk ⊢
      exact hS.comes_cellsLoop hreg hp hwalk hroot₁ hdep hr₁
    · rw [if_neg hpow, if_pos hname] at hwalk
      rw [if_neg hpow]
      cases hbe : be32 pr.value with
      | none =>
          unfold fdt32Ld at hwalk
          unfold registerSingleDependency fdt32Ld
          rw [hbe] at hwalk ⊢
          exact hwalk
      | some ph =>
          unfold fdt32Ld at hwalk
          rw [hbe] at hwalk
          have hcov : Covered R b K p ph :=
            hwalk ph (List.mem_singleton_self ph)
          exact hS.comes_single hreg hp hbe hcov hroot₁ hdep hr₁

-- =========================================== register_node_dependencies

/-- The properties of a node, one after the other. -/
theorem Safe.comes_properties (hS : Safe R b ok K V lim)
    (hreg : Steady R b ok K V register fuel)
    (hp : p ∈ (R.tree b).paths) (hV : V p) (hp0 : p ≠ [])
    (hroot : h.rootOffset = R.off b [])
    (hr : Short p ∧ absent R b h + 1 ≤ fuel ∨ absent R b h + 2 ≤ fuel) :
    Comes ok ((L.propertyOffsets b (R.off b p)).foldlM (fun h propOff =>
      propsWithDep.foldlM (fun h dep =>
        if L.propertyName b propOff = dep then
          registerNodeDependency L b register lim h (R.off b p)
            (L.propertyName b propOff) propOff
        else .ok h) h) h) (Extends R b K h) := by
  have hprops := hS.valid.doc.propertyOffsets_eq b p hS.valid.wf hp
  apply Comes.foldlM (Extends R b K h) (Extends.refl h)
  intro po hpo h₁ he₁
  have hpr : ⟨L.propertyName b po, L.getpropByOffset b po⟩
      ∈ (R.tree b).propsAt p := by
    rw [← hprops]
    exact List.mem_map_of_mem hpo
  rw [foldlM_select _ _ (by decide)]
  split
  · rename_i hname
    have hle := he₁.absent_le
    have hr₁ : Short p ∧ absent R b h₁ + 1 ≤ fuel
        ∨ absent R b h₁ + 2 ≤ fuel := by
      refine hr.imp (fun hand => ⟨hand.1, ?_⟩) fun habs => ?_
      · have habs := hand.2
        omega
      · omega
    refine (hS.comes_nodeDependency hreg hp hp0 rfl hname
      (hS.walks p hp hV hp0 _ hpr) (he₁.root.trans hroot) hr₁).mono ?_
    intro h₂ he₂
    exact he₁.trans he₂
  · exact he₁

/-- The offset of no node has no properties. -/
theorem Safe.register_nowhere (hS : Safe R b ok K V lim)
    (ho : Nowhere R b o) (hpos : 0 < fuel) :
    registerNodeDependencies L b lim fuel h o = .ok h :=
  registerNodeDependencies_none
    (hS.valid.refuses.propertyOffsets_none b o hS.valid.wf ho) hpos h

/-- `register_node_dependencies` ends, whatever refers to what. -/
theorem Safe.steady (hS : Safe R b ok K V lim) (fuel : Nat) :
    Steady R b ok K V (registerNodeDependencies L b lim fuel) fuel := by
  induction fuel with
  | zero =>
      refine ⟨fun h p _ _ _ _ habs => ?_, fun h o _ hpos => ?_⟩
      · omega
      · omega
  | succ fuel ih =>
      refine ⟨?_, fun h o ho hpos => hS.register_nowhere ho hpos⟩
      intro h p hp hV hshort hroot habs
      unfold registerNodeDependencies
      by_cases hp0 : R.off b p = h.rootOffset
      · rw [if_pos hp0]
        exact Extends.refl h
      · rw [if_neg hp0]
        have hne : p ≠ [] := by
          rintro rfl
          exact hp0 hroot.symm
        exact hS.comes_properties ih hp hV hne hroot
          (.inl ⟨hshort, by omega⟩)

/-- A node that the iteration comes to may have a long path. -/
theorem Safe.comes_register (hS : Safe R b ok K V lim)
    (hp : p ∈ (R.tree b).paths) (hV : V p)
    (hroot : h.rootOffset = R.off b []) (habs : absent R b h + 3 ≤ fuel) :
    Comes ok (registerNodeDependencies L b lim fuel h (R.off b p))
      (Extends R b K h) := by
  obtain ⟨fuel, rfl⟩ : ∃ n, fuel = n + 1 := ⟨fuel - 1, by omega⟩
  unfold registerNodeDependencies
  by_cases hp0 : R.off b p = h.rootOffset
  · rw [if_pos hp0]
    exact Extends.refl h
  · rw [if_neg hp0]
    have hne : p ≠ [] := by
      rintro rfl
      exact hp0 hroot.symm
    exact hS.comes_properties (hS.steady fuel) hp hV hne hroot
      (.inr (by omega))

-- ============================================= resolve_all_dependencies

/-- Where the offset of an entry leads. -/
def Leads (R : L.Reading) (b : L.Blob) (V : Path → Prop)
    (e : PathNode) : Prop :=
  (∃ p ∈ (R.tree b).paths, V p ∧ e.offset = R.off b p)
    ∨ Nowhere R b e.offset

/-- Entries that are made lead to nodes that are visited. -/
theorem Safe.leads (hS : Safe R b ok K V lim) {h₀ : Context}
    (hlead : ∀ e ∈ h₀.nodesTable, Leads R b V e)
    (he : Extends R b K h₀ h) {e : PathNode} (hmem : e ∈ h.nodesTable) :
    Leads R b V e := by
  obtain ⟨new, hnew, -, hadd⟩ := he.nodes
  rw [hnew, List.mem_append] at hmem
  cases hmem with
  | inl hold => exact hlead e hold
  | inr hkept =>
      obtain ⟨n, hn, rfl⟩ := List.mem_map.1 hkept
      obtain ⟨-, hpaths, hK⟩ := hadd n hn
      have hpre := List.dropLast_prefix n
      exact .inl ⟨n.dropLast, hS.valid.wf.mem_above hpaths hpre,
        hS.visited _ (hS.above n _ hK hpre), rfl⟩

/-- The iteration from the entry `i` on. -/
theorem Safe.comes_resolveLoop (hS : Safe R b ok K V lim) {h₀ : Context}
    (hroot : h₀.rootOffset = R.off b [])
    (hlead : ∀ e ∈ h₀.nodesTable, Leads R b V e)
    (habs : absent R b h₀ + 3 ≤ fuel) {n i : Nat} {more : Bool}
    (he : Extends R b K h₀ h)
    (hi : i = 0 ∨ i < h.nodesTable.length)
    (hn : h₀.nodesTable.length + (R.tree b).length < n + i)
    (hmore : more = true → i + 1 < h.nodesTable.length) :
    Comes ok (resolveLoop (registerNodeDependencies L b lim fuel) n h i
      more) (Extends R b K h₀) := by
  induction n generalizing h i more with
  | zero =>
      have hle := he.length_le.2
      omega
  | succ n ih =>
      rw [resolveLoop]
      cases hget : h.nodesTable[i]? with
      | none => exact he
      | some e =>
          have hmem := List.mem_of_getElem? hget
          have hle := he.absent_le
          have hrun : Comes ok (registerNodeDependencies L b lim fuel h
              e.offset) (Extends R b K h) := by
            obtain ⟨p, hp, hV, hoff⟩ | hnone := hS.leads hlead he hmem
            · rw [hoff]
              exact hS.comes_register hp hV (he.root.trans hroot)
                (by omega)
            · exact Comes.of_eq_ok
                (hS.register_nowhere hnone (by omega)) (Extends.refl h)
          refine hrun.bind ?_
          intro h₁ he₁
          have he₂ := he.trans he₁
          cases more with
          | false => exact he₂
          | true =>
              have hlt := hmore rfl
              have hlen := he₁.length_le.1
              rw [if_pos rfl]
              refine ih he₂ (.inr (by omega)) (by omega) ?_
              intro hdec
              exact of_decide_eq_true hdec

/-- `resolve_all_dependencies` ends. -/
theorem Safe.comes_resolveAll (hS : Safe R b ok K V fuel)
    (hroot : h.rootOffset = R.off b [])
    (hlead : ∀ e ∈ h.nodesTable, Leads R b V e)
    (habs : absent R b h + 3 ≤ fuel)
    (hlen : h.nodesTable.length + (R.tree b).length < fuel) :
    Comes ok (resolveAllDependencies L b fuel h) (Extends R b K h) :=
  hS.comes_resolveLoop hroot hlead habs (Extends.refl h) (.inl rfl) hlen
    of_decide_eq_true

end Register

end ProjectsLibs.Fdtgen
