/-
The calls that a run of `resolve_all_dependencies` makes, and what
`string_buf` holds when they are made.

`Makes` says which calls the body of a function makes, with the context it
makes them in; a loop is a call of its own, one for each state it comes
to. A call of the run is one that `Makes` leads to from the iteration over
`nodes_table`.

# Shape of the argument

`Good` is what holds of every call: which node an offset is that of, and
for the functions that look at `string_buf`, that it holds the path of
that node. It is kept by each way to make a call (`good_of_makes`), so it
holds of every call of a run (`good_of_calls`). What other calls have left
in the buffer meanwhile does not matter: the search for a target starts
with an empty one, and a search that comes back without the target has
put back what was there (`Input.keep_miss`).
-/
import Mathlib.Logic.Relation
import ProjectsLibs.Fdtgen.Proofs.Closure
import ProjectsLibs.Fdtgen.Proofs.Targets

namespace ProjectsLibs.Fdtgen

open Fdt Lib

-- ================================================================ calls

/-- A call, or a state of a loop. `fuel` is how deep
`register_node_dependencies` may still go, `n` counts the rounds of a loop
or the depth of a search. -/
inductive Call
  | resolveLoop (fuel n : Nat) (h : Context) (i : Nat) (more : Bool)
  | registerNodeDependencies (fuel : Nat) (h : Context) (offset : Int)
  | registerNodeDependency (fuel : Nat) (h : Context) (offset : Int)
      (type : CStr) (pOffset : Int)
  | registerCellsLoop (fuel : Nat) (cellsProp : CStr)
      (absent : Except Fault Int) (offset : Int) (data : List UInt8)
      (fromPath : CStr) (n : Nat) (h : Context) (done : Int)
  | registerSingleDependency (fuel : Nat) (h : Context) (offset : Int)
      (data : List UInt8) (fromPath : CStr)
  | keepNodeAndParents (fuel n : Nat) (h : Context) (offset target : Int)
  | keepChildren (fuel n : Nat) (h : Context) (offset target : Int)
      (children : List Int)

section Makes

variable (L : Libfdt) (dtb : L.Blob) (lim : Nat)

/-- One of the names that a property is compared with. -/
def registerIfNamed (fuel : Nat) (offset propOff : Int) (h : Context)
    (dep : CStr) : Except Fault Context :=
  if L.propertyName dtb propOff = dep then
    registerNodeDependency L dtb (registerNodeDependencies L dtb lim fuel)
      lim h offset (L.propertyName dtb propOff) propOff
  else .ok h

/-- The body of the loop over the properties of a node. -/
def registerProperty (fuel : Nat) (offset : Int) (h : Context)
    (propOff : Int) : Except Fault Context :=
  propsWithDep.foldlM (registerIfNamed L dtb lim fuel offset propOff) h

/-- `register_node_dependency` as it calls on: with the path of the node
in `string_buf`, and a list for it. -/
def atNode (h : Context) (offset : Int) : Context :=
  withEntry h (L.getPath dtb offset h.stringBuf maxFullPathLength)

/-- The calls that a call makes. -/
inductive Makes : Call → Call → Prop
  | entry {fuel n i : Nat} {h : Context} {more : Bool} {el : PathNode} :
      h.nodesTable[i]? = some el →
      Makes (.resolveLoop fuel (n + 1) h i more)
        (.registerNodeDependencies fuel h el.offset)
  | nextEntry {fuel n i : Nat} {h h' : Context} {el : PathNode} :
      h.nodesTable[i]? = some el →
      registerNodeDependencies L dtb lim fuel h el.offset = .ok h' →
      Makes (.resolveLoop fuel (n + 1) h i true)
        (.resolveLoop fuel n h' (i + 1)
          (decide (i + 2 < h'.nodesTable.length)))
  | property {fuel : Nat} {h h₁ h₂ : Context} {offset po : Int}
      {before after : List Int} {deps deps' : List CStr} :
      offset ≠ h.rootOffset →
      L.propertyOffsets dtb offset = before ++ po :: after →
      before.foldlM (registerProperty L dtb lim fuel offset) h = .ok h₁ →
      propsWithDep = deps ++ L.propertyName dtb po :: deps' →
      deps.foldlM (registerIfNamed L dtb lim fuel offset po) h₁ = .ok h₂ →
      Makes (.registerNodeDependencies (fuel + 1) h offset)
        (.registerNodeDependency fuel h₂ offset (L.propertyName dtb po) po)
  | clocks {fuel : Nat} {h : Context} {offset po : Int} :
      Makes (.registerNodeDependency fuel h offset "clocks".toList po)
        (.registerCellsLoop fuel "#clock-cells".toList (.error .badAccess)
          offset (L.getpropByOffset dtb po) (atNode L dtb h offset).stringBuf
          lim (atNode L dtb h offset) 0)
  | powerDomains {fuel : Nat} {h : Context} {offset po : Int} :
      Makes
        (.registerNodeDependency fuel h offset "power-domains".toList po)
        (.registerCellsLoop fuel "#power-domain-cells".toList (.ok 0)
          offset (L.getpropByOffset dtb po) (atNode L dtb h offset).stringBuf
          lim (atNode L dtb h offset) 0)
  | single {fuel : Nat} {h : Context} {offset po : Int} {type : CStr} :
      type ≠ "clocks".toList → type ≠ "power-domains".toList →
      Makes (.registerNodeDependency fuel h offset type po)
        (.registerSingleDependency fuel (atNode L dtb h offset) offset
          (L.getpropByOffset dtb po) (atNode L dtb h offset).stringBuf)
  | cell {fuel n : Nat} {h : Context} {cellsProp fromPath : CStr}
      {absent : Except Fault Int} {offset done : Int} {data : List UInt8}
      {phandle : UInt32} {cells : Int} :
      done < data.length → 0 ≤ done →
      fdt32Ld (data.drop done.toNat) = .ok phandle →
      cellsOf L dtb cellsProp absent phandle = .ok cells →
      Makes (.registerCellsLoop fuel cellsProp absent offset data fromPath
          (n + 1) h done)
        (.registerSingleDependency fuel h offset (data.drop done.toNat)
          fromPath)
  | nextCell {fuel n : Nat} {h h' : Context} {cellsProp fromPath : CStr}
      {absent : Except Fault Int} {offset done done' : Int}
      {data : List UInt8} {phandle : UInt32} {cells : Int} :
      done < data.length → 0 ≤ done →
      fdt32Ld (data.drop done.toNat) = .ok phandle →
      cellsOf L dtb cellsProp absent phandle = .ok cells →
      registerSingleDependency L dtb
          (registerNodeDependencies L dtb lim fuel) lim h offset
          (data.drop done.toNat) fromPath = .ok h' →
      advance done cells = .ok done' →
      Makes (.registerCellsLoop fuel cellsProp absent offset data fromPath
          (n + 1) h done)
        (.registerCellsLoop fuel cellsProp absent offset data fromPath n h'
          done')
  | keep {fuel : Nat} {h : Context} {offset : Int} {data : List UInt8}
      {fromPath path : CStr} {phandle : UInt32} {this : Dependency} :
      fdt32Ld data = .ok phandle →
      findDep h.depTable fromPath = some this →
      L.getPath dtb (L.nodeOffsetByPhandle dtb phandle) h.stringBuf
          maxFullPathLength = path →
      ¬(offset = L.nodeOffsetByPhandle dtb phandle
        ∨ this.toList.any fun d => d.toPath = path) →
      Makes (.registerSingleDependency fuel h offset data fromPath)
        (.keepNodeAndParents fuel lim (addTo h fromPath ⟨path, phandle⟩)
          h.rootOffset (L.nodeOffsetByPhandle dtb phandle))
  | follow {fuel : Nat} {h h' : Context} {offset : Int}
      {data : List UInt8} {fromPath path : CStr} {phandle : UInt32}
      {this : Dependency} {found : Bool} :
      fdt32Ld data = .ok phandle →
      findDep h.depTable fromPath = some this →
      L.getPath dtb (L.nodeOffsetByPhandle dtb phandle) h.stringBuf
          maxFullPathLength = path →
      ¬(offset = L.nodeOffsetByPhandle dtb phandle
        ∨ this.toList.any fun d => d.toPath = path) →
      keepNodeAndParents L dtb (registerNodeDependencies L dtb lim fuel) lim
          (addTo h fromPath ⟨path, phandle⟩) h.rootOffset
          (L.nodeOffsetByPhandle dtb phandle) = .ok (found, h') →
      Makes (.registerSingleDependency fuel h offset data fromPath)
        (.registerNodeDependencies fuel h'
          (L.nodeOffsetByPhandle dtb phandle))
  | search {fuel n : Nat} {h : Context} {offset target : Int} :
      target ≠ h.rootOffset → target ≠ offset →
      Makes (.keepNodeAndParents fuel (n + 1) h offset target)
        (.keepChildren fuel n h offset target (L.subnodes dtb offset))
  | child {fuel n : Nat} {h : Context} {offset target child : Int}
      {rest : List Int} {curr : CStr} :
      strcatChild h.stringBuf (L.getName dtb child) = .ok curr →
      Makes (.keepChildren fuel n h offset target (child :: rest))
        (.keepNodeAndParents fuel n { h with stringBuf := curr } child
          target)
  | nextChild {fuel n : Nat} {h h' : Context} {offset target child : Int}
      {rest : List Int} {curr : CStr} :
      strcatChild h.stringBuf (L.getName dtb child) = .ok curr →
      keepNodeAndParents L dtb (registerNodeDependencies L dtb lim fuel) n
          { h with stringBuf := curr } child target = .ok (false, h') →
      Makes (.keepChildren fuel n h offset target (child :: rest))
        (.keepChildren fuel n
          { h' with stringBuf := h'.stringBuf.take h.stringBuf.length }
          offset target rest)
  | enter {fuel n : Nat} {h h' : Context} {offset target child : Int}
      {rest : List Int} {curr : CStr} :
      strcatChild h.stringBuf (L.getName dtb child) = .ok curr →
      keepNodeAndParents L dtb (registerNodeDependencies L dtb lim fuel) n
          { h with stringBuf := curr } child target = .ok (true, h') →
      findDep (withChild h' curr offset).depTable curr = none →
      Makes (.keepChildren fuel n h offset target (child :: rest))
        (.registerNodeDependencies fuel (withChild h' curr offset) child)

/-- The calls that the run of a call makes, itself included. -/
abbrev Calls : Call → Call → Prop := Relation.ReflTransGen (Makes L dtb lim)

end Makes

-- ======================================================== the invariant

section Good

variable {L : Libfdt} (R : L.Reading) (b : L.Blob)

/-- Every node may be entered, and registered without an entry. -/
abbrev anyNode : Path → Prop := fun _ => True

/-- What holds of the context of every call: `register_node_dependencies`
can go deep enough. -/
structure Sane (bound : Nat) (h : Context) : Prop where
  consistent : Consistent R b anyNode h
  deep : absent R b h < bound

/-- The offset of a node, or of none that has properties. -/
def LeadsOn (o : Int) : Prop :=
  (∃ p ∈ (R.tree b).paths, o = R.off b p) ∨ L.propertyOffsets b o = []

/-- The list that is registered is that of `p`, which has the offset. -/
structure Owner (h : Context) (offset : Int) (fromPath : CStr) (p : Path) :
    Prop where
  mem : p ∈ (R.tree b).paths
  offset : offset = R.off b p
  path : fromPath = pathStr p
  dep : (findDep h.depTable (pathStr p)).isSome

/-- What holds of a call. -/
def Good : Call → Prop
  | .resolveLoop fuel _ h _ _ =>
      Sane R b fuel h ∧ ∀ e ∈ h.nodesTable, LeadsOn R b e.offset
  | .registerNodeDependencies fuel h offset =>
      Sane R b fuel h ∧ LeadsOn R b offset
  | .registerNodeDependency fuel h offset type pOffset =>
      Sane R b (fuel + 1) h
        ∧ ∃ p ∈ (R.tree b).paths, p ≠ [] ∧ offset = R.off b p
          ∧ pOffset ∈ L.propertyOffsets b (R.off b p)
          ∧ type = L.propertyName b pOffset ∧ type ∈ propsWithDep
  | .registerCellsLoop fuel cellsProp absentCells offset data fromPath _ h
      done =>
      Sane R b (fuel + 1) h ∧ (∃ p, Owner R b h offset fromPath p)
        ∧ ∃ (absentCount : Option Nat) (es : List (UInt32 × Nat))
          (d : Nat),
            done = d
            ∧ (∀ c, absentCount = some c → absentCells = .ok (c : Int))
            ∧ phandleList (cellCount (R.tree b) cellsProp absentCount)
              (data.drop d) = some es
            ∧ d + entriesSize es < 2 ^ 31
            ∧ ∀ e ∈ es, ∃ q, (R.tree b).byPhandle e.1 = some q
  | .registerSingleDependency fuel h offset data fromPath =>
      Sane R b (fuel + 1) h ∧ (∃ p, Owner R b h offset fromPath p)
        ∧ ∃ ph q, be32 data = some ph ∧ (R.tree b).byPhandle ph = some q
  | .keepNodeAndParents fuel n h offset target =>
      Sane R b fuel h
        ∧ ∃ P ∈ (R.tree b).paths, ∃ q ∈ (R.tree b).paths,
        offset = R.off b P ∧ target = R.off b q
          ∧ h.stringBuf = pathStr P ∧ DeepEnough R b P n
  | .keepChildren fuel n h offset target children =>
      Sane R b fuel h
        ∧ ∃ P ∈ (R.tree b).paths, ∃ q ∈ (R.tree b).paths,
        q ≠ [] ∧ offset = R.off b P ∧ target = R.off b q
          ∧ h.stringBuf = pathStr P ∧ DeepEnough R b P (n + 1)
          ∧ ∃ cs : List Path, (∀ c ∈ cs, c ∈ (R.tree b).children P)
            ∧ children = cs.map (R.off b)

variable {R b} {fuel lim n : Nat} {h h' : Context} {p q P : Path}

/-- The string buffer has no part in it. -/
theorem Sane.buf (hs : Sane R b n h) (s : CStr) :
    Sane R b n { h with stringBuf := s } :=
  ⟨hs.consistent.buf s, hs.deep⟩

/-- The tables stay in order while they grow. -/
theorem Sane.grows (hs : Sane R b n h) (hc : Consistent R b anyNode h')
    (hg : Grows R b anyNode anyNode P h h') : Sane R b n h' :=
  ⟨hc, Nat.lt_of_le_of_lt hg.absent_le hs.deep⟩

/-- An entry that belongs to a path still does. -/
theorem Owner.grows {offset : Int} {fromPath : CStr}
    (ho : Owner R b h offset fromPath p)
    (hg : Grows R b anyNode anyNode P h h') :
    Owner R b h' offset fromPath p :=
  ⟨ho.mem, ho.offset, ho.path, hg.deps _ ho.dep⟩

/-- The set of all nodes is closed, whatever the rules. -/
theorem closedSet_any (t : Tree) : ClosedSet t anyNode anyNode :=
  ⟨fun _ _ _ _ => trivial, fun _ _ _ _ _ _ => trivial⟩

/-- `register_node_dependencies` as the other functions see it. -/
theorem Input.registers_any (hI : Input R b) (hlim : Enough R b lim)
    (fuel : Nat) :
    Registers R b anyNode anyNode (registerNodeDependencies L b lim fuel)
      fuel :=
  hI.registers (closedSet_any _) hlim

/-- A call of it succeeds. -/
theorem Input.registerNodeDependencies_lead (hI : Input R b)
    (hlim : Enough R b lim) {o : Int} (hlead : LeadsOn R b o)
    (hs : Sane R b fuel h) :
    ∃ h', registerNodeDependencies L b lim fuel h o = .ok h'
      ∧ Consistent R b anyNode h' ∧ Grows R b anyNode anyNode [] h h' := by
  rcases hlead with ⟨p, hp, rfl⟩ | hnone
  · obtain ⟨h', hrun, hc, hg, -⟩ := hI.registers_any hlim fuel h p hp
      hs.consistent (fun _ => .inl trivial) hs.deep
    exact ⟨h', hrun, hc, hg⟩
  · have hpos := Nat.zero_lt_of_lt hs.deep
    exact ⟨h, registerNodeDependencies_none hnone hpos h, hs.consistent,
      Grows.refl h⟩

/-- The entries that are added carry the offsets of nodes. -/
theorem Grows.leadsOn (hw : (R.tree b).Wf)
    (hg : Grows R b anyNode anyNode P h h')
    (hall : ∀ e ∈ h.nodesTable, LeadsOn R b e.offset) :
    ∀ e ∈ h'.nodesTable, LeadsOn R b e.offset := by
  obtain ⟨new, hnew, -, hadd⟩ := hg.nodes
  intro e he
  rw [hnew] at he
  rcases List.mem_append.1 he with hold | hkept
  · exact hall e hold
  · obtain ⟨n, hn, rfl⟩ := List.mem_map.1 hkept
    exact .inl ⟨n.dropLast,
      hw.mem_above (hadd n hn).2.mem (List.dropLast_prefix n), rfl⟩

-- ------------------------------------------------- the calls of a body

/-- `resolve_all_dependencies`. -/
theorem Input.good_resolveLoop (hI : Input R b) (hlim : Enough R b lim)
    {i : Nat} {more : Bool} {c : Call}
    (hg : Good R b (.resolveLoop fuel n h i more))
    (hm : Makes L b lim (.resolveLoop fuel n h i more) c) : Good R b c := by
  obtain ⟨hs, hall⟩ := hg
  cases hm with
  | entry hel => exact ⟨hs, hall _ (List.mem_of_getElem? hel)⟩
  | nextEntry hel hrun =>
      obtain ⟨h₁, hrun₁, hc, hgrow⟩ :=
        hI.registerNodeDependencies_lead hlim
        (hall _ (List.mem_of_getElem? hel)) hs
      rw [hrun, Except.ok.injEq] at hrun₁
      subst hrun₁
      exact ⟨hs.grows hc hgrow, hgrow.leadsOn hI.ok.wf hall⟩

/-- One property of a node. -/
theorem Input.registerProperty_sane (hI : Input R b)
    (hlim : Enough R b lim) {po : Int} (hp : p ∈ (R.tree b).paths)
    (hp0 : p ≠ []) (hpo : po ∈ L.propertyOffsets b (R.off b p))
    (hs : Sane R b (fuel + 1) h)
    (hrun : registerProperty L b lim fuel (R.off b p) h po = .ok h') :
    Sane R b (fuel + 1) h' := by
  obtain ⟨h₁, hrun₁, hc, hg, -⟩ := hI.registerProperty_ok
    (hI.registers_any hlim fuel) (closedSet_any _) hlim hp hp0
    (.inr trivial) (.inl trivial) (hI.property_mem hp hpo) rfl rfl
    hs.consistent (Nat.le_of_lt_succ hs.deep)
  unfold registerProperty registerIfNamed at hrun
  rw [hrun₁, Except.ok.injEq] at hrun
  exact hrun ▸ hs.grows hc hg

/-- `register_node_dependencies`. -/
theorem Input.good_registerNodeDependencies (hI : Input R b)
    (hlim : Enough R b lim) {offset : Int} {c : Call}
    (hg : Good R b (.registerNodeDependencies fuel h offset))
    (hm : Makes L b lim (.registerNodeDependencies fuel h offset) c) :
    Good R b c := by
  obtain ⟨hs, hlead⟩ := hg
  cases hm with
  | @property fuel _ h₁ h₂ _ po before after deps deps' hroot hsplit hbefore
      hdeps hnames =>
      rcases hlead with ⟨p, hp, rfl⟩ | hnone
      · have hp0 : p ≠ [] := by
          intro heq
          rw [heq, hs.consistent.root] at hroot
          exact hroot rfl
        have hmem : ∀ x ∈ before,
            x ∈ L.propertyOffsets b (R.off b p) := by
          intro x hx
          rw [hsplit]
          exact List.mem_append_left _ hx
        have hs₁ : Sane R b (fuel + 1) h₁ :=
          (foldlM_ok (Sane R b (fuel + 1)) hs (fun s x hx s' hs hrun =>
            hI.registerProperty_sane hlim hp hp0 (hmem x hx) hs hrun)
            hbefore).1
        -- none of the names before is that of the property
        have hnd : (deps ++ L.propertyName b po :: deps').Nodup := by
          rw [← hdeps]
          decide
        have hnot : L.propertyName b po ∉ deps := by
          intro hin
          exact (List.nodup_append.1 hnd).2.2 _ hin _
            (List.mem_cons_self ..) rfl
        unfold registerIfNamed at hnames
        rw [foldlM_select _ _ (List.nodup_append.1 hnd).1, if_neg hnot,
          Except.ok.injEq] at hnames
        subst hnames
        refine ⟨hs₁, p, hp, hp0, rfl, ?_, rfl, ?_⟩
        · rw [hsplit]
          exact List.mem_append_right _ (List.mem_cons_self ..)
        · rw [hdeps]
          exact List.mem_append_right _ (List.mem_cons_self ..)
      · rw [hnone] at hsplit
        cases before with
        | nil => cases hsplit
        | cons _ _ => cases hsplit

/-- The path of a node is read, and copied as the key of its list. -/
theorem Input.atNode_eq (hI : Input R b) (hp : p ∈ (R.tree b).paths)
    (hp0 : p ≠ []) (h : Context) :
    atNode L b h (R.off b p) = withEntry h (pathStr p) := by
  unfold atNode
  rw [hI.getPath_eq hp, fullPath_of_ne hp0]

/-- Recording an entry does not write to the string buffer. -/
theorem withEntry_stringBuf (h : Context) (s : CStr) :
    (withEntry h s).stringBuf = s := by
  unfold withEntry
  split <;> rfl

/-- A call that has put a node of the tree into the buffer goes on with
tables in order. -/
theorem Input.atNode_sane (hI : Input R b) (hp : p ∈ (R.tree b).paths)
    (hp0 : p ≠ []) (hs : Sane R b n h) :
    Sane R b n (atNode L b h (R.off b p))
      ∧ Owner R b (atNode L b h (R.off b p)) (R.off b p)
          (atNode L b h (R.off b p)).stringBuf p := by
  rw [hI.atNode_eq hp hp0]
  refine ⟨?_, hp, rfl, withEntry_stringBuf h _, findDep_withEntry h _⟩
  exact hs.grows (hs.consistent.withDep hp hp0 (.inr trivial))
    (Grows.withDep h p)

/-- `register_node_dependency`. -/
theorem Input.good_registerNodeDependency (hI : Input R b)
    {offset pOffset : Int} {type : CStr} {c : Call}
    (hg : Good R b (.registerNodeDependency fuel h offset type pOffset))
    (hm : Makes L b lim
      (.registerNodeDependency fuel h offset type pOffset) c) :
    Good R b c := by
  obtain ⟨hs, p, hp, hp0, rfl, hpo, htype, hdep⟩ := hg
  obtain ⟨hs', howner⟩ := hI.atNode_sane hp hp0 hs
  obtain ⟨es, hes, hsize, hres⟩ :=
    hI.ok.resolves p hp hp0 _ (hI.property_mem hp hpo)
  cases hm with
  | clocks =>
      rw [propEntries_clocks htype.symm,
        ← List.drop_zero (l := Property.value _)] at hes
      refine ⟨hs', ⟨p, howner⟩, none, es, 0, rfl, ?_, hes, ?_, hres⟩
      · intro c hnone
        cases hnone
      · rwa [Nat.zero_add]
  | powerDomains =>
      rw [propEntries_powerDomains htype.symm,
        ← List.drop_zero (l := Property.value _)] at hes
      refine ⟨hs', ⟨p, howner⟩, some 0, es, 0, rfl, ?_, hes, ?_, hres⟩
      · intro c hzero
        cases hzero
        rfl
      · rwa [Nat.zero_add]
  | single hclk hpow =>
      rw [htype] at hclk hpow hdep
      rw [propEntries_single hclk hpow hdep] at hes
      obtain ⟨ph, hbe, rfl⟩ := Option.map_eq_some_iff.1 hes
      obtain ⟨q, hph⟩ := hres _ (List.mem_singleton_self _)
      exact ⟨hs', ⟨p, howner⟩, ph, q, hbe, hph⟩

/-- The cursor moves by the phandle and its cells; below 2 to the power of
31 nothing overflows. -/
theorem advance_eq {done c : Nat} (hlt : done + (4 + 4 * c) < 2 ^ 31) :
    advance (done : Int) (c : Int)
      = .ok ((done + (4 + 4 * c) : Nat) : Int) := by
  have hstep₁ : int32 ((c : Int) * 4) = .ok ((4 * c : Nat) : Int) :=
    int32_eq (by omega) (by omega)
  have hstep₂ : int32 (4 + ((4 * c : Nat) : Int))
      = .ok ((4 + 4 * c : Nat) : Int) := int32_eq (by omega) (by omega)
  have hstep₃ : int32 ((done : Int) + ((4 + 4 * c : Nat) : Int))
      = .ok ((done + (4 + 4 * c) : Nat) : Int) := int32_eq (by omega) hlt
  rw [advance, hstep₁, ok_bind, hstep₂, ok_bind, hstep₃]

/-- The number of cells is read off the target, or is what holds if the
property is absent. -/
theorem Input.cellsOf_eq (hI : Input R b) {cellsProp : CStr}
    {absentCells : Except Fault Int} {absentCount : Option Nat}
    (hab : ∀ c, absentCount = some c → absentCells = .ok (c : Int))
    {ph : UInt32} {c : Nat}
    (hcount : cellCount (R.tree b) cellsProp absentCount ph = some c)
    (hc : c < 2 ^ 31) (hph : (R.tree b).byPhandle ph = some q) :
    cellsOf L b cellsProp absentCells ph = .ok (c : Int) := by
  unfold cellsOf
  rw [hI.doc.nodeOffsetByPhandle_eq b ph q hI.ok.wf hI.ok.phandles hph]
  exact hI.cells_eq hab hcount hc hph

/-- What a call of `register_single_dependency` does. -/
theorem Input.single_sane (hI : Input R b) (hlim : Enough R b lim)
    {offset : Int} {data : List UInt8} {fromPath : CStr}
    (hg : Good R b (.registerSingleDependency fuel h offset data fromPath)) :
    ∃ h', registerSingleDependency L b
        (registerNodeDependencies L b lim fuel) lim h offset data fromPath
        = .ok h'
      ∧ Sane R b (fuel + 1) h' ∧ ∃ p, Owner R b h' offset fromPath p := by
  obtain ⟨hs, ⟨p, ho⟩, ph, q, hbe, hph⟩ := hg
  obtain ⟨hp, rfl, rfl, hdep⟩ := ho
  obtain ⟨h', hrun, hc, hgrow, -⟩ := hI.registerSingleDependency_ok
    (hI.registers_any hlim fuel) hp hbe hph (fun _ _ _ => trivial) hlim.deep
    hs.consistent hdep (Nat.le_of_lt_succ hs.deep)
  exact ⟨h', hrun, hs.grows hc hgrow, p, hp, rfl, rfl, hgrow.deps _ hdep⟩

/-- An entry of a list that is read. -/
theorem good_cell {cellsProp fromPath : CStr}
    {absentCells : Except Fault Int} {offset done : Int}
    {data : List UInt8}
    (hg : Good R b (.registerCellsLoop fuel cellsProp absentCells offset
      data fromPath n h done)) (hlt : done < data.length) :
    Good R b (.registerSingleDependency fuel h offset
      (data.drop done.toNat) fromPath) := by
  obtain ⟨hs, howner, absentCount, es, d, rfl, -, hes, -, hres⟩ := hg
  refine ⟨hs, howner, ?_⟩
  rw [Int.toNat_natCast]
  cases es with
  | nil =>
      have hend := List.drop_eq_nil_iff.1 (phandleList_nil hes)
      omega
  | cons e es =>
      obtain ⟨-, hbe, -, -⟩ := phandleList_cons hes
      obtain ⟨q, hph⟩ := hres e (List.mem_cons_self ..)
      exact ⟨e.1, q, hbe, hph⟩

/-- The loop over a list. -/
theorem Input.good_registerCellsLoop (hI : Input R b)
    (hlim : Enough R b lim) {cellsProp fromPath : CStr}
    {absentCells : Except Fault Int} {offset done : Int}
    {data : List UInt8} {c : Call}
    (hg : Good R b (.registerCellsLoop fuel cellsProp absentCells offset
      data fromPath n h done))
    (hm : Makes L b lim (.registerCellsLoop fuel cellsProp absentCells
      offset data fromPath n h done) c) : Good R b c := by
  cases hm with
  | cell hlt _ _ _ => exact good_cell hg hlt
  | nextCell hlt _ hword hcells hrun hadv =>
      obtain ⟨h₁, hrun₁, hs₁, howner₁⟩ := hI.single_sane hlim
        (good_cell hg hlt)
      rw [hrun, Except.ok.injEq] at hrun₁
      subst hrun₁
      obtain ⟨-, -, absentCount, es, d, rfl, hab, hes, hsize, hres⟩ := hg
      rw [Int.toNat_natCast] at hword
      cases es with
      | nil =>
          have hend := List.drop_eq_nil_iff.1 (phandleList_nil hes)
          omega
      | cons e es =>
          obtain ⟨-, hbe, hcount, hrest⟩ := phandleList_cons hes
          rw [List.drop_drop] at hrest
          rw [entriesSize_cons] at hsize
          rw [fdt32Ld, hbe, Except.ok.injEq] at hword
          subst hword
          obtain ⟨q, hph⟩ := hres e (List.mem_cons_self ..)
          rw [hI.cellsOf_eq hab hcount (by omega) hph, Except.ok.injEq]
            at hcells
          subst hcells
          rw [advance_eq (by omega), Except.ok.injEq] at hadv
          exact ⟨hs₁, howner₁, absentCount, es, _, hadv.symm, hab, hrest,
            by omega, fun x hx => hres x (List.mem_cons_of_mem e hx)⟩

/-- A target that is not recorded yet: it is recorded, and the search for
it starts with nothing in `string_buf`. -/
theorem Input.addTarget_sane (hI : Input R b) {offset : Int}
    {fromPath path : CStr} {ph : UInt32} {this : Dependency}
    (hs : Sane R b (fuel + 1) h) (ho : Owner R b h offset fromPath p)
    (hph : (R.tree b).byPhandle ph = some q)
    (hthis : findDep h.depTable fromPath = some this)
    (hpath : L.getPath b (R.off b q) h.stringBuf maxFullPathLength = path)
    (hnew : ¬(offset = R.off b q
      ∨ this.toList.any fun d => d.toPath = path)) :
    Sane R b fuel (addTo h fromPath ⟨path, ph⟩) := by
  obtain ⟨hp, rfl, rfl, hdep⟩ := ho
  have hq := byPhandle_mem hph
  rw [hI.getPath_eq hq] at hpath
  subst hpath
  have hnot : ¬recorded h p q := by
    intro hrec
    unfold recorded listed at hrec
    rw [hthis] at hrec
    exact hnew (.inr hrec)
  refine ⟨hs.consistent.addTarget p q ph, ?_⟩
  exact Nat.lt_of_lt_of_le (absent_addTarget hp hq hdep hnot ph)
    (Nat.le_of_lt_succ hs.deep)

/-- `register_single_dependency`. -/
theorem Input.good_registerSingleDependency (hI : Input R b)
    (hlim : Enough R b lim) {offset : Int} {data : List UInt8}
    {fromPath : CStr} {c : Call}
    (hg : Good R b (.registerSingleDependency fuel h offset data fromPath))
    (hm : Makes L b lim
      (.registerSingleDependency fuel h offset data fromPath) c) :
    Good R b c := by
  obtain ⟨hs, ⟨p, ho⟩, ph, q, hbe, hph⟩ := hg
  have hq := byPhandle_mem hph
  have hoff :=
    hI.doc.nodeOffsetByPhandle_eq b ph q hI.ok.wf hI.ok.phandles hph
  cases hm with
  | @keep _ _ _ _ _ path phandle this hword hthis hpath hnew =>
      rw [fdt32Ld, hbe, Except.ok.injEq] at hword
      subst hword
      rw [hoff] at hpath hnew ⊢
      have hs₁ := hI.addTarget_sane hs ho hph hthis hpath hnew
      exact ⟨hs₁, [], hI.root_mem, q, hq, hs.consistent.root, rfl, rfl,
        hlim.deep⟩
  | @follow _ _ h₁ _ _ _ path phandle this found hword hthis hpath hnew
      hrun =>
      rw [fdt32Ld, hbe, Except.ok.injEq] at hword
      subst hword
      rw [hoff] at hpath hnew hrun ⊢
      have hs₁ := hI.addTarget_sane hs ho hph hthis hpath hnew
      obtain ⟨found', h₂, hkeep, -, hc₂, hg₂, -⟩ := hI.keep_root
        (hI.registers_any hlim fuel) hq (fun _ _ => trivial) hlim.deep
        hs₁.consistent hs₁.deep rfl
      have hkeep := hrun.symm.trans hkeep
      rw [Except.ok.injEq, Prod.mk.injEq] at hkeep
      obtain ⟨-, rfl⟩ := hkeep
      exact ⟨hs₁.grows hc₂ hg₂, .inl ⟨q, hq, rfl⟩⟩

/-- `keep_node_and_parents`. -/
theorem Input.good_keepNodeAndParents (hI : Input R b) {offset target : Int}
    {c : Call} (hg : Good R b (.keepNodeAndParents fuel n h offset target))
    (hm : Makes L b lim (.keepNodeAndParents fuel n h offset target) c) :
    Good R b c := by
  obtain ⟨hs, P, hP, q, hq, rfl, rfl, hbuf, hd⟩ := hg
  cases hm with
  | search hroot hne =>
      have hq0 : q ≠ [] := by
        intro heq
        rw [heq, hs.consistent.root] at hroot
        exact hroot rfl
      exact ⟨hs, P, hP, q, hq, hq0, rfl, rfl, hbuf, hd, _, fun c hc => hc,
        hI.doc.subnodes_eq b P hI.ok.wf hP⟩

/-- The search below a child: it finds the target if the child is on the
way, and otherwise leaves everything as it was. -/
theorem Input.child_search (hI : Input R b) (hlim : Enough R b lim)
    {m : CStr} (hs : Sane R b fuel h) (hc : P ++ [m] ∈ (R.tree b).paths)
    (hq : q ∈ (R.tree b).paths) (hq0 : q ≠ [])
    (hd : DeepEnough R b (P ++ [m]) n) :
    ∃ found h', keepNodeAndParents L b
        (registerNodeDependencies L b lim fuel) n
        { h with stringBuf := pathStr (P ++ [m]) } (R.off b (P ++ [m]))
        (R.off b q) = .ok (found, h')
      ∧ Sane R b fuel h'
      ∧ (found = false →
        h' = { h with stringBuf := pathStr (P ++ [m]) }) := by
  by_cases hpre : P ++ [m] <+: q
  · obtain ⟨h', hrun, hc', hg', -⟩ := hI.keep_hit
      (hI.registers_any hlim fuel) hq hq0 (fun _ _ => trivial) hpre hd
      (hs.buf (pathStr (P ++ [m]))).consistent hs.deep rfl
    refine ⟨true, h', hrun, ?_, by simp⟩
    exact (hs.buf (pathStr (P ++ [m]))).grows hc' hg'
  · refine ⟨false, _, hI.keep_miss hq hq0 hc hpre hd hs.consistent.root rfl,
      hs.buf _, fun _ => rfl⟩

/-- The child has an entry then. -/
theorem Sane.withChild {m : CStr} (hs : Sane R b fuel h) :
    Sane R b fuel (withChild h (pathStr (P ++ [m])) (R.off b P)) := by
  have hentry : keptEntry R b (P ++ [m])
      = ⟨pathStr (P ++ [m]), R.off b P, 0, .keep⟩ := by
    unfold keptEntry
    rw [List.dropLast_concat]
  unfold Fdtgen.withChild
  split
  · rw [← hentry]
    exact ⟨hs.consistent.enter (P ++ [m]), hs.deep⟩
  · exact hs

/-- The loop over the children. -/
theorem Input.good_keepChildren (hI : Input R b) (hlim : Enough R b lim)
    {offset target : Int} {children : List Int} {c : Call}
    (hg : Good R b (.keepChildren fuel n h offset target children))
    (hm : Makes L b lim (.keepChildren fuel n h offset target children) c) :
    Good R b c := by
  obtain ⟨hs, P, hP, q, hq, hq0, rfl, rfl, hbuf, hd, cs, hcs, hchildren⟩ :=
    hg
  cases cs with
  | nil =>
      subst hchildren
      cases hm
  | cons x cs =>
      obtain ⟨hx, m, rfl⟩ := Tree.mem_children.1 (hcs x
        (List.mem_cons_self ..))
      subst hchildren
      obtain ⟨found, h₁, hrun₁, hs₁, hback⟩ :=
        hI.child_search (P := P) hlim hs hx hq hq0 (hd.child m)
      have hname := hI.readable.strcatChild_eq hx
      cases hm with
      | child hstr =>
          rw [hbuf, hname, Except.ok.injEq] at hstr
          subst hstr
          exact ⟨hs.buf _, P ++ [m], hx, q, hq, rfl, rfl, rfl, hd.child m⟩
      | nextChild hstr hrun =>
          rw [hbuf, hname, Except.ok.injEq] at hstr
          subst hstr
          rw [hrun₁, Except.ok.injEq, Prod.mk.injEq] at hrun
          obtain ⟨rfl, rfl⟩ := hrun
          rw [hback rfl, hbuf, take_pathStr]
          exact ⟨hs.buf _, P, hP, q, hq, hq0, rfl, rfl, rfl, hd, cs,
            fun d hd => hcs d (List.mem_cons_of_mem _ hd), rfl⟩
      | enter hstr hrun _ =>
          rw [hbuf, hname, Except.ok.injEq] at hstr
          subst hstr
          rw [hrun₁, Except.ok.injEq, Prod.mk.injEq] at hrun
          obtain ⟨-, rfl⟩ := hrun
          exact ⟨hs₁.withChild, .inl ⟨P ++ [m], hx, rfl⟩⟩

/-- Every call that a good call makes is good. -/
theorem Input.good_of_makes (hI : Input R b) (hlim : Enough R b lim)
    {a c : Call} (hg : Good R b a) (hm : Makes L b lim a c) :
    Good R b c := by
  cases a with
  | resolveLoop => exact hI.good_resolveLoop hlim hg hm
  | registerNodeDependencies =>
      exact hI.good_registerNodeDependencies hlim hg hm
  | registerNodeDependency => exact hI.good_registerNodeDependency hg hm
  | registerCellsLoop => exact hI.good_registerCellsLoop hlim hg hm
  | registerSingleDependency =>
      exact hI.good_registerSingleDependency hlim hg hm
  | keepNodeAndParents => exact hI.good_keepNodeAndParents hg hm
  | keepChildren => exact hI.good_keepChildren hlim hg hm

/-- So is every call of its run. -/
theorem Input.good_of_calls (hI : Input R b) (hlim : Enough R b lim)
    {a c : Call} (hg : Good R b a) (hcalls : Calls L b lim a c) :
    Good R b c := by
  induction hcalls with
  | refl => exact hg
  | tail _ hm ih => exact hI.good_of_makes hlim ih hm

end Good

-- ================================================== a run of the pass

section Run

variable {L : Libfdt} {R : L.Reading} {b : L.Blob} {h₀ h₁ h₂ : Context}
  {fuel : Nat}

/-- The keys of `nodes_table` are the paths of nodes. -/
def NamesPaths (t : Tree) (table : List PathNode) : Prop :=
  ∀ e ∈ table, ∃ p ∈ t.paths, e.name = fullPath p

/-- The keys of `dep_table` are the paths of nodes, and the list of a node
names targets of that node. -/
def ListsTargets (t : Tree) (table : List Dependency) : Prop :=
  ∀ d ∈ table, ∃ p ∈ t.paths, p ≠ [] ∧ d.fromPath = fullPath p
    ∧ ∀ x ∈ d.toList, IsTarget t p x

/-- The iteration over `nodes_table`, as `resolve_all_dependencies` starts
it. -/
def resolveCall (fuel : Nat) (h : Context) : Call :=
  .resolveLoop fuel fuel h 0 (decide (1 < h.nodesTable.length))

/-- A search for a target from the root, made in a run with nothing in
`string_buf`: it finds the target, and the way to it is in the table
then. -/
def FindsTargets (R : L.Reading) (b : L.Blob) (fuel : Nat) (a : Call) :
    Prop :=
  ∀ fuel' lim h target, Calls L b fuel a
      (.keepNodeAndParents fuel' lim h h.rootOffset target) →
    h.stringBuf = [] → target ≠ h.rootOffset →
    ∃ q ∈ (R.tree b).paths, target = R.off b q
      ∧ ∃ h', keepNodeAndParents L b
          (registerNodeDependencies L b fuel fuel') lim h h.rootOffset target
          = .ok (true, h')
        ∧ ∀ m, m <+: q → m ≠ [] → InTable h'.nodesTable m

/-- Every target that a good call looks for is found. -/
theorem Input.findsTargets (hI : Input R b) (hlim : Enough R b fuel)
    {a : Call} (hg : Good R b a) : FindsTargets R b fuel a := by
  intro fuel' lim h target hcalls hbuf hne
  obtain ⟨hs, P, hP, q, hq, hoff, rfl, hpath, hd⟩ :=
    hI.good_of_calls hlim hg hcalls
  have hP0 : P = [] := by
    apply hI.ok.wf.pathStr_injective hP hI.root_mem
    rw [← hpath, hbuf]
    rfl
  subst hP0
  obtain ⟨found, h', hrun, htrue, -, -, hcl⟩ := hI.keep_root
    (hI.registers_any hlim fuel') hq (fun _ _ => trivial) hd hs.consistent
    hs.deep hbuf
  have hq0 : q ≠ [] := by
    intro heq
    rw [heq, hs.consistent.root] at hne
    exact hne rfl
  rw [htrue hq0] at hrun
  exact ⟨q, hq, rfl, h', hrun, hcl⟩

/-- A table that lists its targets is one in which all of them are
recorded. -/
theorem ListsTargets.recorded (hd : ListsTargets (R.tree b) h₁.depTable)
    (hroot : h₁.rootOffset = R.off b [])
    (hleads : ∀ e ∈ h₁.nodesTable, LeadsOn R b e.offset) :
    Recorded R b h₁ := by
  refine ⟨hroot, hleads, ?_⟩
  intro d hmem
  obtain ⟨p, hp, hne, hfrom, hall⟩ := hd d hmem
  exact ⟨p, hp, hne, hfrom.trans (fullPath_of_ne hne), hall⟩

theorem Recorded.listsTargets (hr : Recorded R b h₂) :
    ListsTargets (R.tree b) h₂.depTable := by
  intro d hmem
  obtain ⟨p, hp, hne, hfrom, hall⟩ := hr.deps d hmem
  exact ⟨p, hp, hne, hfrom.trans (fullPath_of_ne hne).symm, hall⟩

/-- The table after the first pass, if every request names a node: each
entry names one, and its offset leads to a node or nowhere. -/
theorem Marked.named (hR : L.Refuses R) (hw : (R.tree b).Wf)
    {table table' : List PathNode}
    (hm : Marked R b (fun m => [] <+: m ∧ m ≠ []) table table')
    (hnd : (table.map PathNode.name).Nodup)
    (hnames : NamesPaths (R.tree b) table) {e : PathNode}
    (he : e ∈ table') :
    (∃ p ∈ (R.tree b).paths, e.name = fullPath p)
      ∧ LeadsOn R b e.offset
      ∧ Visited R b anyNode anyNode e := by
  obtain ⟨p, hp, hne, -, rfl⟩ | ⟨hstray, hold⟩ :=
    hm.mem_cases (fun p _ _ => single_of_nodup hnd _) he
  · have hoff : (markedEntry R b table p).offset = R.off b p :=
      markedEntry_offset p
    have hname : (markedEntry R b table p).name = pathStr p :=
      markedEntry_name p
    refine ⟨⟨p, hp, hname.trans (fullPath_of_ne hne).symm⟩, ?_, ?_⟩
    · exact .inl ⟨p, hp, hoff⟩
    · exact .inl ⟨p, hp, hne, trivial, hname, hoff⟩
  · have hlead : LeadsOn R b e.offset := by
      by_cases hex : ∃ p ∈ (R.tree b).paths, e.offset = R.off b p
      · exact .inl hex
      · refine .inr (hR.propertyOffsets_none b _ hw ?_)
        intro p hp heq
        exact hex ⟨p, hp, heq⟩
    refine ⟨hnames e hold, hlead, .inr ⟨hstray, ?_⟩⟩
    rcases hlead with ⟨p, hp, hoff⟩ | hnone
    · exact .inl ⟨p, hp, hoff, fun _ => trivial⟩
    · exact .inr hnone

/-- The keys that are added are paths of nodes. -/
theorem Grows.namesPaths {P : Path}
    (hg : Grows R b anyNode anyNode P h₁ h₂)
    (hnames : NamesPaths (R.tree b) h₁.nodesTable) :
    NamesPaths (R.tree b) h₂.nodesTable := by
  obtain ⟨new, hnew, -, hadd⟩ := hg.nodes
  intro e he
  rw [hnew] at he
  rcases List.mem_append.1 he with hold | hkept
  · exact hnames e hold
  · obtain ⟨n, hn, rfl⟩ := List.mem_map.1 hkept
    have ha := (hadd n hn).2
    exact ⟨n, ha.mem, (fullPath_of_ne ha.ne).symm⟩

/-- `string_buf` is shared by all the calls of `resolve_all_dependencies`,
and no table suffers from that: after `find_nodes_to_keep`, with every
request naming a node, both tables have paths of nodes as keys at the end,
each list names targets of its own node, and every search for a target
finds it and enters the way to it. -/
theorem resolve_keeps_tables (hL : L.Documented R) (hR : L.Refuses R)
    (hT : WellFormed (R.tree b)) (hroot : h₀.rootOffset = R.off b [])
    (hbuf : h₀.stringBuf = [])
    (hnd : (h₀.nodesTable.map PathNode.name).Nodup)
    (hnames : NamesPaths (R.tree b) h₀.nodesTable)
    (hlists : ListsTargets (R.tree b) h₀.depTable) :
    ∃ n, ∀ fuel, n ≤ fuel → ∃ found h₁ h₂,
      findNodesToKeep L b fuel h₀ (R.off b []) = .ok (found, h₁)
        ∧ resolveAllDependencies L b fuel h₁ = .ok h₂
        ∧ NamesPaths (R.tree b) h₂.nodesTable
        ∧ ListsTargets (R.tree b) h₂.depTable
        ∧ FindsTargets R b fuel (resolveCall fuel h₁) := by
  have hI : Input R b := ⟨hL, hT⟩
  refine ⟨generateBound (R.tree b) + h₀.nodesTable.length,
    fun fuel hfuel => ?_⟩
  have hlim : Enough R b fuel := by
    apply hI.enough
    unfold generateBound at hfuel
    omega
  obtain ⟨found, table, hfind, hm, -⟩ :=
    hI.readable.findNodesToKeep_ok hT.wf.root hlim.deep hbuf
  let h₁ : Context := { h₀ with nodesTable := table }
  have hm₁ : Marked R b (fun m => [] <+: m ∧ m ≠ []) h₀.nodesTable
      h₁.nodesTable := hm
  have habs : absent R b h₁ < fuel := by
    have hle := absent_le (R := R) (b := b) h₁
    unfold generateBound at hfuel
    omega
  have hlen : h₁.nodesTable.length + (R.tree b).length < fuel := by
    have hle := hm₁.length_le
    unfold generateBound walkBound maxFullPathLength at hfuel
    omega
  -- every entry of the table is a node of the tree, with its offset
  have hall := fun e (he : e ∈ h₁.nodesTable) =>
    hm₁.named hR hT.wf hnd hnames he
  have hrec : Recorded R b h₁ :=
    ListsTargets.recorded hlists hroot fun e he => (hall e he).2.1
  have hc : Consistent R b anyNode h₁ := by
    refine ⟨hroot, ?_⟩
    intro d hd
    obtain ⟨p, hp, hne, hfrom, -⟩ := hrec.deps d hd
    exact ⟨p, hp, hne, hfrom, .inr trivial⟩
  obtain ⟨h₂, hres, -, hg, -⟩ := hI.resolveAllDependencies_ok
    (closedSet_any _) hlim (fun e he => (hall e he).2.2) hc habs hlen
  refine ⟨found, h₁, h₂, hfind, hres, ?_, ?_, ?_⟩
  · exact hg.namesPaths fun e he => (hall e he).1
  · exact (hI.recorded_resolveLoop hrec hres).listsTargets
  · exact hI.findsTargets hlim ⟨⟨hc, habs⟩, fun e he =>
      (hall e he).2.1⟩

/-- The board's requests, in the context of a call. -/
def boardStart : Context :=
  { request (fun _ => 0) (fdtgenNewContext 1000) boardRequest with
    rootOffset := layoutReading.off board [] }

/-- The tables for the board. -/
theorem board_keeps_tables :
    ∃ n, ∀ fuel, n ≤ fuel → ∃ found h₁ h₂,
      findNodesToKeep layout board fuel boardStart
          (layoutReading.off board []) = .ok (found, h₁)
        ∧ resolveAllDependencies layout board fuel h₁ = .ok h₂
        ∧ NamesPaths board.tree h₂.nodesTable
        ∧ ListsTargets board.tree h₂.depTable
        ∧ FindsTargets layoutReading board fuel (resolveCall fuel h₁) := by
  refine resolve_keeps_tables (R := layoutReading) (b := board)
    layout_documented layout_refuses board_wellFormed rfl rfl ?_ ?_ ?_
  · decide
  · intro e he
    rw [List.mem_singleton.1 he]
    exact ⟨["uart".toList], by decide, by decide +kernel⟩
  · intro d hd
    cases hd

end Run

end ProjectsLibs.Fdtgen
