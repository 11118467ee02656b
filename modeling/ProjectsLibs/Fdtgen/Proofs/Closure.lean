/-
What a generated tree is: the dependency closure of the requests.

`generated_closure` says which nodes it has, in which order and with which
properties. It needs the numbers of cells that the lists of references use
to be sane: without that `fdtgen_generate` need not come to its end. A
power domain that asks for 0xffffffff cells is read as asking for -1, and
the loop over the list that names it stays where it is (`endless_walk`).

# The boards

`board` has a device that uses a clock, and a root that names an interrupt
controller. The samples and counterexamples of the modules after this one
are about it. `layout`, the implementation of libfdt that they run on,
keeps the tree itself in the blob.
-/
import ProjectsLibs.Fdt.Layout
import ProjectsLibs.Fdtgen.Proofs.Generate

namespace ProjectsLibs.Fdtgen

open Fdt Lib

-- ========================================================== the closure

section Closed

variable {L : Libfdt} {R : L.Reading} {ori : L.Blob}
  {reqs : List (DeviceFlag × List CStr)} {junk : CStr → Int}
  {bufsize : Nat}

/-- The generated tree is the dependency closure of the requests: the nodes
that they name, all above them and all that these refer to, in the order
and with the properties of the input. -/
theorem generated_closure (hL : L.Documented R)
    (hT : WellFormed (R.tree ori))
    (hreq : RequestsExist (R.tree ori) reqs)
    (hfits : BufferFits R ori bufsize) :
    ∃ n, ∀ fuel, n ≤ fuel → ∃ h' dtb,
      fdtgenGenerate L fuel
          (request junk (fdtgenNewContext bufsize) reqs) ori
        = .ok (0, h', dtb)
      ∧ Restricted (R.tree ori)
          (Keep (R.tree ori) (Requested reqs)) (Disabled reqs)
          (R.tree dtb) := by
  refine ⟨generateBound (R.tree ori) + (request junk
    (fdtgenNewContext bufsize) reqs).nodesTable.length, ?_⟩
  intro fuel hfuel
  exact generate_restricted hL hT hreq hfits hfuel

end Closed

-- ============================================================= a sample

/-- A board: an interrupt controller, a clock, and a device that uses the
clock. The root names the interrupt controller. -/
def board : Blob where
  tree :=
    [⟨[], [⟨"interrupt-parent".toList, [0, 0, 0, 1]⟩]⟩,
     ⟨["intc".toList], [⟨"phandle".toList, [0, 0, 0, 1]⟩]⟩,
     ⟨["clk".toList], [⟨"phandle".toList, [0, 0, 0, 2]⟩,
       ⟨"#clock-cells".toList, [0, 0, 0, 1]⟩]⟩,
     ⟨["uart".toList], [⟨"clocks".toList, [0, 0, 0, 2, 0, 0, 0, 5]⟩]⟩]
  strings := ["interrupt-parent".toList, "phandle".toList,
    "#clock-cells".toList, "clocks".toList]
  total := 500

/-- Phandles that can be told apart are unique. -/
theorem uniquePhandles_of {t : Tree}
    (h : ∀ x ∈ t, ∀ y ∈ t, phandleOf x.props = phandleOf y.props →
      phandleOf x.props = none ∨ x.path = y.path) : t.UniquePhandles := by
  intro x hx y hy ph hxp hyp
  cases h x hx y hy (hxp.trans hyp.symm) with
  | inl hnone =>
      rw [hxp] at hnone
      cases hnone
  | inr heq => exact heq

/-- The clocks of the sample: one entry, with one cell. -/
theorem board_clocks : propEntries board.tree
    ⟨"clocks".toList, [0, 0, 0, 2, 0, 0, 0, 5]⟩ = some [(2, 1)] := by
  rw [propEntries_clocks rfl]
  refine phandleList_of (by decide) rfl (by decide) ?_
  exact phandleList_empty _

theorem board_wellFormed : WellFormed board.tree := by
  refine ⟨?_, ?_, by decide, ?_⟩
  · exact Tree.Wf.of_checks (by decide) (by decide +kernel)
      (by decide) (by decide +kernel) (by decide +kernel)
  · exact uniquePhandles_of (by decide)
  · have hprops : ∀ p ∈ board.tree.paths, p ≠ [] →
        ∀ pr ∈ board.tree.propsAt p, pr.name ∉ propsWithDep
          ∨ pr = ⟨"clocks".toList, [0, 0, 0, 2, 0, 0, 0, 5]⟩ := by
      decide
    intro p hp hne pr hpr
    cases hprops p hp hne pr hpr with
    | inl hname =>
        exact ⟨[], propEntries_of_not_mem hname, by decide, by simp⟩
    | inr heq =>
        subst heq
        refine ⟨[(2, 1)], board_clocks, by decide, ?_⟩
        intro e he
        rw [List.mem_singleton.1 he]
        exact ⟨["clk".toList], by decide⟩

/-- The device is asked for, to be disabled. -/
def boardRequest : List (DeviceFlag × List CStr) :=
  [(.keepAndDisable, ["/uart".toList])]

/-- The sample request names a node of the tree. -/
theorem uart_exists (flag : DeviceFlag) :
    RequestsExist board.tree [(flag, ["/uart".toList])] := by
  intro r hr s hs
  rw [List.mem_singleton.1 hr] at hs
  rw [List.mem_singleton.1 hs]
  exact ⟨["uart".toList], by decide, by decide, by decide +kernel⟩

theorem boardRequest_exists : RequestsExist board.tree boardRequest :=
  uart_exists .keepAndDisable

theorem board_fits : BufferFits layoutReading board 1000 := by
  show board.used + board.tree.length * setSize _ _ ≤ 1000
  decide

/-- The theorem for the board. -/
theorem generated_closure_sample :
    ∃ n, ∀ fuel, n ≤ fuel → ∃ h' dtb,
      fdtgenGenerate layout fuel
          (request (fun _ => 0) (fdtgenNewContext 1000) boardRequest) board
        = .ok (0, h', dtb)
      ∧ Restricted board.tree
          (Keep board.tree (Requested boardRequest))
          (Disabled boardRequest) dtb.tree :=
  generated_closure layout_documented board_wellFormed boardRequest_exists
    board_fits

-- ===================================================== an endless walk

section Endless

variable {L : Libfdt} {b : L.Blob} {register : Register} {lim : Nat}

/-- A provider that asks for -1 cells: the loop stays where it is. -/
theorem registerCellsLoop_endless {cellsProp : CStr}
    {absentCells : Except Fault Int} {offset : Int} {data v : List UInt8}
    {fromPath : CStr} {ph : UInt32} (hlen : 0 < data.length)
    (hbe : be32 data = some ph)
    (hv : L.getprop b (L.nodeOffsetByPhandle b ph) cellsProp = some v)
    (hcells : be32 v = some 0xffffffff) (n : Nat) (h h' : Context) :
    registerCellsLoop L b register lim cellsProp absentCells offset data
      fromPath n h 0 ≠ .ok h' := by
  have hword : fdt32Ld data = .ok ph := by rw [fdt32Ld, hbe]
  have hminus : (fdt32Ld v).map toInt = .ok (-1) := by
    rw [fdt32Ld, hcells]
    decide
  induction n generalizing h with
  | zero =>
      intro hok
      cases hok
  | succ n ih =>
      rw [registerCellsLoop, if_pos (by omega), if_neg (by omega)]
      show (fdt32Ld data >>= _) ≠ _
      rw [hword, ok_bind]
      simp only [hv]
      rw [hminus, ok_bind]
      show (registerSingleDependency L b register lim h offset data fromPath
        >>= _) ≠ _
      cases registerSingleDependency L b register lim h offset data
          fromPath with
      | error e =>
          intro hok
          cases hok
      | ok h₁ => exact ih h₁

/-- The dependencies of a node in such a power domain are never
registered. -/
theorem registerNodeDependencies_endless {offset po : Int} {v : List UInt8}
    {ph : UInt32} {h : Context} (hoff : offset ≠ h.rootOffset)
    (hprops : L.propertyOffsets b offset = [po])
    (hname : L.propertyName b po = "power-domains".toList)
    (hlen : 0 < (L.getpropByOffset b po).length)
    (hbe : be32 (L.getpropByOffset b po) = some ph)
    (hv : L.getprop b (L.nodeOffsetByPhandle b ph)
      "#power-domain-cells".toList = some v)
    (hcells : be32 v = some 0xffffffff) (fuel : Nat) (h' : Context) :
    registerNodeDependencies L b lim fuel h offset ≠ .ok h' := by
  cases fuel with
  | zero =>
      intro hok
      cases hok
  | succ fuel =>
      unfold registerNodeDependencies
      rw [if_neg hoff, hprops, List.foldlM_cons,
        foldlM_select _ _ (by decide), hname, if_pos (by decide)]
      unfold registerNodeDependency
      rw [if_neg (by decide), if_pos rfl]
      unfold registerPowerDomainsDependency
      intro hok
      generalize hloop : registerCellsLoop L b
          (registerNodeDependencies L b lim fuel) lim
          "#power-domain-cells".toList (.ok 0) offset
          (L.getpropByOffset b po) _ lim _ 0 = res at hok
      cases res with
      | error e => cases hok
      | ok h₁ =>
          exact registerCellsLoop_endless hlen hbe hv hcells _ _ _ hloop

/-- A run that comes to its end has gone through the first two passes. -/
theorem generate_inv {fuel : Nat} {h : Context} {ori : L.Blob}
    {r : Int × Context × L.Blob} (hopen : (L.openInto ori h.bufsize).2 = b)
    (hcheck : L.checkFull b h.bufsize = 0)
    (hrun : fdtgenGenerate L fuel h ori = .ok r) :
    ∃ found h₁ h₂, findNodesToKeep L b fuel
        { h with rootOffset := L.pathOffset b ['/'], stringBuf := [] }
        (L.pathOffset b ['/']) = .ok (found, h₁)
      ∧ resolveAllDependencies L b fuel h₁ = .ok h₂ := by
  unfold fdtgenGenerate at hrun
  generalize L.openInto ori h.bufsize = res at hopen hrun
  obtain ⟨err, b'⟩ := res
  subst hopen
  have hrun : (if L.checkFull b' h.bufsize ≠ 0 then _ else _) = _ := hrun
  rw [if_neg (fun hne => hne hcheck)] at hrun
  obtain ⟨⟨found, h₁⟩, hfind, hrun⟩ := bind_eq_ok hrun
  obtain ⟨h₂, hres, -⟩ := bind_eq_ok hrun
  exact ⟨found, h₁, h₂, hfind, hres⟩

/-- The entry that the second pass visits first is registered. -/
theorem resolve_inv {fuel : Nat} {h h' : Context} {e : PathNode}
    {rest : List PathNode} (htable : h.nodesTable = e :: rest)
    (hrun : resolveAllDependencies L b fuel h = .ok h') :
    ∃ h₁, registerNodeDependencies L b fuel fuel h e.offset = .ok h₁ := by
  unfold resolveAllDependencies at hrun
  cases fuel with
  | zero => cases hrun
  | succ fuel =>
      unfold resolveLoop at hrun
      rw [htable] at hrun
      obtain ⟨h₁, hreg, -⟩ := bind_eq_ok hrun
      exact ⟨h₁, hreg⟩

/-- If no node that is wanted can be registered, no run comes to its
end. -/
theorem Readable.generate_endless {R : L.Reading} (hb : Readable R b)
    {requested : Path → Prop} {h₀ : Context} {ori : L.Blob} {fuel : Nat}
    (hs : Start R b requested h₀.nodesTable)
    (hopen : (L.openInto ori h₀.bufsize).2 = b)
    (hcheck : L.checkFull b h₀.bufsize = 0)
    (hdeep : DeepEnough R b [] fuel) {q : Path}
    (hq : q ∈ (R.tree b).paths) (hqreq : requested q)
    (hnever : ∀ p ∈ (R.tree b).paths, p ≠ [] →
      Wanted (R.tree b) h₀.nodesTable p → ∀ h h',
      h.rootOffset = R.off b [] →
      registerNodeDependencies L b fuel fuel h (R.off b p) ≠ .ok h')
    (r : Int × Context × L.Blob) :
    fdtgenGenerate L fuel h₀ ori ≠ .ok r := by
  intro hrun
  obtain ⟨found, h₁, h₂, hfind, hres⟩ := generate_inv hopen hcheck hrun
  rw [hb.doc.pathOffset_root b hb.wf] at hfind
  obtain ⟨found', table, hfind', hm, -⟩ := hb.findNodesToKeep_ok
    hb.wf.root hdeep
    (h := { h₀ with rootOffset := R.off b [], stringBuf := [] }) rfl
  rw [hfind', Except.ok.injEq, Prod.mk.injEq] at hfind
  have hh₁ := hfind.2
  subst hh₁
  -- the table is not empty, and its first entry is that of a wanted node
  cases htable : table with
  | nil =>
      have hin := hm.inTable (hs.requested q hq hqreq)
      rw [htable] at hin
      cases hin
  | cons e rest =>
      obtain ⟨h₃, hreg⟩ := resolve_inv htable hres
      obtain ⟨p, hp, hne, hwant, heq⟩ := hm.entry_of_mem hs.nodup hs.names
        (htable ▸ List.mem_cons_self ..)
      rw [heq, markedEntry_offset] at hreg
      exact hnever p hp hne hwant _ _ rfl hreg

end Endless

/-- A power domain that asks for 0xffffffff cells, and a device in it. -/
def endlessBoard : Blob where
  tree :=
    [⟨[], []⟩,
     ⟨["pd".toList], [⟨"phandle".toList, [0, 0, 0, 1]⟩,
       ⟨"#power-domain-cells".toList, [255, 255, 255, 255]⟩]⟩,
     ⟨["dev".toList], [⟨"power-domains".toList, [0, 0, 0, 1]⟩]⟩]
  strings := ["phandle".toList, "#power-domain-cells".toList,
    "power-domains".toList]
  total := 1000

/-- The device is asked for. -/
def endlessRequest : List (DeviceFlag × List CStr) :=
  [(.keep, ["/dev".toList])]

/-- The tree that makes the program run forever can be read. -/
theorem endlessBoard_readable : Readable layoutReading endlessBoard := by
  refine ⟨layout_documented, ?_, by decide⟩
  exact Tree.Wf.of_checks (by decide) (by decide +kernel)
    (by decide) (by decide +kernel) (by decide +kernel)

theorem endlessRequest_exists :
    RequestsExist endlessBoard.tree endlessRequest := by
  intro r hr s hs
  rw [List.mem_singleton.1 hr] at hs
  rw [List.mem_singleton.1 hs]
  exact ⟨["dev".toList], by decide, by decide, by decide +kernel⟩

/-- Registering the dependencies of the node never returns, whatever the
fuel: a count of cells below zero moves the cursor back. -/
theorem endless_register (lim fuel : Nat) (h h' : Context)
    (hroot : h.rootOffset = layoutReading.off endlessBoard []) :
    registerNodeDependencies layout endlessBoard lim fuel h
      (layoutReading.off endlessBoard ["dev".toList]) ≠ .ok h' := by
  have hne : layoutReading.off endlessBoard ["dev".toList]
      ≠ h.rootOffset := by
    rw [hroot]
    show (endlessBoard.tree.offset ["dev".toList] : Int)
      ≠ endlessBoard.tree.offset []
    decide
  have hprops : endlessBoard.propertyOffsets
      (endlessBoard.tree.offset ["dev".toList]) = [60] := by
    decide
  have hname : (endlessBoard.property 60).name
      = "power-domains".toList := by decide
  have hvalue : (endlessBoard.property 60).value = [0, 0, 0, 1] := by
    decide
  have hlen : 0 < (endlessBoard.property 60).value.length := by
    decide
  have hbe : be32 (endlessBoard.property 60).value = some 1 := by
    decide
  have hcells : endlessBoard.getprop
      (endlessBoard.offsetOf (endlessBoard.tree.byPhandle 1))
      "#power-domain-cells".toList = some [255, 255, 255, 255] := by
    decide
  exact registerNodeDependencies_endless hne hprops hname hlen hbe hcells
    (by decide) fuel h'

/-- The context for it, with the buffer size asked for. -/
theorem endlessRequest_context :
    (request (fun _ => 0) (fdtgenNewContext 1000) endlessRequest).bufsize
      = 1000 := by
  decide

/-- Only the device is wanted. -/
theorem endless_wanted {p : Path} (hp : p ≠ [])
    (hwant : Wanted endlessBoard.tree (request (fun _ => 0)
      (fdtgenNewContext 1000) endlessRequest).nodesTable p) :
    p = ["dev".toList] := by
  have hs : Start layoutReading endlessBoard (Requested endlessRequest) _ :=
    start_request endlessRequest_exists (fun _ => 0) 1000
  have hnames : ∀ r ∈ endlessBoard.tree.paths,
      pathStr r = "/dev".toList → r = ["dev".toList] := by decide
  obtain ⟨r, hr, hpr, hin⟩ := hwant
  obtain ⟨x, hx, hmem⟩ := hs.inTable r hr hin
  rw [List.mem_singleton.1 hx] at hmem
  have hdev := hnames r hr (List.mem_singleton.1 hmem)
  rw [hdev] at hpr
  cases List.prefix_cons_iff.1 hpr with
  | inl hnil => exact absurd hnil hp
  | inr hcons =>
      obtain ⟨m, hm, hpre⟩ := hcons
      rw [List.prefix_nil.1 hpre] at hm
      exact hm

/-- No run of `fdtgen_generate` comes to its end. -/
theorem endless_generate (fuel : Nat) (r : Int × Context × Blob) :
    fdtgenGenerate layout fuel (request (fun _ => 0)
      (fdtgenNewContext 1000) endlessRequest) endlessBoard ≠ .ok r := by
  have hb := endlessBoard_readable
  have hshort : fuel < 2 → fdtgenGenerate layout fuel (request (fun _ => 0)
      (fdtgenNewContext 1000) endlessRequest) endlessBoard ≠ .ok r := by
    intro hlt hrun
    have hnone : ∀ k < 2, ((fdtgenGenerate layout k (request (fun _ => 0)
        (fdtgenNewContext 1000) endlessRequest) endlessBoard).isOk)
        = false := by decide
    have hfalse := hnone fuel hlt
    rw [hrun] at hfalse
    cases hfalse
  by_cases hlt : fuel < 2
  · exact hshort hlt
  have hopen : (endlessBoard.openInto 1000).2 = endlessBoard := by
    decide
  have hcheck : endlessBoard.checkFull 1000 = 0 := by decide
  have hlen : ∀ p ∈ endlessBoard.tree.paths, p.length < 2 := by
    decide
  refine hb.generate_endless
    (start_request endlessRequest_exists (fun _ => 0) 1000) ?_ ?_ ?_
    (q := ["dev".toList]) ?_ ?_ ?_ r
  · rw [endlessRequest_context]
    exact hopen
  · rw [endlessRequest_context]
    exact hcheck
  · intro p hp _
    have hp2 := hlen p hp
    show p.length < 0 + fuel
    omega
  · show ["dev".toList] ∈ endlessBoard.tree.paths
    decide
  · exact ⟨_, List.mem_singleton.2 rfl, List.mem_singleton.2 rfl⟩
  · intro p _ hp hwant h h' hroot
    rw [endless_wanted hp hwant]
    exact endless_register fuel fuel h h' hroot

/-- The tree is one a board may have and the request is for a node of it,
but no run comes to its end. -/
theorem endless_walk :
    endlessBoard.tree.Wf ∧ endlessBoard.tree.UniquePhandles
      ∧ (∀ p ∈ endlessBoard.tree.paths,
          (pathStr p).length < maxFullPathLength)
      ∧ endlessBoard.tree.byPhandle 1 = some ["pd".toList]
      ∧ RequestsExist endlessBoard.tree endlessRequest
      ∧ BufferFits layoutReading endlessBoard 1000
      ∧ ∀ fuel r, fdtgenGenerate layout fuel (request (fun _ => 0)
          (fdtgenNewContext 1000) endlessRequest) endlessBoard ≠ .ok r := by
  have hb := endlessBoard_readable
  refine ⟨hb.wf, uniquePhandles_of (by decide), hb.path_lt,
    by decide, endlessRequest_exists, ?_, ?_⟩
  · show endlessBoard.used + endlessBoard.tree.length * setSize _ _ ≤ 1000
    decide
  · exact endless_generate

end ProjectsLibs.Fdtgen
