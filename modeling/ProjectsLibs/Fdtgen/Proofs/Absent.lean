/-
Requests for paths that name no node.

Such a request leaves an entry in `nodes_table` all the same, and as
`find_nodes_to_keep` never comes to its path, its offset stays what
`malloc` left there. `resolve_all_dependencies` registers the node at
that offset, if there is one. So the generated tree is the one without
these requests unless a node that a leftover offset leads to refers to a
node that nothing else asks for (`absent_ignored_iff`).

The entry of a request for "/" has no offset of its own either; it stays
in both runs that are compared, with whatever it was made with.

# How it is shown

Both runs are runs of Generate on contexts that are ready, and their
trees are the same exactly if the same nodes are asked for. The requests
that name nodes are the same in both, so the difference is in the seeds.
The closure with the seeds is within the closure without them if the
targets of the seeds are, which is the condition; the other inclusion
holds as the closure grows with its seeds. What `malloc` left is a
parameter of both runs, so the statement is about any such memory.
-/
import ProjectsLibs.Fdtgen.Proofs.Closure

namespace ProjectsLibs.Fdtgen

open Fdt Lib

-- ====================================================== without the rest

section Present

variable {t : Tree} {reqs : List (DeviceFlag × List CStr)} {p : Path}

/-- The path of a node. -/
def names (t : Tree) (s : CStr) : Bool := t.paths.any fun p => fullPath p = s

/-- The requests without the paths that name no node. -/
def presentOnly (t : Tree) (reqs : List (DeviceFlag × List CStr)) :
    List (DeviceFlag × List CStr) :=
  reqs.map fun r => (r.1, r.2.filter (names t))

/-- A path of the tree is named by the string that is asked for. -/
theorem names_pathStr (hp : p ∈ t.paths) (hne : p ≠ []) :
    names t (pathStr p) = true := by
  unfold names
  rw [List.any_eq_true]
  exact ⟨p, hp, by simp [fullPath_of_ne hne]⟩

/-- Leaving out what is not there does not change the flag of what is. -/
theorem lastFlag_presentOnly (hp : p ∈ t.paths) (hne : p ≠ []) :
    lastFlag (presentOnly t reqs) (pathStr p)
      = lastFlag reqs (pathStr p) := by
  have hnames := names_pathStr hp hne
  induction reqs with
  | nil => rfl
  | cons r reqs ih =>
      have hcons : presentOnly t (r :: reqs)
          = (r.1, r.2.filter (names t)) :: presentOnly t reqs := rfl
      rw [hcons, lastFlag_cons, lastFlag_cons, ih]
      simp only [List.mem_filter, hnames, and_true]

theorem requested_presentOnly (hp : p ∈ t.paths) (hne : p ≠ []) :
    Requested (presentOnly t reqs) p ↔ Requested reqs p := by
  unfold Requested
  rw [← lastFlag_isSome, ← lastFlag_isSome, lastFlag_presentOnly hp hne]

end Present

-- ======================================================= leftover offsets

section Leftover

variable {L : Libfdt} {R : L.Reading} {b ori : L.Blob}
  {reqs reqs' : List (DeviceFlag × List CStr)} {junk junk' : CStr → Int}
  {bufsize : Nat} {p : Path}

/-- The entry of a request holds the offset of the node at `p` by
accident: the path asked for is not that of a node below the root. -/
def Leftover (R : L.Reading) (b : L.Blob) (junk : CStr → Int)
    (reqs : List (DeviceFlag × List CStr)) (p : Path) : Prop :=
  p ∈ (R.tree b).paths ∧ p ≠ [] ∧ ∃ r ∈ reqs, ∃ s ∈ r.2,
    (∀ m ∈ (R.tree b).paths, m ≠ [] → s ≠ pathStr m)
      ∧ junk s = R.off b p

/-- What is kept for requests and the offsets they leave. -/
abbrev KeptWith (R : L.Reading) (b : L.Blob) (junk : CStr → Int)
    (reqs : List (DeviceFlag × List CStr)) : Path → Prop :=
  KeepFrom (R.tree b) (Requested reqs) (Leftover R b junk reqs)

/-- The entries of a fresh context are those of its requests. -/
theorem mem_request {e : PathNode} :
    e ∈ (request junk (fdtgenNewContext bufsize) reqs).nodesTable
      ↔ ∃ flag, lastFlag reqs e.name = some flag
        ∧ e = ⟨e.name, junk e.name, 0, flag⟩ := by
  have hnd : ((request junk (fdtgenNewContext bufsize)
      reqs).nodesTable.map PathNode.name).Nodup :=
    (request_context (fdtgenNewContext bufsize) reqs List.nodup_nil).2
  constructor
  · intro he
    have hfind := Single.findNode_eq he (single_of_nodup hnd _)
    rw [findNode_request_new, Option.map_eq_some_iff] at hfind
    obtain ⟨flag, hlast, heq⟩ := hfind
    exact ⟨flag, hlast, heq.symm⟩
  · rintro ⟨flag, hlast, heq⟩
    have hfind : findNode (request junk (fdtgenNewContext bufsize)
        reqs).nodesTable e.name = some e := by
      rw [findNode_request_new, hlast, Option.map_some, ← heq]
    exact List.mem_of_find?_eq_some hfind

/-- Entries whose offset was not set lead on from what memory held there. -/
theorem seed_request :
    Seed R b (request junk (fdtgenNewContext bufsize) reqs).nodesTable p
      ↔ Leftover R b junk reqs p := by
  unfold Seed Leftover
  refine and_congr_right fun _ => and_congr_right fun _ => ?_
  constructor
  · rintro ⟨e, he, hstray, hoff⟩
    obtain ⟨flag, hlast, heq⟩ := mem_request.1 he
    have hkey : (lastFlag reqs e.name).isSome := by
      rw [hlast]
      rfl
    obtain ⟨r, hr, hs⟩ := lastFlag_isSome.1 hkey
    refine ⟨r, hr, e.name, hs, hstray, ?_⟩
    rw [← hoff, heq]
  · rintro ⟨r, hr, s, hs, hstray, hoff⟩
    obtain ⟨flag, hlast⟩ := Option.isSome_iff_exists.1
      (lastFlag_isSome.2 ⟨r, hr, hs⟩)
    exact ⟨⟨s, junk s, 0, flag⟩, mem_request.2 ⟨flag, hlast, rfl⟩,
      hstray, hoff⟩

theorem inTable_request :
    InTable (request junk (fdtgenNewContext bufsize) reqs).nodesTable p
      ↔ Requested reqs p := by
  unfold InTable Requested
  rw [findNode_request_new, Option.isSome_map, lastFlag_isSome]

/-- What a fresh context asks for. -/
theorem asks_request :
    Asks R b (request junk (fdtgenNewContext bufsize) reqs).nodesTable p
      ↔ KeptWith R b junk reqs p := by
  constructor
  · refine KeepFrom.within ?_ ?_
    · intro p hp hin
      exact .request hp (inTable_request.1 hin)
    · intro p q hs hpq hedge
      exact .seed (seed_request.1 hs) hpq hedge
  · refine KeepFrom.within ?_ ?_
    · intro p hp hreq
      exact .request hp (inTable_request.2 hreq)
    · intro p q hs hpq hedge
      exact .seed (seed_request.2 hs) hpq hedge

/-- A fresh context is ready, whatever its entries were made with. -/
theorem Fresh.ready_any {h : Context} (hf : Fresh h)
    (hR : L.Refuses R) (hw : (R.tree b).Wf) : Ready R b h := by
  apply hf.ready
  intro e _ _
  by_cases hlead : ∃ p ∈ (R.tree b).paths, e.offset = R.off b p
  · exact .inl hlead
  · refine .inr (hR.propertyOffsets_none b e.offset hw ?_)
    intro p hp hoff
    exact hlead ⟨p, hp, hoff⟩

/-- Requests leave the size of the buffer alone. -/
theorem request_bufsize :
    (request junk (fdtgenNewContext bufsize) reqs).bufsize = bufsize := by
  rw [(request_context (fdtgenNewContext bufsize) reqs List.nodup_nil).1]
  rfl

/-- What a leftover offset of the first requests leads to is kept for the
second. -/
def LeftoversKept (R : L.Reading) (b : L.Blob) (junk : CStr → Int)
    (reqs : List (DeviceFlag × List CStr)) (junk' : CStr → Int)
    (reqs' : List (DeviceFlag × List CStr)) : Prop :=
  ∀ p q, Leftover R b junk reqs p → p ≠ q → Edge (R.tree b) p q →
    KeptWith R b junk' reqs' q

/-- If the second run keeps all that the first keeps, it keeps what the
leftover offsets of the first lead to. -/
theorem LeftoversKept.of_within
    (hle : ∀ q ∈ (R.tree b).paths, q ≠ [] → KeptWith R b junk reqs q →
      KeptWith R b junk' reqs' q) :
    LeftoversKept R b junk reqs junk' reqs' := by
  intro p q hlo hpq hedge
  by_cases hne : q = []
  · exact hne ▸ KeepFrom.root
  · exact hle q hedge.mem hne (.seed hlo hpq hedge)

/-- If the second run keeps what the leftover offsets of the first lead to,
it keeps all that the first keeps. -/
theorem LeftoversKept.within
    (hk : LeftoversKept R b junk reqs junk' reqs')
    (hreq : ∀ p ∈ (R.tree b).paths, p ≠ [] →
      (Requested reqs p ↔ Requested reqs' p))
    (hp : KeptWith R b junk reqs p) : KeptWith R b junk' reqs' p := by
  refine hp.within ?_ hk
  intro m hm hr
  by_cases hne : m = []
  · exact hne ▸ KeepFrom.root
  · exact .request hm ((hreq m hm hne).1 hr)

/-- The generated tree is the one without the requests for absent paths,
exactly if what the leftover offsets lead to is kept anyway: those of the
one run in the other. -/
theorem absent_ignored_iff (hL : L.Documented R) (hR : L.Refuses R)
    (hT : WellFormed (R.tree ori)) (hfits : BufferFits R ori bufsize) :
    ∃ n, ∀ fuel, n ≤ fuel → ∃ h dtb h' dtb',
      fdtgenGenerate L fuel
          (request junk (fdtgenNewContext bufsize) reqs) ori
        = .ok (0, h, dtb)
      ∧ fdtgenGenerate L fuel
          (request junk' (fdtgenNewContext bufsize)
            (presentOnly (R.tree ori) reqs)) ori
        = .ok (0, h', dtb')
      ∧ (R.tree dtb = R.tree dtb'
        ↔ LeftoversKept R (L.openInto ori bufsize).2 junk reqs
            junk' (presentOnly (R.tree ori) reqs)
          ∧ LeftoversKept R (L.openInto ori bufsize).2
              junk' (presentOnly (R.tree ori) reqs) junk reqs) := by
  obtain ⟨htree, hcap, hI, hfits'⟩ := opened hL hT hfits
  let b := (L.openInto ori bufsize).2
  let reqs' := presentOnly (R.tree ori) reqs
  let h₀ := request junk (fdtgenNewContext bufsize) reqs
  let g₀ := request junk' (fdtgenNewContext bufsize) reqs'
  have hready : Ready R b h₀ :=
    ((fresh_new bufsize).request reqs).ready_any hR hI.ok.wf
  have hready' : Ready R b g₀ :=
    ((fresh_new bufsize).request reqs').ready_any hR hI.ok.wf
  have hsize : h₀.bufsize = bufsize := request_bufsize
  have hsize' : g₀.bufsize = bufsize := request_bufsize
  -- both runs disable the same nodes, since the flags of the nodes that
  -- exist are the same
  have hdue : ∀ p ∈ (R.tree b).paths, p ≠ [] →
      due g₀.nodesTable p = due h₀.nodesTable p := by
    intro p hp hne
    rw [Bool.eq_iff_iff, due_request, due_request]
    unfold Disabled
    rw [lastFlag_presentOnly (htree ▸ hp) hne]
  have hreq : ∀ p ∈ (R.tree b).paths, p ≠ [] →
      (Requested reqs p ↔ Requested reqs' p) := by
    intro p hp hne
    exact (requested_presentOnly (htree ▸ hp) hne).symm
  refine ⟨generateBound (R.tree ori)
    + (h₀.nodesTable.length + g₀.nodesTable.length), ?_⟩
  intro fuel hfuel
  have hfuel₁ : generateBound (R.tree b) + h₀.nodesTable.length
      ≤ fuel := by
    rw [htree]
    omega
  -- both runs come to an end; their trees are the same if they keep the
  -- same nodes
  obtain ⟨h', dtb, g', dtb', hrun, hrun', -, -, hiff⟩ := hI.generateIn_two
    hready hready' (hcap.trans hsize.symm) (hsize ▸ hfits')
    (hsize'.trans hsize.symm) hdue hfuel₁ (by rw [htree]; omega)
  refine ⟨h', dtb, g', dtb', ?_, ?_, hiff.trans ?_⟩
  · rw [fdtgenGenerate_eq, request_bufsize]
    exact hrun
  · rw [fdtgenGenerate_eq, request_bufsize]
    exact hrun'
  · constructor
    · intro hasks
      refine ⟨.of_within ?_, .of_within ?_⟩
      · intro q hq hne hk
        exact asks_request.1 ((hasks q hq hne).2 (asks_request.2 hk))
      · intro q hq hne hk
        exact asks_request.1 ((hasks q hq hne).1 (asks_request.2 hk))
    · rintro ⟨hkept, hkept'⟩ p _ _
      rw [asks_request, asks_request]
      exact ⟨hkept'.within fun p hp hne => (hreq p hp hne).symm,
        hkept.within hreq⟩

end Leftover

-- ============================================================= a sample

/-- The interrupt controller is asked for, and a node that is not
there. -/
def absentRequest : List (DeviceFlag × List CStr) :=
  [(.keep, ["/intc".toList, "/nope".toList])]

/-- The theorem for the board, with some leftover offsets. -/
theorem board_absent :
    ∃ n, ∀ fuel, n ≤ fuel → ∃ h dtb h' dtb',
      fdtgenGenerate layout fuel
          (request (fun _ => 7) (fdtgenNewContext 1000) absentRequest) board
        = .ok (0, h, dtb)
      ∧ fdtgenGenerate layout fuel
          (request (fun _ => 9) (fdtgenNewContext 1000)
            (presentOnly board.tree absentRequest)) board
        = .ok (0, h', dtb')
      ∧ (dtb.tree = dtb'.tree
        ↔ LeftoversKept layoutReading (board.openInto 1000).2 (fun _ => 7)
            absentRequest (fun _ => 9)
            (presentOnly board.tree absentRequest)
          ∧ LeftoversKept layoutReading (board.openInto 1000).2
              (fun _ => 9) (presentOnly board.tree absentRequest)
              (fun _ => 7) absentRequest) :=
  absent_ignored_iff layout_documented layout_refuses board_wellFormed
    board_fits

/-- The nodes of the tree that a run has left in the buffer. -/
def generatedPaths : Except Fault (Int × Context × Blob) →
    Option (List Path)
  | .ok (0, _, dtb) => some dtb.tree.paths
  | _ => none

/-- The offset of the entry for the absent node happens to be that of the
device: the clock that the device refers to is kept, and is not without
that request. -/
theorem absent_keeps_clock :
    WellFormed board.tree ∧ BufferFits layoutReading board 1000
      ∧ presentOnly board.tree absentRequest = [(.keep, ["/intc".toList])]
      ∧ generatedPaths (fdtgenGenerate layout 6
          (request (fun _ => board.tree.offset ["uart".toList])
            (fdtgenNewContext 1000) absentRequest) board)
        = some [[], ["intc".toList], ["clk".toList]]
      ∧ generatedPaths (fdtgenGenerate layout 6
          (request (fun _ => board.tree.offset ["uart".toList])
            (fdtgenNewContext 1000)
            (presentOnly board.tree absentRequest)) board)
        = some [[], ["intc".toList]] := by
  refine ⟨board_wellFormed, board_fits, by decide, ?_, ?_⟩
  · decide +kernel
  · decide +kernel

end ProjectsLibs.Fdtgen
