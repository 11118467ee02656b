/-
The table that requests leave: one entry for each path that was asked
for, with the flag of the last request for it.

# How requests are counted

A node may be asked for several times, with different flags, and the last
request decides. One request changes the entry of each of its nodes and
nothing else (`Asked`); that a second one overwrites the flag of the
first is `askedEntry_askedEntry`, and with it requests of lists are the
same as requests of the nodes one by one. The flag that counts is found
in the requests read backwards (`lastFlag`), so the induction over the
sequence adds requests at the front: a later request wins over the one
that is added.

The table has no duplicates throughout, which later proofs use to speak
of the entry for a path.
-/
import ProjectsLibs.Fdtgen.Proofs.Tables

namespace ProjectsLibs.Fdtgen

open Fdt

variable {junk : CStr → Int} {h : Context} {flag : DeviceFlag}

/-- What a request makes of the entry for `s`. -/
def askedEntry (junk : CStr → Int) (s : CStr) (flag : DeviceFlag)
    (old : Option PathNode) : PathNode :=
  { old.getD ⟨s, junk s, 0, flag⟩ with flag := flag }

/-- A request changes nothing but the table, and that for `nodes`. -/
structure Asked (junk : CStr → Int) (h : Context) (nodes : List CStr)
    (flag : DeviceFlag) (h' : Context) : Prop where
  context : h' = { h with nodesTable := h'.nodesTable }
  nodup : (h.nodesTable.map PathNode.name).Nodup →
    (h'.nodesTable.map PathNode.name).Nodup
  entry : ∀ s, findNode h'.nodesTable s
    = if s ∈ nodes then
        some (askedEntry junk s flag (findNode h.nodesTable s))
      else findNode h.nodesTable s

/-- The last of two requests decides. -/
theorem askedEntry_askedEntry (s : CStr) (flag' : DeviceFlag)
    (old : Option PathNode) :
    askedEntry junk s flag (some (askedEntry junk s flag' old))
      = askedEntry junk s flag old := by
  cases old <;> rfl

/-- A request for one node. -/
theorem asked_singleton (h : Context) (node : CStr) :
    Asked junk h [node] flag (initKeepNode junk h [node] flag) := by
  unfold initKeepNode
  rw [List.foldl_cons, List.foldl_nil]
  cases hf : findNode h.nodesTable node with
  | none =>
      refine ⟨rfl, fun hnd => nodup_add hnd hf, ?_⟩
      intro s
      show findNode (h.nodesTable ++ [⟨node, junk node, 0, flag⟩]) s = _
      rw [findNode_add hf]
      by_cases hs : s = node
      · subst hs
        rw [if_pos rfl, if_pos (List.mem_singleton_self _), hf]
        rfl
      · rw [if_neg hs, if_neg (by simpa using hs)]
  | some e =>
      refine ⟨rfl, ?_, ?_⟩
      · intro hnd
        rwa [updateNode_names (by intro e; rfl)]
      · intro s
        rw [findNode_updateNode (by intro e; rfl), hf]
        by_cases hs : s = node
        · subst hs
          simp [hf, askedEntry]
        · simp [hs]

/-- A request for a list is a request for each. -/
theorem asked_initKeepNode (h : Context) (nodes : List CStr) :
    Asked junk h nodes flag (initKeepNode junk h nodes flag) := by
  induction nodes generalizing h with
  | nil => exact ⟨rfl, fun hnd => hnd, by simp [initKeepNode]⟩
  | cons node nodes ih =>
      have hfirst : Asked junk h [node] flag _ := asked_singleton h node
      have hrest := ih (initKeepNode junk h [node] flag)
      have heq : initKeepNode junk h (node :: nodes) flag
          = initKeepNode junk (initKeepNode junk h [node] flag) nodes flag :=
        rfl
      rw [heq]
      refine ⟨?_, fun hnd => hrest.nodup (hfirst.nodup hnd), ?_⟩
      · rw [hrest.context, hfirst.context]
      · intro s
        rw [hrest.entry, hfirst.entry]
        by_cases hs : s = node
        · subst hs
          simp [askedEntry_askedEntry]
        · simp [hs]

-- ============================================================ sequences

/-- A later request for the same node counts. -/
theorem lastFlag_cons (r : DeviceFlag × List CStr)
    (reqs : List (DeviceFlag × List CStr)) (s : CStr) :
    lastFlag (r :: reqs) s
      = (lastFlag reqs s).or (if s ∈ r.2 then some r.1 else none) := by
  unfold lastFlag
  rw [List.reverse_cons, List.find?_append, List.find?_singleton]
  cases (reqs.reverse.find? fun r => s ∈ r.2) with
  | some r' => rfl
  | none =>
      by_cases hs : s ∈ r.2
      · simp [hs]
      · simp [hs]

/-- A node has a flag if it was asked for at all. -/
theorem lastFlag_isSome {reqs : List (DeviceFlag × List CStr)} {s : CStr} :
    (lastFlag reqs s).isSome ↔ ∃ r ∈ reqs, s ∈ r.2 := by
  unfold lastFlag
  rw [Option.isSome_map, List.find?_isSome]
  simp only [List.mem_reverse, decide_eq_true_eq]

/-- Requests are carried out one after the other. -/
theorem request_cons (h : Context) (r : DeviceFlag × List CStr)
    (reqs : List (DeviceFlag × List CStr)) :
    request junk h (r :: reqs)
      = request junk (initKeepNode junk h r.2 r.1) reqs := by
  obtain ⟨flag, nodes⟩ := r
  cases flag <;> rfl

/-- What requests leave in the table for `s`. -/
theorem findNode_request (h : Context)
    (reqs : List (DeviceFlag × List CStr)) (s : CStr) :
    findNode (request junk h reqs).nodesTable s
      = match lastFlag reqs s with
        | some flag => some (askedEntry junk s flag (findNode h.nodesTable s))
        | none => findNode h.nodesTable s := by
  induction reqs generalizing h with
  | nil => rfl
  | cons r reqs ih =>
      rw [request_cons, ih, (asked_initKeepNode h r.2).entry, lastFlag_cons]
      cases lastFlag reqs s with
      | some flag =>
          by_cases hs : s ∈ r.2
          · simp [hs, askedEntry_askedEntry]
          · simp [hs]
      | none =>
          by_cases hs : s ∈ r.2
          · simp [hs]
          · simp [hs]

/-- Requests change nothing but the table, and make no duplicates. -/
theorem request_context (h : Context)
    (reqs : List (DeviceFlag × List CStr))
    (hnd : (h.nodesTable.map PathNode.name).Nodup) :
    request junk h reqs
        = { h with nodesTable := (request junk h reqs).nodesTable }
      ∧ ((request junk h reqs).nodesTable.map PathNode.name).Nodup := by
  induction reqs generalizing h with
  | nil => exact ⟨rfl, hnd⟩
  | cons r reqs ih =>
      have hask : Asked junk h r.2 r.1 _ := asked_initKeepNode h r.2
      obtain ⟨hctx, hnd'⟩ := ih _ (hask.nodup hnd)
      rw [request_cons]
      refine ⟨?_, hnd'⟩
      rw [hctx, hask.context]

/-- The table after requests on a fresh context. -/
theorem findNode_request_new (bufsize : Nat)
    (reqs : List (DeviceFlag × List CStr)) (s : CStr) :
    findNode (request junk (fdtgenNewContext bufsize) reqs).nodesTable s
      = (lastFlag reqs s).map fun flag => ⟨s, junk s, 0, flag⟩ := by
  rw [findNode_request]
  cases lastFlag reqs s with
  | none => rfl
  | some flag => rfl

end ProjectsLibs.Fdtgen
