/-
`keep_node_and_parents`: below a node that is not on the way to the
target it changes nothing; on the way it enters every node from the
target up, and registers the dependencies of those that are new.

# The search

The function goes through the tree from a node down, with the path of the
node in a buffer, and returns whether the target is below. Both lemmas
are inductions on the depth limit of the recursion, and within a node on
its list of children. A child that is not on the way changes the buffer
and puts it back, so a search that fails leaves the context as it was
(`keep_miss`). The target is below one child only, since its path
continues that of the node; the children in front of that one are passed,
and those behind it are not looked at.

When the search comes back from the child on the way, the child is
entered into the table, if it is not there, and its dependencies are
registered. Nothing is assumed of that function but `Registers`, with the
fuel it has left; `Grows` is told that only nodes above are still to be
entered.
-/
import ProjectsLibs.Fdtgen.Proofs.Growth

namespace ProjectsLibs.Fdtgen

open Fdt

-- ================================================ keep_node_and_parents

section Keep

variable {L : Libfdt} {R : L.Reading} {b : L.Blob} {K seed : Path → Prop}
  {P : Path} {h : Context} {register : Register} {fuel : Nat}

theorem Input.root_mem (hI : Input R b) : [] ∈ (R.tree b).paths :=
  hI.ok.wf.root

variable {descend : Context → Int → Except Fault (Bool × Context)}
  {rest : List Int} {offset : Int}

/-- A child that is not on the way is passed. -/
theorem Input.keepChildren_skip (hI : Input R b) {n : CStr}
    (hn : P ++ [n] ∈ (R.tree b).paths) (hbuf : h.stringBuf = pathStr P)
    (hdesc : descend { h with stringBuf := pathStr (P ++ [n]) }
        (R.off b (P ++ [n]))
      = .ok (false, { h with stringBuf := pathStr (P ++ [n]) })) :
    keepChildren L b register descend offset h (R.off b (P ++ [n]) :: rest)
      = keepChildren L b register descend offset h rest := by
  have hback : { h with stringBuf := pathStr P } = h := by rw [← hbuf]
  rw [keepChildren, hbuf, hI.readable.strcatChild_eq hn]
  simp only [bind, Except.bind, hdesc, take_pathStr, hback]
  rfl

/-- Children that are not on the way are passed. -/
theorem Input.keepChildren_skips (hI : Input R b) {cs : List Path}
    (hcs : ∀ c ∈ cs, c ∈ (R.tree b).children P)
    (hbuf : h.stringBuf = pathStr P)
    (hdesc : ∀ c ∈ cs,
      descend { h with stringBuf := pathStr c } (R.off b c)
        = .ok (false, { h with stringBuf := pathStr c })) :
    keepChildren L b register descend offset h (cs.map (R.off b) ++ rest)
      = keepChildren L b register descend offset h rest := by
  induction cs with
  | nil => rfl
  | cons c cs ih =>
      have hcs' := fun d hd => hcs d (List.mem_cons_of_mem c hd)
      have hdesc' := fun d hd => hdesc d (List.mem_cons_of_mem c hd)
      have hfirst := hdesc c (List.mem_cons_self ..)
      obtain ⟨hc, n, rfl⟩ :=
        Tree.mem_children.1 (hcs c (List.mem_cons_self ..))
      rw [List.map_cons, List.cons_append,
        hI.keepChildren_skip hc hbuf hfirst]
      exact ih hcs' hdesc'

/-- The child on the way is entered, with its dependencies. -/
theorem Input.keepChildren_enter (hI : Input R b)
    (descend : Context → Int → Except Fault (Bool × Context))
    (hreg : Registers R b K seed register fuel) {n : CStr} {h₁ : Context}
    (hn : P ++ [n] ∈ (R.tree b).paths) (hKn : K (P ++ [n]))
    (hbuf : h.stringBuf = pathStr P)
    (hdesc : descend { h with stringBuf := pathStr (P ++ [n]) }
        (R.off b (P ++ [n])) = .ok (true, h₁))
    (hc : Consistent R b seed h₁) (habs : absent R b h₁ < fuel) :
    ∃ h', keepChildren L b register descend (R.off b P) h
        (R.off b (P ++ [n]) :: rest) = .ok (true, h')
      ∧ Consistent R b seed h' ∧ Grows R b K seed P h₁ h'
      ∧ InTable h'.nodesTable (P ++ [n]) := by
  rw [keepChildren, hbuf, hI.readable.strcatChild_eq hn]
  simp only [bind, Except.bind, hdesc]
  cases hfind : findNode h₁.nodesTable (pathStr (P ++ [n])) with
  | some e =>
      have hin : InTable h₁.nodesTable (P ++ [n]) := by
        unfold InTable
        rw [hfind]
        rfl
      cases hdep : findDep h₁.depTable (pathStr (P ++ [n])) with
      | some d =>
          exact ⟨_, rfl, hc.buf _, Grows.buf h₁ _, hin⟩
      | none =>
          obtain ⟨h₂, hr, hc₂, hg₂, -⟩ :=
            hreg h₁ _ hn hc (fun _ => .inr ⟨hin, hKn⟩) habs
          simp only [hr]
          refine ⟨_, rfl, hc₂.buf _, ?_, hg₂.inTable hin⟩
          exact hg₂.nested.trans_same (Grows.buf h₂ _)
  | none =>
      have hent := hc.enter (P ++ [n])
      have hin : InTable (h₁.nodesTable ++ [keptEntry R b (P ++ [n])])
          (P ++ [n]) := inTable_new (List.mem_singleton_self _) _
      have hentry : keptEntry R b (P ++ [n])
          = ⟨pathStr (P ++ [n]), R.off b P, 0, .keep⟩ := by
        unfold keptEntry
        rw [List.dropLast_concat]
      -- above the child there are only `P` and what is above it
      have habove : ∀ h' : Context, InTable h'.nodesTable (P ++ [n]) →
          ∀ m, m <+: P ++ [n] → m ≠ [] →
          InTable h'.nodesTable m ∨ m <+: P := by
        intro h' hin m hm _
        cases List.prefix_concat_iff.1 hm with
        | inl heq =>
            subst heq
            exact .inl hin
        | inr hP => exact .inr hP
      rw [← hentry]
      cases hdep : findDep h₁.depTable (pathStr (P ++ [n])) with
      | some d =>
          -- a seed, which the iteration registers
          have hseed := hc.seed_of_findDep hI.ok.wf hn hfind hdep
          refine ⟨_, rfl, hent.buf _, ?_, hin⟩
          refine (Grows.enter hfind (Grows.refl _) ?_).trans_same
            (Grows.buf _ _)
          exact ⟨hn, by simp, hKn, .inl hseed, habove _ hin⟩
      | none =>
          obtain ⟨h₂, hr, hc₂, hg₂, hd₂⟩ :=
            hreg _ _ hn hent (fun _ => .inr ⟨hin, hKn⟩) habs
          simp only [hr]
          refine ⟨_, rfl, hc₂.buf _, ?_, hg₂.inTable hin⟩
          refine (hg₂.enter hfind ?_).trans_same (Grows.buf h₂ _)
          exact ⟨hn, by simp, hKn, .inr (hd₂ (by simp)),
            habove _ (hg₂.inTable hin)⟩

variable {q : Path} {lim : Nat}

/-- Where the target is not below, nothing is kept. -/
theorem Input.keep_miss (hI : Input R b) (hq : q ∈ (R.tree b).paths)
    (hq0 : q ≠ []) (hP : P ∈ (R.tree b).paths) (hPq : ¬P <+: q)
    (hd : DeepEnough R b P lim) (hroot : h.rootOffset = R.off b [])
    (hbuf : h.stringBuf = pathStr P) :
    keepNodeAndParents L b register lim h (R.off b P) (R.off b q)
      = .ok (false, h) := by
  induction lim generalizing P h with
  | zero =>
      obtain ⟨lim', hlim⟩ := hd.pos hP
      cases hlim
  | succ lim ih =>
      have hne : R.off b q ≠ R.off b P := by
        intro heq
        rw [hI.readable.off_eq_iff hq hP] at heq
        exact hPq (heq ▸ List.prefix_rfl)
      rw [keepNodeAndParents, hroot,
        if_neg (by rwa [hI.readable.off_eq_iff hq hI.root_mem]), if_neg hne,
        hI.doc.subnodes_eq b P hI.ok.wf hP]
      rw [← List.append_nil (List.map _ _),
        hI.keepChildren_skips (fun c hc => hc) hbuf]
      · rfl
      · intro c hc
        obtain ⟨hmem, n, rfl⟩ := Tree.mem_children.1 hc
        refine ih hmem ?_ (hd.child n) hroot rfl
        intro hpre
        exact hPq ((List.prefix_append P [n]).trans hpre)

/-- Where the target is below, everything on the way to it is kept. -/
theorem Input.keep_hit (hI : Input R b)
    (hreg : Registers R b K seed register fuel) (hq : q ∈ (R.tree b).paths)
    (hq0 : q ≠ []) (hKq : ∀ m, m <+: q → K m) (hPq : P <+: q)
    (hd : DeepEnough R b P lim) (hc : Consistent R b seed h)
    (habs : absent R b h < fuel) (hbuf : h.stringBuf = pathStr P) :
    ∃ h', keepNodeAndParents L b register lim h (R.off b P) (R.off b q)
        = .ok (true, h')
      ∧ Consistent R b seed h' ∧ Grows R b K seed P h h'
      ∧ ∀ m, P <+: m → m ≠ P → m <+: q →
        InTable h'.nodesTable m := by
  induction lim generalizing P h with
  | zero =>
      obtain ⟨lim', hlim⟩ := hd.pos (hI.ok.wf.mem_above hq hPq)
      cases hlim
  | succ lim ih =>
      have hP := hI.ok.wf.mem_above hq hPq
      rw [keepNodeAndParents, hc.root,
        if_neg (by rwa [hI.readable.off_eq_iff hq hI.root_mem])]
      by_cases hqP : q = P
      · rw [if_pos (by rw [hqP])]
        refine ⟨h, rfl, hc, Grows.refl h, ?_⟩
        intro m hPm hne hmq
        exact absurd (hmq.eq_of_length_le (hqP ▸ hPm.length_le))
          (hqP ▸ hne)
      · rw [if_neg (by rwa [hI.readable.off_eq_iff hq hP]),
          hI.doc.subnodes_eq b P hI.ok.wf hP]
        obtain ⟨n, hnq⟩ := exists_child_above hPq (Ne.symm hqP)
        have hn := hI.ok.wf.mem_above hq hnq
        -- the children before the one on the way are passed
        obtain ⟨l₁, l₂, hsplit, hnl₁⟩ := List.eq_append_cons_of_mem
          (Tree.mem_children.2 ⟨hn, n, rfl⟩)
        have hl₁ : ∀ c ∈ l₁, c ∈ (R.tree b).children P := by
          intro c hcl
          rw [hsplit]
          exact List.mem_append_left _ hcl
        rw [hsplit, List.map_append, hI.keepChildren_skips hl₁ hbuf]
        · obtain ⟨h₁, hdesc, hc₁, hg₁, hin₁⟩ := ih hnq (hd.child n)
            (hc.buf (pathStr (P ++ [n]))) habs rfl
          have hg₁ := (Grows.buf h _).trans_same hg₁
          obtain ⟨h₂, hent, hc₂, hg₂, hin₂⟩ := hI.keepChildren_enter
            (fun h child => keepNodeAndParents L b register lim h child
              (R.off b q))
            hreg hn (hKq _ hnq) hbuf hdesc hc₁
            (Nat.lt_of_le_of_lt hg₁.absent_le habs)
          refine ⟨h₂, hent, hc₂, hg₁.trans hg₂ ?_, ?_⟩
          · intro m hm _
            cases List.prefix_concat_iff.1 hm with
            | inl heq => exact .inl (heq ▸ hin₂)
            | inr hmP => exact .inr hmP
          · intro m hPm hne hmq
            by_cases hmn : m = P ++ [n]
            · exact hmn ▸ hin₂
            · apply hg₂.inTable
              exact hin₁ m (child_above_of_above hnq hPm hne hmq) hmn hmq
        · intro c hcl
          obtain ⟨hcm, k, rfl⟩ := Tree.mem_children.1 (hl₁ c hcl)
          refine hI.keep_miss hq hq0 hcm ?_ (hd.child k) hc.root rfl
          intro hpre
          have heq : P ++ [k] = P ++ [n] := by
            apply (List.prefix_of_prefix_length_le hpre hnq ?_).eq_of_length
            · simp
            · simp
          exact hnl₁ (heq ▸ hcl)

end Keep

end ProjectsLibs.Fdtgen
