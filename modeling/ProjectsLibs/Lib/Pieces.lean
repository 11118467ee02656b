/-
A list cut into pieces, one per key: `keys.flatMap piece`. What a user
needs when one piece changes is that all the others stay where they
are, and when the pieces are not empty, that there are no more keys
than elements.

# How it is used

In a state that owns several lists, a step changes one of them. The lists
are the pieces and their owners are the keys; what all of them together
satisfy (no duplicates, a permutation of everything there is) is said of
the cut. `exists_rest` takes the piece of one key out and leaves a rest
that does not depend on it, so a proof about the step only has to compare
the old piece with the new one. The other lemmas are consequences that
are needed when pieces are counted or told apart.
-/
import Mathlib.Data.List.Flatten
import Mathlib.Data.List.Nodup
import Mathlib.Data.List.Pairwise
import Mathlib.Data.List.Perm.Subperm
import Mathlib.Tactic.Common

namespace ProjectsLibs.Lib

variable {κ β : Type*} {keys keys' : List κ} {piece piece' : κ → List β}

/-- Changing the piece of one key leaves the rest of the cut alone. -/
theorem exists_rest [DecidableEq κ] {c : κ} (hc : c ∈ keys)
    (hnd : keys.Nodup) (heq : ∀ d, d ≠ c → piece' d = piece d) :
    ∃ rest, (keys.flatMap piece).Perm (piece c ++ rest)
      ∧ (keys.flatMap piece').Perm (piece' c ++ rest) := by
  have hperm := List.perm_cons_erase hc
  refine ⟨(keys.erase c).flatMap piece, hperm.flatMap_right piece, ?_⟩
  have hrest : (keys.erase c).flatMap piece'
      = (keys.erase c).flatMap piece := by
    refine List.flatMap_congr fun d hd => heq d ?_
    exact (hnd.mem_erase_iff.1 hd).1
  rw [← hrest]
  exact hperm.flatMap_right piece'

/-- Pieces of absent keys can change at will. -/
theorem flatMap_congr_of_notMem {c : κ} (hc : c ∉ keys)
    (heq : ∀ d, d ≠ c → piece' d = piece d) :
    keys.flatMap piece' = keys.flatMap piece :=
  List.flatMap_congr fun d hd => heq d fun e => hc (e ▸ hd)

/-- No more distinct keys with a piece than elements. -/
theorem length_le_length_flatMap (hnd : keys'.Nodup) (hsub : keys' ⊆ keys)
    (hne : ∀ c ∈ keys', piece c ≠ []) :
    keys'.length ≤ (keys.flatMap piece).length := by
  have hself : keys'.length ≤ (keys'.flatMap piece).length := by
    clear hnd hsub
    induction keys' with
    | nil => simp
    | cons c l ih =>
        have hc := List.length_pos_iff.2 (hne c (List.mem_cons_self ..))
        have hl := ih fun d hd => hne d (List.mem_cons_of_mem _ hd)
        simp only [List.length_cons, List.flatMap_cons, List.length_append]
        omega
  obtain ⟨l, hperm, hsl⟩ := hnd.subperm hsub
  calc keys'.length
      ≤ (keys'.flatMap piece).length := hself
    _ = (l.flatMap piece).length := (hperm.flatMap_right piece).length_eq.symm
    _ ≤ (keys.flatMap piece).length := (hsl.flatMap piece).length_le

/-- In a duplicate-free cut two different keys share no element. -/
theorem disjoint_pieces (hnd : (keys.flatMap piece).Nodup) {c d : κ}
    (hc : c ∈ keys) (hd : d ∈ keys) (hne : c ≠ d) {x : β}
    (hx : x ∈ piece c) : x ∉ piece d := by
  have hpair := (List.nodup_flatMap.1 hnd).2
  have : Std.Symm (Function.onFun List.Disjoint piece) :=
    ⟨fun _ _ h x hx hx' => h hx' hx⟩
  exact fun hx' => hpair.forall hc hd hne hx hx'

end ProjectsLibs.Lib
