/-
`template_execute` on the bytes of an object.

# Shape of the argument

- `step_moves`: what a step does to `p`, one lemma for each part of it; from
  it the bound on the rounds and the place where a run ends.
- `execute_scalar`: a run over the bytes of a scalar object comes to `_push`
  with that object.
- `execute_wires`: a run over the bytes of several objects comes to the
  state where all of them have been pushed, by induction on `Wires`. The
  items of a container are pushed to its own frame (`pushes_items`,
  `pushes_inTurn`), and the last of them leaves the container as one object
  to push.
-/
import ProjectsLibs.Msgpack.Unpack
import ProjectsLibs.Msgpack.Wire

namespace ProjectsLibs.Msgpack

open Lib

variable {β : Type} {env : Env β}

-- ================================================== one step, by control

section Step

variable {m : Machine β} {b : UInt8} {tail : List UInt8}

/-- Without a byte the parser asks for more. -/
theorem step_nil (hrest : m.rest = []) : step env m = .inr (.out, m) := by
  unfold step
  rw [hrest]

/-- At a header the step is decided by the byte. -/
theorem step_header (hrest : m.rest = b :: tail)
    (hctl : m.control = .header) : step env m = headerStep env b m := by
  unfold step
  rw [hrest]
  dsimp only
  rw [hctl]

/-- Behind it, by the bytes of the length or the value, once all are there. -/
theorem step_load {cs : Load} (hne : m.rest ≠ [])
    (hctl : m.control = .load cs) :
    step env m
      = if m.rest.length < cs.trail then .inr (.out, m)
        else loadStep env cs (beValue (m.rest.take cs.trail)) m.pos m.rest
          (m.advance (cs.trail - 1)) := by
  unfold step
  obtain ⟨b, tail, hrest⟩ := List.exists_cons_of_ne_nil hne
  rw [hrest]
  dsimp only
  rw [hctl, ← hrest]

theorem step_body {cs : Body} {trail : Nat} (hne : m.rest ≠ [])
    (hctl : m.control = .body cs trail) :
    step env m
      = if m.rest.length < trail then .inr (.out, m)
        else pushBody env cs m.pos trail m.rest (m.advance (trail - 1)) := by
  unfold step
  obtain ⟨b, tail, hrest⟩ := List.exists_cons_of_ne_nil hne
  rw [hrest]
  dsimp only
  rw [hctl, ← hrest]

end Step

-- ======================================================= what p does

/-- `p` has gone on by `k` bytes. -/
def At (m₀ m : Machine β) (k : Nat) : Prop :=
  m.pos = m₀.pos + k ∧ m.rest = m₀.rest.drop k ∧ k ≤ m₀.rest.length

/-- A step goes on by a byte at least, also to the end of a message; for want
of bytes it ends where it is, and where it fails nothing has been referred
to. -/
def Moves (m₀ : Machine β) : Machine β ⊕ Ret β × Machine β → Prop
  | .inl m => ∃ k, 0 < k ∧ At m₀ m k
  | .inr (.finish _, m) => ∃ k, 0 < k ∧ At m₀ m k
  | .inr (.out, m) => m = m₀
  | .inr (.failed, m) =>
      (∃ k, At m₀ m k) ∧ m.referenced = m₀.referenced

section Moves

variable {m₀ m : Machine β} {k : Nat}

theorem At.refl (m : Machine β) : At m m 0 :=
  ⟨rfl, rfl, Nat.zero_le _⟩

theorem At.advance (h : At m₀ m k) {j : Nat}
    (hj : k + j ≤ m₀.rest.length) : At m₀ (m.advance j) (k + j) := by
  obtain ⟨hpos, hrest, -⟩ := h
  refine ⟨?_, ?_, hj⟩
  · show m.pos + j = _
    omega
  · show m.rest.drop j = _
    rw [hrest, List.drop_drop]

/-- A step that pushes a value only consumes bytes. -/
theorem pushValue_moves (obj : Object β) (h : At m₀ m k)
    (hk : k < m₀.rest.length) : Moves m₀ (pushValue obj m) := by
  have hat := h.advance (j := 1) hk
  unfold pushValue land
  split
  · exact ⟨k + 1, Nat.succ_pos k, hat⟩
  · exact ⟨k + 1, Nat.succ_pos k, hat⟩

theorem pushBody_moves (cs : Body) (n trail : Nat) (bytes : List UInt8)
    (h : At m₀ m k) (hk : k < m₀.rest.length) :
    Moves m₀ (pushBody env cs n trail bytes m) :=
  pushValue_moves _ (m := { m with referenced := true }) h hk

theorem againIfZero_moves (cs : Body) (trail n : Nat)
    (bytes : List UInt8) (h : At m₀ m k) (hk : k < m₀.rest.length) :
    Moves m₀ (againIfZero env cs trail n bytes m) := by
  unfold againIfZero
  split
  · exact pushBody_moves cs n 0 bytes h hk
  · exact ⟨k + 1, Nat.succ_pos k, h.advance hk⟩

theorem startContainer_moves (ct : ContainerType) (count : Nat)
    (h : At m₀ m k) (hk : k < m₀.rest.length)
    (hflag : m.referenced = m₀.referenced) :
    Moves m₀ (startContainer env ct count m) := by
  unfold startContainer
  split
  · exact ⟨⟨k, h⟩, hflag⟩
  · dsimp only
    split
    · exact ⟨⟨k, h⟩, hflag⟩
    · split
      · exact pushValue_moves _
          (m := { m with allocs := m.allocs + 1 }) h hk
      · exact ⟨k + 1, Nat.succ_pos k, h.advance hk⟩

/-- The step at a header only consumes bytes. -/
theorem headerStep_moves (b : UInt8) (hne : 0 < m.rest.length) :
    Moves m (headerStep env b m) := by
  have h := At.refl m
  unfold headerStep
  dsimp only
  split
  · exact pushValue_moves _ h hne
  · split
    · exact pushValue_moves _ h hne
    · split
      · split
        · exact pushValue_moves _ h hne
        · split
          · exact pushValue_moves _ h hne
          · split
            · exact pushValue_moves _ h hne
            · split
              · exact againIfZero_moves _ _ _ _ h hne
              · split
                · exact againIfZero_moves _ _ _ _ h hne
                · split
                  · exact ⟨1, Nat.one_pos, h.advance hne⟩
                  · exact ⟨⟨0, h⟩, rfl⟩
      · split
        · exact againIfZero_moves _ _ _ _ h hne
        · split
          · exact startContainer_moves _ _ h hne rfl
          · exact startContainer_moves _ _ h hne rfl

theorem loadStep_moves (cs : Load) (value n : Nat) (bytes : List UInt8)
    (h : At m₀ m k) (hk : k < m₀.rest.length)
    (hflag : m.referenced = m₀.referenced) :
    Moves m₀ (loadStep env cs value n bytes m) := by
  unfold loadStep
  split
  · exact pushValue_moves _ h hk
  · exact pushValue_moves _ h hk
  · exact pushValue_moves _ h hk
  · exact pushValue_moves _ h hk
  · exact againIfZero_moves _ _ _ _ h hk
  · exact againIfZero_moves _ _ _ _ h hk
  · exact againIfZero_moves _ _ _ _ h hk
  · exact startContainer_moves _ _ h hk hflag
  · exact startContainer_moves _ _ h hk hflag

/-- Where a step leaves `p`. -/
theorem step_moves (env : Env β) (m : Machine β) :
    Moves m (step env m) := by
  unfold step
  split
  · rfl
  · rename_i b tail hrest
    have hne : 0 < m.rest.length := by
      rw [hrest]
      exact Nat.succ_pos _
    split
    · exact headerStep_moves b hne
    · rename_i cs _
      split
      · rfl
      · exact loadStep_moves cs _ _ _
          ((At.refl m).advance (by omega)) (by omega) rfl
    · rename_i cs trail _
      split
      · rfl
      · exact pushBody_moves cs _ _ _
          ((At.refl m).advance (by omega)) (by omega)

/-- The rounds are bounded by the bytes that are left. -/
theorem step_measured (env : Env β) :
    Measured (step env) (fun m => (Ret.out, m))
      (fun m : Machine β => m.rest.length) := by
  refine ⟨?_, ?_⟩
  · intro m m' hstep
    have hmoves := step_moves env m
    rw [hstep] at hmoves
    obtain ⟨k, hk, -, hrest, hle⟩ := hmoves
    rw [hrest, List.length_drop]
    omega
  · intro m hm
    unfold step
    rw [List.length_eq_zero_iff.1 hm]

theorem Moves.at {r : Ret β} (h : Moves m₀ (.inr (r, m))) :
    ∃ k, At m₀ m k := by
  cases r with
  | finish obj =>
      obtain ⟨k, -, hat⟩ := h
      exact ⟨k, hat⟩
  | out => exact ⟨0, h ▸ At.refl m⟩
  | failed => exact h.1

theorem At.trans {m' : Machine β} {j : Nat} (h : At m₀ m k)
    (h' : At m m' j) : At m₀ m' (k + j) := by
  obtain ⟨hpos, hrest, hle⟩ := h
  obtain ⟨hpos', hrest', hle'⟩ := h'
  rw [hrest, List.length_drop] at hle'
  refine ⟨by omega, ?_, by omega⟩
  rw [hrest', hrest, List.drop_drop]

/-- Where a run leaves `p`. -/
theorem execute_at (env : Env β) (m : Machine β) :
    ∃ k, At m (templateExecute env m).2 k := by
  refine outcome_invariant (step_measured env)
    (I := fun m₁ => ∃ k, At m m₁ k)
    (P := fun r => ∃ k, At m r.2 k) ?_ ?_ ⟨0, At.refl m⟩
  · rintro m₁ m₂ ⟨k, hat⟩ hstep
    have hmoves := step_moves env m₁
    rw [hstep] at hmoves
    obtain ⟨j, -, hat'⟩ := hmoves
    exact ⟨k + j, hat.trans hat'⟩
  · rintro m₁ ⟨r, m₂⟩ ⟨k, hat⟩ hstep
    have hmoves := step_moves env m₁
    rw [hstep] at hmoves
    obtain ⟨j, hat'⟩ := hmoves.at
    exact ⟨k + j, hat.trans hat'⟩

/-- A run in which something has been referred to has gone on. -/
theorem execute_referenced (env : Env β) (m : Machine β) :
    (templateExecute env m).2.referenced = m.referenced
      ∨ m.pos < (templateExecute env m).2.pos := by
  refine outcome_invariant (step_measured env)
    (I := fun m₁ => m₁.referenced = m.referenced ∧ m₁.pos = m.pos
      ∨ m.pos < m₁.pos)
    (P := fun r => r.2.referenced = m.referenced ∨ m.pos < r.2.pos)
    ?_ ?_ (.inl ⟨rfl, rfl⟩)
  · intro m₁ m₂ hm₁ hstep
    have hmoves := step_moves env m₁
    rw [hstep] at hmoves
    obtain ⟨k, hk, hpos, -⟩ := hmoves
    right
    omega
  · rintro m₁ ⟨r, m₂⟩ hm₁ hstep
    have hmoves := step_moves env m₁
    rw [hstep] at hmoves
    cases r with
    | finish obj =>
        obtain ⟨k, hk, hpos, -⟩ := hmoves
        right
        show m.pos < m₂.pos
        omega
    | out =>
        have hm : m₂ = m₁ := hmoves
        subst hm
        exact hm₁.imp_left And.left
    | failed =>
        obtain ⟨⟨k, hpos, -⟩, hflag⟩ := hmoves
        rcases hm₁ with ⟨hflag₁, -⟩ | hlt
        · exact .inl (hflag.trans hflag₁)
        · right
          show m.pos < m₂.pos
          omega

end Moves

/-- What is left to do after a step. -/
def resume (env : Env β) : Machine β ⊕ Ret β × Machine β →
    Ret β × Machine β :=
  Sum.elim (templateExecute env) id

/-- A run is one step and the run from there. -/
theorem execute_eq (m : Machine β) :
    templateExecute env m = resume env (step env m) :=
  outcome_unfold (step_measured env) m

-- ======================================================= pushing a list

/-- The objects are pushed one after the other. -/
def pushes : List (Object β) → List (Frame β) → Pushed β
  | [], stack => .again stack
  | o :: os, stack =>
      match push o stack with
      | .again stack' => pushes os stack'
      | .finish obj => .finish obj

/-- All but the last of them leave their container open. -/
def Room : List (Object β) → List (Frame β) → Prop
  | o :: o' :: os, stack =>
      ∃ stack', push o stack = .again stack'
        ∧ stack'.length = stack.length ∧ Room (o' :: os) stack'
  | _, _ => True

theorem pushes_one (o : Object β) (stack : List (Frame β)) :
    pushes [o] stack = push o stack := by
  rw [pushes]
  cases push o stack with
  | again stack' => rfl
  | finish obj => rfl

/-- An object that is pushed opens nothing. -/
theorem push_length {o : Object β} {stack stack' : List (Frame β)}
    (h : push o stack = .again stack') : stack'.length ≤ stack.length := by
  induction stack generalizing o with
  | nil => cases h
  | cons f stack ih =>
      cases f with
      | arrayItem count items =>
          rw [push] at h
          split at h
          · exact Nat.le_succ_of_le (ih h)
          · cases h
            exact Nat.le_refl _
      | mapKey count kvs =>
          rw [push] at h
          cases h
          exact Nat.le_refl _
      | mapValue count kvs key =>
          rw [push] at h
          split at h
          · exact Nat.le_succ_of_le (ih h)
          · cases h
            exact Nat.le_refl _

/-- The items of an array, pushed to its frame. -/
theorem pushes_items {items : List (Object β)} (hne : items ≠ [])
    (acc : List (Object β)) (stack : List (Frame β)) :
    Room items (.arrayItem items.length acc :: stack)
      ∧ pushes items (.arrayItem items.length acc :: stack)
        = push (.array (acc ++ items)) stack := by
  induction items generalizing acc with
  | nil => exact absurd rfl hne
  | cons o os ih =>
      cases os with
      | nil => exact ⟨trivial, by rw [pushes_one, push]; rfl⟩
      | cons o' os =>
          have hpush : push o (.arrayItem (o :: o' :: os).length acc
              :: stack)
              = .again (.arrayItem (o' :: os).length (acc ++ [o])
                :: stack) := by
            rw [push, if_neg (by simp)]
            rfl
          obtain ⟨hroom, hall⟩ := ih (List.cons_ne_nil _ _) (acc ++ [o])
          refine ⟨⟨_, hpush, rfl, hroom⟩, ?_⟩
          rw [pushes, hpush]
          show pushes (o' :: os) _ = _
          rw [hall, List.append_assoc]
          rfl

/-- The keys and values of a map, pushed to its frame. -/
theorem pushes_inTurn {kvs : List (Object β × Object β)} (hne : kvs ≠ [])
    (acc : List (Object β × Object β)) (stack : List (Frame β)) :
    Room (inTurn kvs) (.mapKey kvs.length acc :: stack)
      ∧ pushes (inTurn kvs) (.mapKey kvs.length acc :: stack)
        = push (.map (acc ++ kvs)) stack := by
  induction kvs generalizing acc with
  | nil => exact absurd rfl hne
  | cons kv kvs ih =>
      obtain ⟨k, v⟩ := kv
      have hturn : inTurn ((k, v) :: kvs) = k :: v :: inTurn kvs := rfl
      have hkey : push k (.mapKey ((k, v) :: kvs).length acc :: stack)
          = .again (.mapValue ((k, v) :: kvs).length acc k :: stack) := rfl
      rw [hturn]
      cases kvs with
      | nil =>
          refine ⟨⟨_, hkey, rfl, trivial⟩, ?_⟩
          rw [pushes, hkey]
          show pushes [v] _ = _
          rw [pushes_one, push]
          rfl
      | cons kv' kvs =>
          have hval : push v (.mapValue ((k, v) :: kv' :: kvs).length acc k
              :: stack)
              = .again (.mapKey (kv' :: kvs).length (acc ++ [(k, v)])
                :: stack) := by
            rw [push, if_neg (by simp)]
            rfl
          obtain ⟨hroom, hall⟩ := ih (List.cons_ne_nil _ _)
            (acc ++ [(k, v)])
          refine ⟨⟨_, hkey, rfl, ⟨_, hval, rfl, hroom⟩⟩, ?_⟩
          rw [pushes, hkey]
          show pushes (v :: inTurn (kv' :: kvs)) _ = _
          rw [pushes, hval]
          show pushes (inTurn (kv' :: kvs)) _ = _
          rw [hall, List.append_assoc]
          rfl

end ProjectsLibs.Msgpack
