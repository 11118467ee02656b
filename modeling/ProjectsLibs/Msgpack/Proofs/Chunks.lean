/-
Runs of `template_execute` that do the same at another place, with other
bodies or with more bytes behind.

`Machine.via f d more flag` is a machine with bodies changed by `f`, its
position by `d`, and `more` behind its bytes. `step_via` says that a step
commutes with it, unless the step has too few bytes, and so does a run
(`execute_via`). What a run does with too few bytes it goes on with when the
others are there (`execute_via_more`): the bytes of a message may come in
pieces.

# What the map is used for

Three things are said with it. With more bytes behind, a run that was
complete is the same run, so a message does not depend on what follows
it. With another position and other bodies, the run of an unpacker in its
buffer is the run over the stream of all bytes, where bodies are places
in the stream. And a run that stops for lack of bytes goes on as if they
had been there, since a step that has too few leaves the machine as it
was. The proof goes through the parts of a step in the order of
Proofs/Bodies, each with one equation.
-/
import ProjectsLibs.Msgpack.Proofs.Unpack

namespace ProjectsLibs.Msgpack

open Lib

variable {β γ : Type}

-- =============================================================== the map

def Frame.mapBody (f : β → γ) : Frame β → Frame γ
  | .arrayItem count items => .arrayItem count (Object.mapItems f items)
  | .mapKey count kvs => .mapKey count (Object.mapKvs f kvs)
  | .mapValue count kvs key =>
      .mapValue count (Object.mapKvs f kvs) (key.mapBody f)

def Ret.mapBody (f : β → γ) : Ret β → Ret γ
  | .finish obj => .finish (obj.mapBody f)
  | .out => .out
  | .failed => .failed

def Pushed.mapBody (f : β → γ) : Pushed β → Pushed γ
  | .finish obj => .finish (obj.mapBody f)
  | .again stack => .again (stack.map (Frame.mapBody f))

/-- The machine with other bodies, at another place, with more bytes, and
with `referenced` if `flag` is set. -/
def Machine.via (f : β → γ) (d : Nat) (more : List UInt8) (flag : Bool)
    (m : Machine β) : Machine γ :=
  ⟨m.control, m.stack.map (Frame.mapBody f), m.allocs, m.referenced || flag,
    m.pos + d, m.rest ++ more⟩

/-- The same for what a step gives. -/
def stepVia (f : β → γ) (d : Nat) (more : List UInt8) (flag : Bool) :
    Machine β ⊕ Ret β × Machine β → Machine γ ⊕ Ret γ × Machine γ
  | .inl m => .inl (m.via f d more flag)
  | .inr (r, m) => .inr (r.mapBody f, m.via f d more flag)

/-- `env'` is to the other machine what `env` is to `m`. -/
structure Carries (f : β → γ) (d : Nat) (more : List UInt8) (env : Env β)
    (env' : Env γ) (m : Machine β) : Prop where
  body : ∀ k n, k ≤ m.rest.length →
    env'.body (m.pos + k + d) n (m.rest.drop k ++ more)
      = f (env.body (m.pos + k) n (m.rest.drop k))
  toDouble : env'.toDouble = env.toDouble
  zoneMalloc : env'.zoneMalloc = env.zoneMalloc
  objectSize : env'.objectSize = env.objectSize
  kvSize : env'.kvSize = env.kvSize
  sizeBits : env'.sizeBits = env.sizeBits

section Via

variable {f : β → γ} {d : Nat} {more : List UInt8} {flag : Bool}
  {env : Env β}
  {env' : Env γ} {m m' : Machine β}

/-- The relation between the two runs stays when bytes have been consumed. -/
theorem Carries.at {k : Nat} (h : Carries f d more env env' m)
    (hat : At m m' k) : Carries f d more env env' m' := by
  obtain ⟨hpos, hrest, hle⟩ := hat
  refine { h with body := fun j n hj => ?_ }
  rw [hrest, List.length_drop] at hj
  have hbody := h.body (k + j) n (by omega)
  have hpos' : m'.pos + j = m.pos + (k + j) := by omega
  rw [hpos', hrest, List.drop_drop]
  exact hbody

/-- Consuming commutes with the change of view. -/
theorem via_advance {k : Nat} (hk : k ≤ m.rest.length) :
    (m.via f d more flag).advance k = (m.advance k).via f d more flag := by
  show Machine.mk _ _ _ _ (m.pos + d + k) ((m.rest ++ more).drop k) = _
  rw [List.drop_append_of_le_length hk, Nat.add_right_comm]
  rfl

-- ================================================================= _push

theorem push_mapBody (o : Object β) (stack : List (Frame β)) :
    push (o.mapBody f) (stack.map (Frame.mapBody f))
      = (push o stack).mapBody f := by
  induction stack generalizing o with
  | nil => rfl
  | cons frame stack ih =>
      cases frame with
      | arrayItem count items =>
          have hitems : Object.mapItems f items ++ [o.mapBody f]
              = Object.mapItems f (items ++ [o]) := by
            rw [Object.mapItems_eq, Object.mapItems_eq, List.map_append]
            rfl
          rw [List.map_cons, Frame.mapBody, push, push, hitems]
          by_cases hlast : count - 1 = 0
          · rw [if_pos hlast, if_pos hlast]
            exact ih (.array (items ++ [o]))
          · rw [if_neg hlast, if_neg hlast]
            rfl
      | mapKey count kvs => rfl
      | mapValue count kvs key =>
          have hkvs : Object.mapKvs f kvs ++ [(key.mapBody f, o.mapBody f)]
              = Object.mapKvs f (kvs ++ [(key, o)]) := by
            rw [Object.mapKvs_eq, Object.mapKvs_eq, List.map_append]
            rfl
          rw [List.map_cons, Frame.mapBody, push, push, hkvs]
          by_cases hlast : count - 1 = 0
          · rw [if_pos hlast, if_pos hlast]
            exact ih (.map (kvs ++ [(key, o)]))
          · rw [if_neg hlast, if_neg hlast]
            rfl

/-- The step that pushes a value is the same in both runs. -/
theorem pushValue_via (o : Object β) (hne : 0 < m.rest.length) :
    pushValue (o.mapBody f) (m.via f d more flag)
      = stepVia f d more flag (pushValue o m) := by
  unfold pushValue
  rw [via_advance hne]
  show land _ (push (o.mapBody f) (m.stack.map (Frame.mapBody f))) = _
  rw [push_mapBody]
  cases push o m.stack with
  | finish obj => rfl
  | again stack => rfl

-- ================================================================ bodies

/-- A body is the same bytes at another place. -/
theorem bodyObject_via {k trail : Nat} (cs : Body)
    (h : Carries f d more env env' m) (hk : k < m.rest.length) :
    bodyObject env' cs (m.pos + k + d) trail (m.rest.drop k ++ more)
      = (bodyObject env cs (m.pos + k) trail (m.rest.drop k)).mapBody f := by
  have hbody := h.body k trail (Nat.le_of_lt hk)
  cases cs with
  | str =>
      show Object.str _ = Object.str _
      rw [hbody]
  | bin =>
      show Object.bin _ = Object.bin _
      rw [hbody]
  | ext =>
      have hnext := h.body (k + 1) ((trail + 2 ^ 32 - 1) % 2 ^ 32) hk
      have hhead : (m.rest.drop k ++ more).headD 0
          = (m.rest.drop k).headD 0 := by
        rw [List.drop_eq_getElem_cons hk]
        rfl
      show Object.ext _ (env'.body _ _ _) = Object.ext _ _
      rw [hhead, List.drop_append_of_le_length (by
          rw [List.length_drop]
          omega), List.drop_drop,
        show m.pos + k + d + 1 = m.pos + (k + 1) + d by omega]
      exact congrArg (Object.ext _) hnext

theorem pushBody_via {k j : Nat} (cs : Body) (trail : Nat)
    (h : Carries f d more env env' m) (hk : k < m.rest.length)
    (hj : j < m.rest.length) :
    pushBody env' cs (m.pos + k + d) trail (m.rest.drop k ++ more)
        ((m.advance j).via f d more flag)
      = stepVia f d more flag (pushBody env cs (m.pos + k) trail
        (m.rest.drop k) (m.advance j)) := by
  unfold pushBody
  rw [bodyObject_via cs h hk]
  exact pushValue_via (m := { m.advance j with referenced := true }) _ (by
    show 0 < (m.rest.drop j).length
    rw [List.length_drop]
    omega)

theorem againIfZero_via {k j : Nat} (cs : Body) (trail : Nat)
    (h : Carries f d more env env' m) (hk : k < m.rest.length)
    (hj : j < m.rest.length) :
    againIfZero env' cs trail (m.pos + k + d) (m.rest.drop k ++ more)
        ((m.advance j).via f d more flag)
      = stepVia f d more flag (againIfZero env cs trail (m.pos + k)
        (m.rest.drop k) (m.advance j)) := by
  unfold againIfZero
  by_cases hzero : trail = 0
  · rw [if_pos hzero, if_pos hzero]
    exact pushBody_via cs 0 h hk hj
  · rw [if_neg hzero, if_neg hzero, via_advance (by
      show 1 ≤ (m.rest.drop j).length
      rw [List.length_drop]
      omega)]
    rfl

theorem startContainer_via (ct : ContainerType) (count : Nat)
    (h : Carries f d more env env' m) (hne : 0 < m'.rest.length) :
    startContainer env' ct count (m'.via f d more flag)
      = stepVia f d more flag (startContainer env ct count m') := by
  have hlen : (m'.via f d more flag).stack.length = m'.stack.length :=
    List.length_map _
  have hsize : env'.elementSize ct = env.elementSize ct := by
    cases ct with
    | array => exact h.objectSize
    | map => exact h.kvSize
  unfold startContainer
  rw [hlen, hsize, h.zoneMalloc, h.sizeBits]
  by_cases hfull : msgpackEmbedStackSize ≤ m'.stack.length
  · rw [if_pos hfull, if_pos hfull]
    rfl
  · rw [if_neg hfull, if_neg hfull]
    dsimp only
    show (if env.zoneMalloc m'.allocs _ = false then _ else _) = _
    by_cases hgranted : env.zoneMalloc m'.allocs
        (count * env.elementSize ct % 2 ^ env.sizeBits) = false
    · rw [if_pos hgranted, if_pos hgranted]
      rfl
    · rw [if_neg hgranted, if_neg hgranted]
      by_cases hzero : count = 0
      · rw [if_pos hzero, if_pos hzero]
        have hobj : (ct.object : Object γ)
            = (ct.object : Object β).mapBody f := by
          cases ct with
          | array => rfl
          | map => rfl
        rw [hobj]
        exact pushValue_via (m := { m' with allocs := m'.allocs + 1 }) _ hne
      · rw [if_neg hzero, if_neg hzero]
        have hframe : (ct.frame count : Frame γ)
            = (ct.frame count : Frame β).mapBody f := by
          cases ct with
          | array => rfl
          | map => rfl
        rw [hframe]
        show Sum.inl (Machine.mk .header _ _ _ (m'.pos + d + 1)
          ((m'.rest ++ more).drop 1)) = _
        rw [List.drop_append_of_le_length hne, Nat.add_right_comm]
        rfl

-- ================================================================= steps

/-- The step at a header is the same in both runs. -/
theorem headerStep_via {b : UInt8} (h : Carries f d more env env' m)
    (hne : 0 < m.rest.length) :
    headerStep env' b (m.via f d more flag)
      = stepVia f d more flag (headerStep env b m) := by
  have hvalue : ∀ (o : Object γ) (o' : Object β), o = o'.mapBody f →
      pushValue o (m.via f d more flag)
        = stepVia f d more flag (pushValue o' m) := by
    rintro o o' rfl
    exact pushValue_via o' hne
  have hbody : ∀ cs trail,
      againIfZero env' cs trail (m.via f d more flag).pos
          (m.via f d more flag).rest (m.via f d more flag)
        = stepVia f d more flag (againIfZero env cs trail m.pos m.rest m) :=
    fun cs trail => againIfZero_via (k := 0) (j := 0) cs trail h hne hne
  have hct : ∀ ct count, startContainer env' ct count (m.via f d more flag)
      = stepVia f d more flag (startContainer env ct count m) :=
    fun ct count => startContainer_via ct count h hne
  unfold headerStep
  dsimp only
  split_ifs
  · exact hvalue _ _ rfl
  · refine hvalue _ _ ?_
    unfold callbackInt
    split <;> rfl
  · exact hvalue _ _ rfl
  · exact hvalue _ _ rfl
  · exact hvalue _ _ rfl
  · exact hbody _ _
  · exact hbody _ _
  · cases nextCs b.toNat with
    | none => rfl
    | some cs =>
        dsimp only
        rw [via_advance hne]
        rfl
  · exact hbody _ _
  · exact hct _ _
  · exact hct _ _

theorem loadStep_via {j : Nat} (cs : Load) (value : Nat)
    (h : Carries f d more env env' m) (hj : j < m.rest.length) :
    loadStep env' cs value (m.via f d more flag).pos (m.via f d more flag).rest
        ((m.advance j).via f d more flag)
      = stepVia f d more flag
        (loadStep env cs value m.pos m.rest (m.advance j)) := by
  have hne : 0 < (m.advance j).rest.length := by
    show 0 < (m.rest.drop j).length
    rw [List.length_drop]
    omega
  have hvalue : ∀ (o : Object γ) (o' : Object β), o = o'.mapBody f →
      pushValue o ((m.advance j).via f d more flag)
        = stepVia f d more flag (pushValue o' (m.advance j)) := by
    rintro o o' rfl
    exact pushValue_via o' hne
  have hbody : ∀ cs trail,
      againIfZero env' cs trail (m.via f d more flag).pos
          (m.via f d more flag).rest
          ((m.advance j).via f d more flag)
        = stepVia f d more flag
          (againIfZero env cs trail m.pos m.rest (m.advance j)) :=
    fun cs trail => againIfZero_via (k := 0) cs trail h (by omega) hj
  have hct : ∀ ct count,
      startContainer env' ct count ((m.advance j).via f d more flag)
        = stepVia f d more flag (startContainer env ct count (m.advance j)) :=
    fun ct count => startContainer_via ct count h hne
  cases cs with
  | float => exact hvalue _ _ (by rw [h.toDouble]; rfl)
  | double => exact hvalue _ _ rfl
  | uint k => exact hvalue _ _ rfl
  | int k =>
      refine hvalue _ _ ?_
      unfold callbackInt
      split <;> rfl
  | str k => exact hbody _ _
  | bin k => exact hbody _ _
  | ext k => exact hbody _ _
  | array k => exact hct _ _
  | map k => exact hct _ _

/-- The step has too few bytes. -/
def Short : Machine β ⊕ Ret β × Machine β → Prop
  | .inr (.out, _) => True
  | _ => False

/-- A step commutes with the map, unless bytes are missing that `more`
might have. -/
theorem step_via (flag : Bool) (h : Carries f d more env env' m)
    (hshort : Short (step env m) → more = []) :
    step env' (m.via f d more flag) = stepVia f d more flag (step env m) := by
  by_cases hnil : m.rest = []
  · rw [step_nil hnil] at hshort ⊢
    refine step_nil ?_
    show m.rest ++ more = []
    rw [hnil, hshort trivial]
    rfl
  have hne : 0 < m.rest.length := List.length_pos_iff.2 hnil
  have hnil' : (m.via f d more flag).rest ≠ [] :=
    List.append_ne_nil_of_left_ne_nil hnil more
  have hlen : (m.via f d more flag).rest.length
      = m.rest.length + more.length :=
    List.length_append
  cases hctl : m.control with
  | header =>
      obtain ⟨b, tail, hrest⟩ := List.exists_cons_of_ne_nil hnil
      have hrest' : (m.via f d more flag).rest = b :: (tail ++ more) := by
        show m.rest ++ more = _
        rw [hrest]
        rfl
      rw [step_header hrest' hctl, step_header hrest hctl]
      exact headerStep_via h hne
  | load cs =>
      rw [step_load hnil hctl] at hshort ⊢
      rw [step_load hnil' hctl]
      by_cases hlt : m.rest.length < cs.trail
      · rw [if_pos hlt] at hshort ⊢
        rw [if_pos (by rw [hlen, hshort trivial]; exact hlt)]
        rfl
      · have htake : (m.via f d more flag).rest.take cs.trail
            = m.rest.take cs.trail :=
          List.take_append_of_le_length (Nat.not_lt.1 hlt)
        rw [if_neg hlt, if_neg (by omega), htake, via_advance (by omega)]
        exact loadStep_via cs _ h (by omega)
  | body cs trail =>
      rw [step_body hnil hctl] at hshort ⊢
      rw [step_body hnil' hctl]
      by_cases hlt : m.rest.length < trail
      · rw [if_pos hlt] at hshort ⊢
        rw [if_pos (by rw [hlen, hshort trivial]; exact hlt)]
        rfl
      · rw [if_neg hlt, if_neg (by omega), via_advance (by omega)]
        exact pushBody_via (k := 0) cs trail h hne (by omega)

-- ================================================================== runs

/-- A run commutes with the map. -/
theorem execute_via (flag : Bool) (h : Carries f d [] env env' m) :
    templateExecute env' (m.via f d [] flag)
      = ((templateExecute env m).1.mapBody f,
        (templateExecute env m).2.via f d [] flag) := by
  induction hn : m.rest.length using Nat.strongRecOn generalizing m with
  | ind n ih =>
      rw [execute_eq, execute_eq m, step_via flag h fun _ => rfl]
      have hmoves := step_moves env m
      cases hstep : step env m with
      | inr r => rfl
      | inl m' =>
          rw [hstep] at hmoves
          obtain ⟨k, hk, hat⟩ := hmoves
          have hlt : m'.rest.length < n := by
            obtain ⟨-, hrest, hle⟩ := hat
            rw [hrest, List.length_drop]
            omega
          exact ih _ hlt (h.at hat) rfl

/-- A run goes on with the bytes that were missing, and does the same if
none were. -/
theorem execute_via_more (flag : Bool) (h : Carries f d more env env' m) :
    ((templateExecute env m).1 = .out →
        templateExecute env' (m.via f d more flag)
          = templateExecute env' ((templateExecute env m).2.via f d more flag))
      ∧ ((templateExecute env m).1 ≠ .out →
        templateExecute env' (m.via f d more flag)
          = ((templateExecute env m).1.mapBody f,
            (templateExecute env m).2.via f d more flag)) := by
  induction hn : m.rest.length using Nat.strongRecOn generalizing m with
  | ind n ih =>
      have hmoves := step_moves env m
      have hvia : (Short (step env m) → more = []) →
          step env' (m.via f d more flag)
            = stepVia f d more flag (step env m) := step_via flag h
      rw [execute_eq m]
      cases hstep : step env m with
      | inr r =>
          obtain ⟨r, m'⟩ := r
          rw [hstep] at hmoves hvia
          constructor
          · intro hout
            have hr : r = .out := hout
            subst hr
            have hm : m' = m := hmoves
            subst hm
            rfl
          · intro hdone
            have hr : r ≠ .out := hdone
            rw [execute_eq, hvia (by
              intro hshort
              cases r with
              | out => exact absurd rfl hr
              | _ => exact hshort.elim)]
            rfl
      | inl m' =>
          rw [hstep] at hmoves hvia
          obtain ⟨k, hk, hat⟩ := hmoves
          have hlt : m'.rest.length < n := by
            obtain ⟨-, hrest, hle⟩ := hat
            rw [hrest, List.length_drop]
            omega
          rw [execute_eq (m.via f d more flag),
            hvia fun hshort => hshort.elim]
          exact ih _ hlt (h.at hat) rfl

end Via

-- ================================================================ pieces

section Pieces

variable {env : Env β}

/-- The machine with more bytes behind. -/
def Machine.behind (m : Machine β) (more : List UInt8) : Machine β :=
  { m with rest := m.rest ++ more }

/-- Runs of `template_execute` where the bytes come in pieces: it is called
with the next piece when it has said `_out`. -/
def executePieces (env : Env β) (m : Machine β) :
    List (List UInt8) → Ret β × Machine β
  | [] => templateExecute env m
  | piece :: pieces =>
      match templateExecute env m with
      | (.out, m') => executePieces env (m'.behind piece) pieces
      | (r, m') => (r, m'.behind (piece :: pieces).flatten)

theorem Frame.mapBody_id (frame : Frame β) : frame.mapBody id = frame := by
  have hmap : (Object.mapBody id : Object β → Object β) = id :=
    funext Object.mapBody_id
  cases frame with
  | arrayItem count items =>
      rw [mapBody, Object.mapItems_eq, hmap, List.map_id]
  | mapKey count kvs =>
      rw [mapBody, Object.mapKvs_eq, hmap]
      exact congrArg _ (List.map_id kvs)
  | mapValue count kvs key =>
      rw [mapBody, Object.mapKvs_eq, hmap]
      exact congrArg (mapValue count · key) (List.map_id kvs)

theorem Ret.mapBody_id (r : Ret β) : r.mapBody id = r := by
  cases r with
  | finish obj => exact congrArg finish (Object.mapBody_id obj)
  | out => rfl
  | failed => rfl

/-- The run itself, seen with more bytes behind. -/
theorem via_id (m : Machine β) (more : List UInt8) :
    m.via id 0 more false = m.behind more := by
  have hmap : (Frame.mapBody id : Frame β → Frame β) = id :=
    funext Frame.mapBody_id
  unfold Machine.via Machine.behind
  rw [hmap, List.map_id, Bool.or_false, Nat.add_zero]

/-- Where bodies are references, it makes no difference in which pieces the
bytes come, be they of a message or not. -/
theorem execute_pieces
    (hbody : ∀ p n bytes more,
      env.body p n (bytes ++ more) = env.body p n bytes)
    (m : Machine β) (pieces : List (List UInt8)) :
    executePieces env m pieces
      = templateExecute env (m.behind pieces.flatten) := by
  induction pieces generalizing m with
  | nil =>
      rw [executePieces, List.flatten_nil, Machine.behind, List.append_nil]
  | cons piece pieces ih =>
      have hcarries : ∀ more, Carries id 0 more env env m := fun more =>
        ⟨fun k n _ => hbody _ _ _ _, rfl, rfl, rfl, rfl, rfl⟩
      have hmore := execute_via_more false
        (hcarries (piece :: pieces).flatten)
      rw [via_id, via_id] at hmore
      rw [executePieces]
      cases hrun : templateExecute env m with
      | mk r m' =>
          rw [hrun] at hmore
          have hdone : r ≠ .out → (r, m'.behind (piece :: pieces).flatten)
              = templateExecute env
                (m.behind (piece :: pieces).flatten) := fun hne => by
            rw [hmore.2 hne, Ret.mapBody_id]
          cases r with
          | out =>
              rw [hmore.1 rfl]
              show executePieces env (m'.behind piece) pieces = _
              rw [ih]
              unfold Machine.behind
              rw [List.flatten_cons, List.append_assoc]
          | finish obj => exact hdone nofun
          | failed => exact hdone nofun

/-- Places as references, and a string in three pieces. -/
theorem execute_pieces_str :
    executePieces ⟨fun p n _ => (p, n), fun _ => 0, fun _ _ => true, 24, 48,
      64⟩
        (templateInit 0 []) [[0xa2], [0x61], [0x62, 0xc0]]
      = templateExecute
        ⟨fun p n _ => (p, n), fun _ => 0, fun _ _ => true, 24, 48, 64⟩
        (templateInit 0 [0xa2, 0x61, 0x62, 0xc0]) :=
  execute_pieces (fun _ _ _ _ => rfl) (templateInit 0 []) _

end Pieces

end ProjectsLibs.Msgpack
