/-
What is known of the bodies of the objects that `template_execute` makes.

`P flag` is said of every object and all that is in it, where `flag` is
`referenced`. If it holds of the objects on the stack and of those that are
made of a body within the bytes that are there, a step keeps it
(`step_every`), and so does a run (`execute_every`).

# How a property gets through the machine

The proof follows the machine through its cases once, for a property that
is a parameter. An object is made in few places: from a byte, from a
number, from a body at the place where the machine is, or from what a
frame has collected. `Admits` asks for the property in these cases and
that it is not lost where more has been read; each part of a step then
keeps it for the whole stack, and the run is an induction on the bytes
that are left.

With the property that a body lies within the buffer, this gives what the
unpacker says of the messages it delivers. The flag is there because the
machine notes whether any body refers to the buffer, and that note is
true of all objects that are made from then on.
-/
import ProjectsLibs.Msgpack.Proofs.Chunks

namespace ProjectsLibs.Msgpack

open Lib

variable {β γ : Type}

-- ========================================================== every object

/-- The body of an object, which containers do not have. -/
def Object.ownBody : Object β → Option β
  | .str body => some body
  | .bin body => some body
  | .ext _ body => some body
  | _ => none

/-- `P` holds of all the objects of a frame. -/
def Frame.Every (P : Object β → Prop) : Frame β → Prop
  | .arrayItem _ items => Object.EveryItem P items
  | .mapKey _ kvs => Object.EveryKv P kvs
  | .mapValue _ kvs key => Object.EveryKv P kvs ∧ key.Every P

def EveryFrame (P : Object β → Prop) (stack : List (Frame β)) : Prop :=
  ∀ frame ∈ stack, frame.Every P

section Every

variable {P Q : Object β → Prop}

/-- What holds of every part holds in a weaker form, too. -/
theorem Object.Every.mono (h : ∀ o, P o → Q o) {o : Object β}
    (ho : o.Every P) : o.Every Q := by
  induction o using Object.induct with
  | array items ih =>
      refine ⟨h _ ho.1, (everyItem_iff items).2 fun x hx => ?_⟩
      exact ih x hx ((everyItem_iff items).1 ho.2 x hx)
  | map kvs ih =>
      refine ⟨h _ ho.1, (everyKv_iff kvs).2 fun kv hkv => ?_⟩
      have hboth := (everyKv_iff kvs).1 ho.2 kv hkv
      exact ⟨(ih kv hkv).1 hboth.1, (ih kv hkv).2 hboth.2⟩
  | _ => exact h _ ho

/-- Two properties of every part are one. -/
theorem Object.Every.and {o : Object β} (hp : o.Every P)
    (hq : o.Every Q) : o.Every fun o => P o ∧ Q o := by
  induction o using Object.induct with
  | array items ih =>
      refine ⟨⟨hp.1, hq.1⟩, (everyItem_iff items).2 fun x hx => ?_⟩
      exact ih x hx ((everyItem_iff items).1 hp.2 x hx)
        ((everyItem_iff items).1 hq.2 x hx)
  | map kvs ih =>
      refine ⟨⟨hp.1, hq.1⟩, (everyKv_iff kvs).2 fun kv hkv => ?_⟩
      have hps := (everyKv_iff kvs).1 hp.2 kv hkv
      have hqs := (everyKv_iff kvs).1 hq.2 kv hkv
      exact ⟨(ih kv hkv).1 hps.1 hqs.1, (ih kv hkv).2 hps.2 hqs.2⟩
  | _ => exact ⟨hp, hq⟩

theorem Object.EveryItem.mono (h : ∀ o, P o → Q o)
    {items : List (Object β)} (hitems : EveryItem P items) :
    EveryItem Q items :=
  (everyItem_iff items).2 fun o ho =>
    ((everyItem_iff items).1 hitems o ho).mono h

theorem Object.EveryKv.mono (h : ∀ o, P o → Q o)
    {kvs : List (Object β × Object β)} (hkvs : EveryKv P kvs) :
    EveryKv Q kvs :=
  (everyKv_iff kvs).2 fun kv hkv =>
    have hboth := (everyKv_iff kvs).1 hkvs kv hkv
    ⟨hboth.1.mono h, hboth.2.mono h⟩

theorem EveryFrame.mono (h : ∀ o, P o → Q o) {stack : List (Frame β)}
    (hstack : EveryFrame P stack) : EveryFrame Q stack := by
  intro frame hframe
  have hevery := hstack frame hframe
  cases frame with
  | arrayItem count items => exact Object.EveryItem.mono h hevery
  | mapKey count kvs => exact Object.EveryKv.mono h hevery
  | mapValue count kvs key =>
      exact ⟨Object.EveryKv.mono h hevery.1, hevery.2.mono h⟩

/-- An object is mapped the same where its bodies are. -/
theorem Object.mapBody_congr {f g : β → γ}
    (h : ∀ o, P o → ∀ body ∈ o.ownBody, f body = g body) {o : Object β}
    (ho : o.Every P) : o.mapBody f = o.mapBody g := by
  induction o using Object.induct with
  | str body => exact congrArg Object.str (h _ ho body rfl)
  | bin body => exact congrArg Object.bin (h _ ho body rfl)
  | ext type body => exact congrArg (Object.ext type) (h _ ho body rfl)
  | array items ih =>
      rw [mapBody, mapBody, mapItems_eq, mapItems_eq]
      refine congrArg _ (List.map_congr_left fun x hx => ?_)
      exact ih x hx ((everyItem_iff items).1 ho.2 x hx)
  | map kvs ih =>
      rw [mapBody, mapBody, mapKvs_eq, mapKvs_eq]
      refine congrArg _ (List.map_congr_left fun kv hkv => ?_)
      have hboth := (everyKv_iff kvs).1 ho.2 kv hkv
      exact Prod.ext ((ih kv hkv).1 hboth.1) ((ih kv hkv).2 hboth.2)
  | _ => rfl

/-- Two maps that agree on the bodies there are give the same items. -/
theorem Object.mapItems_congr {f g : β → γ}
    (h : ∀ o, P o → ∀ body ∈ o.ownBody, f body = g body)
    {items : List (Object β)} (hitems : EveryItem P items) :
    mapItems f items = mapItems g items := by
  rw [mapItems_eq, mapItems_eq]
  exact List.map_congr_left fun o ho =>
    mapBody_congr h ((everyItem_iff items).1 hitems o ho)

theorem Object.mapKvs_congr {f g : β → γ}
    (h : ∀ o, P o → ∀ body ∈ o.ownBody, f body = g body)
    {kvs : List (Object β × Object β)} (hkvs : EveryKv P kvs) :
    mapKvs f kvs = mapKvs g kvs := by
  rw [mapKvs_eq, mapKvs_eq]
  refine List.map_congr_left fun kv hkv => ?_
  have hboth := (everyKv_iff kvs).1 hkvs kv hkv
  exact Prod.ext (mapBody_congr h hboth.1) (mapBody_congr h hboth.2)

/-- The same for a stack. -/
theorem EveryFrame.map_congr {f g : β → γ}
    (h : ∀ o, P o → ∀ body ∈ o.ownBody, f body = g body)
    {stack : List (Frame β)} (hstack : EveryFrame P stack) :
    stack.map (Frame.mapBody f) = stack.map (Frame.mapBody g) := by
  refine List.map_congr_left fun frame hframe => ?_
  have hevery := hstack frame hframe
  cases frame with
  | arrayItem count items =>
      rw [Frame.mapBody, Frame.mapBody, Object.mapItems_congr h hevery]
  | mapKey count kvs =>
      rw [Frame.mapBody, Frame.mapBody, Object.mapKvs_congr h hevery]
  | mapValue count kvs key =>
      rw [Frame.mapBody, Frame.mapBody, Object.mapKvs_congr h hevery.1,
        Object.mapBody_congr h hevery.2]

/-- What is known of an object that is pushed is known of what comes of
it. -/
def PushedEvery (P : Object β → Prop) : Pushed β → Prop
  | .finish obj => obj.Every P
  | .again stack => EveryFrame P stack

/-- Pushing an object keeps the property of all objects on the stack. -/
theorem push_every (hplain : ∀ o : Object β, o.ownBody = none → P o)
    {o : Object β} (ho : o.Every P) {stack : List (Frame β)}
    (hstack : EveryFrame P stack) : PushedEvery P (push o stack) := by
  induction stack generalizing o with
  | nil => exact ho
  | cons frame stack ih =>
      unfold EveryFrame at hstack
      rw [List.forall_mem_cons] at hstack
      obtain ⟨hframe, hstack⟩ := hstack
      cases frame with
      | arrayItem count items =>
          have hitems : Object.EveryItem P (items ++ [o]) := by
            rw [Object.everyItem_iff, List.forall_mem_append]
            exact ⟨(Object.everyItem_iff items).1 hframe,
              List.forall_mem_singleton.2 ho⟩
          rw [push]
          split
          · exact ih ⟨hplain _ rfl, hitems⟩ hstack
          · exact List.forall_mem_cons.2 ⟨hitems, hstack⟩
      | mapKey count kvs =>
          exact List.forall_mem_cons.2 ⟨⟨hframe, ho⟩, hstack⟩
      | mapValue count kvs key =>
          have hkvs : Object.EveryKv P (kvs ++ [(key, o)]) := by
            rw [Object.everyKv_iff, List.forall_mem_append]
            exact ⟨(Object.everyKv_iff kvs).1 hframe.1,
              List.forall_mem_singleton.2 ⟨hframe.2, ho⟩⟩
          rw [push]
          split
          · exact ih ⟨hplain _ rfl, hkvs⟩ hstack
          · exact List.forall_mem_cons.2 ⟨hkvs, hstack⟩

end Every

-- ================================================================= steps

section Steps

variable {P : Bool → Object β → Prop} {env : Env β} {m : Machine β}

/-- What is known after a step. -/
def StepEvery (P : Bool → Object β → Prop) :
    Machine β ⊕ Ret β × Machine β → Prop
  | .inl m => EveryFrame (P m.referenced) m.stack
  | .inr (.finish obj, m) => obj.Every (P m.referenced)
      ∧ EveryFrame (P m.referenced) m.stack
  | .inr (_, m) => EveryFrame (P m.referenced) m.stack

/-- What is asked of `P`: it holds of objects without a body, and of those
that are made at `m`; and it does not mind `referenced`. -/
structure Admits (P : Bool → Object β → Prop) (env : Env β)
    (m : Machine β) : Prop where
  plain : ∀ flag (o : Object β), o.ownBody = none → P flag o
  mono : ∀ o, P false o → P true o
  made : ∀ cs k trail, k < m.rest.length →
    trail ≤ (m.rest.drop k).length →
    P true (bodyObject env cs (m.pos + k) trail (m.rest.drop k))

/-- What is asked of the callbacks stays when bytes have been consumed. -/
theorem Admits.at {m' : Machine β} {k : Nat} (h : Admits P env m)
    (hat : At m m' k) : Admits P env m' := by
  obtain ⟨hpos, hrest, hle⟩ := hat
  refine { h with made := fun cs j trail hj htrail => ?_ }
  rw [hrest, List.length_drop] at hj
  rw [hrest, List.drop_drop] at htrail ⊢
  rw [hpos, Nat.add_assoc]
  exact h.made cs (k + j) trail (by omega) htrail

/-- A step that pushes a value keeps the property. -/
theorem pushValue_every (m' : Machine β) {o : Object β}
    (h : Admits P env m) (ho : o.Every (P m'.referenced))
    (hstack : EveryFrame (P m'.referenced) m'.stack) :
    StepEvery P (pushValue o m') := by
  have hpush := push_every (h.plain m'.referenced) ho hstack
  unfold pushValue
  show StepEvery P (land _ (push o m'.stack))
  cases hp : push o m'.stack with
  | finish obj =>
      rw [hp] at hpush
      exact ⟨hpush, nofun⟩
  | again stack =>
      rw [hp] at hpush
      exact hpush

theorem pushBody_every {k j : Nat} (h : Admits P env m) (cs : Body)
    {trail : Nat} (hk : k < m.rest.length)
    (htrail : trail ≤ (m.rest.drop k).length)
    (hstack : EveryFrame (P m.referenced) m.stack) :
    StepEvery P (pushBody env cs (m.pos + k) trail (m.rest.drop k)
      (m.advance j)) := by
  have hmade := h.made cs k trail hk htrail
  refine pushValue_every { m.advance j with referenced := true } h
    ?_ ?_
  · cases cs with
    | str => exact hmade
    | bin => exact hmade
    | ext => exact hmade
  · refine EveryFrame.mono (P := P m.referenced) ?_ hstack
    intro o ho
    show P true o
    cases hflag : m.referenced with
    | false => exact h.mono o (hflag ▸ ho)
    | true => exact hflag ▸ ho

/-- Or one that goes on to a body, which may be empty. -/
theorem againIfZero_every {k j : Nat} (h : Admits P env m) (cs : Body)
    (trail : Nat) (hk : k < m.rest.length)
    (hstack : EveryFrame (P m.referenced) m.stack) :
    StepEvery P (againIfZero env cs trail (m.pos + k) (m.rest.drop k)
      (m.advance j)) := by
  unfold againIfZero
  split
  · exact pushBody_every h cs hk (Nat.zero_le _) hstack
  · exact hstack

theorem startContainer_every {m' : Machine β} (h : Admits P env m)
    (ct : ContainerType) (count : Nat)
    (hstack : EveryFrame (P m'.referenced) m'.stack) :
    StepEvery P (startContainer env ct count m') := by
  unfold startContainer
  split
  · exact hstack
  · dsimp only
    split
    · exact hstack
    · split
      · refine pushValue_every
          { m' with allocs := m'.allocs + 1 } h ?_ hstack
        cases ct with
        | array => exact ⟨h.plain _ _ rfl, trivial⟩
        | map => exact ⟨h.plain _ _ rfl, trivial⟩
      · refine List.forall_mem_cons.2 ⟨?_, hstack⟩
        cases ct with
        | array => trivial
        | map => trivial

/-- An integer has no body, so it has the property. -/
theorem callbackInt_every {flag : Bool} (h : Admits P env m) (d : Int) :
    (callbackInt d : Object β).Every (P flag) := by
  unfold callbackInt
  split
  · exact h.plain _ (.positiveInteger _) rfl
  · exact h.plain _ (.negativeInteger _) rfl

/-- The step at a header keeps the property. -/
theorem headerStep_every {b : UInt8} (h : Admits P env m)
    (hne : 0 < m.rest.length)
    (hstack : EveryFrame (P m.referenced) m.stack) :
    StepEvery P (headerStep env b m) := by
  have hbody : ∀ cs trail,
      StepEvery P (againIfZero env cs trail m.pos m.rest m) :=
    fun cs trail => againIfZero_every (k := 0) (j := 0) h cs trail hne hstack
  have hplain : ∀ o : Object β, o.Every (P m.referenced) →
      StepEvery P (pushValue o m) :=
    fun o ho => pushValue_every _ h ho hstack
  unfold headerStep
  dsimp only
  split_ifs
  · exact hplain _ (h.plain _ (.positiveInteger _) rfl)
  · exact hplain _ (callbackInt_every h _)
  · exact hplain _ (h.plain _ .nil rfl)
  · exact hplain _ (h.plain _ (.boolean false) rfl)
  · exact hplain _ (h.plain _ (.boolean true) rfl)
  · exact hbody _ _
  · exact hbody _ _
  · cases nextCs b.toNat with
    | none => exact hstack
    | some cs => exact hstack
  · exact hbody _ _
  · exact startContainer_every h _ _ hstack
  · exact startContainer_every h _ _ hstack

/-- And so does the one behind it, at a length or a value. -/
theorem loadStep_every {j : Nat} (h : Admits P env m) (cs : Load)
    (value : Nat) (hne : 0 < m.rest.length)
    (hstack : EveryFrame (P m.referenced) m.stack) :
    StepEvery P (loadStep env cs value m.pos m.rest (m.advance j)) := by
  have hbody : ∀ cs trail, StepEvery P
      (againIfZero env cs trail m.pos m.rest (m.advance j)) :=
    fun cs trail => againIfZero_every (k := 0) h cs trail hne hstack
  have hplain : ∀ o : Object β, o.Every (P m.referenced) →
      StepEvery P (pushValue o (m.advance j)) :=
    fun o ho => pushValue_every _ h ho hstack
  cases cs with
  | float => exact hplain _ (h.plain _ (.float _) rfl)
  | double => exact hplain _ (h.plain _ (.float _) rfl)
  | uint k => exact hplain _ (h.plain _ (.positiveInteger _) rfl)
  | int k => exact hplain _ (callbackInt_every h _)
  | str k => exact hbody _ _
  | bin k => exact hbody _ _
  | ext k => exact hbody _ _
  | array k => exact startContainer_every h _ _ hstack
  | map k => exact startContainer_every h _ _ hstack

/-- What is known of the stack is known after a step. -/
theorem step_every (h : Admits P env m)
    (hstack : EveryFrame (P m.referenced) m.stack) :
    StepEvery P (step env m) := by
  by_cases hnil : m.rest = []
  · rw [step_nil hnil]
    exact hstack
  have hne : 0 < m.rest.length := List.length_pos_iff.2 hnil
  cases hctl : m.control with
  | header =>
      obtain ⟨b, tail, hrest⟩ := List.exists_cons_of_ne_nil hnil
      rw [step_header hrest hctl]
      exact headerStep_every h hne hstack
  | load cs =>
      rw [step_load hnil hctl]
      split
      · exact hstack
      · exact loadStep_every h cs _ hne hstack
  | body cs trail =>
      rw [step_body hnil hctl]
      split
      · exact hstack
      · exact pushBody_every (k := 0) h cs hne (by
          show trail ≤ m.rest.length
          omega) hstack

/-- What is known of the stack is known after a run, also of the
message. -/
theorem execute_every (h : Admits P env m)
    (hstack : EveryFrame (P m.referenced) m.stack) :
    StepEvery P (.inr (templateExecute env m)) := by
  refine outcome_invariant (step_measured env)
    (I := fun m₁ => (∃ k, At m m₁ k)
      ∧ EveryFrame (P m₁.referenced) m₁.stack)
    (P := fun r => StepEvery P (.inr r)) ?_ ?_ ⟨⟨0, At.refl m⟩, hstack⟩
  · rintro m₁ m₂ ⟨⟨k, hat⟩, hstack₁⟩ hstep
    have hmoves := step_moves env m₁
    have hevery := step_every (h.at hat) hstack₁
    rw [hstep] at hmoves hevery
    obtain ⟨j, -, hat'⟩ := hmoves
    exact ⟨⟨k + j, hat.trans hat'⟩, hevery⟩
  · rintro m₁ r ⟨⟨k, hat⟩, hstack₁⟩ hstep
    have hevery := step_every (h.at hat) hstack₁
    rwa [hstep] at hevery

end Steps

end ProjectsLibs.Msgpack
