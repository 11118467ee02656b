/-
The changes of a port that the hub driver acknowledges.

The requests of a call are read off as a list: one for the status, those
for the connection, and one for each other change. The one for a port that
was enabled names the connection instead, so the change that was read is
never cleared; without it, all changes that were read are cleared and no
other.

# The log of a call

A call of the driver asks for the status of the port, makes requests that
depend on the change bits it has read, and may wait for a reset in
between. What is proved is about the log of these requests, so there is a
lemma for each part of the call that says what it adds: nothing or one
request (`Acks`), any number of requests for the status
(`pollReset_log`), those for a new device (`attach_log`). They are put
together in `handlePortChange_log`, and the rest speaks of the log alone.

A bit that the hardware sets after the driver has read the word is not
cleared by the call, whatever the hardware does: this is what `Spares`
says of a log, and it is kept when logs are appended.
-/
import ProjectsLibs.Usb.Hub

namespace ProjectsLibs.Usb.Hub

open Lib

variable {hw : Nat → PortTurn} {start change : UInt32} {c c' : Progress}
  {newDevice : UInt32 → Int} {l l₁ l₂ : List (HubReq × PortStatus)}

-- ======================================================== what is spared

/-- Requests after others. -/
theorem Spares.append {r : Bool} (h₁ : Spares start r l₁)
    (h₂ : ∀ r, Spares start r l₂) : Spares start r (l₁ ++ l₂) := by
  induction l₁ generalizing r with
  | nil => exact h₂ r
  | cons e l₁ ih =>
      obtain ⟨req, found⟩ := e
      cases req with
      | getStatus => exact ih h₁
      | setFeature f => exact ih h₁
      | clearFeature f => exact ⟨h₁.1, ih h₁.2⟩

/-- Requests that clear only what was set at the start. -/
theorem spares_of_set {r : Bool} (h : ∀ e ∈ l, ∀ f b,
    e.1 = .clearFeature f → f.named = some b → hasBit start b = true) :
    Spares start r l := by
  induction l generalizing r with
  | nil => trivial
  | cons e l ih =>
      have hl : ∀ r, Spares start r l :=
        fun r => ih fun e' he' => h e' (List.mem_cons_of_mem _ he')
      obtain ⟨req, found⟩ := e
      cases req with
      | getStatus => exact hl _
      | setFeature f => exact hl _
      | clearFeature f =>
          refine ⟨fun b hb _ => .inl ?_, hl _⟩
          exact h _ (List.mem_cons_self ..) f b rfl hb

/-- Requests for the status in front of others. -/
theorem Spares.polls {r : Bool} (hall : ∀ e ∈ l₁, e.1 = .getStatus)
    (h : Spares start r l₂) : Spares start r (l₁ ++ l₂) := by
  induction l₁ with
  | nil => exact h
  | cons e l₁ ih =>
      obtain ⟨req, found⟩ := e
      have hreq : req = .getStatus := hall _ (List.mem_cons_self ..)
      subst hreq
      exact ih fun e he => hall e (List.mem_cons_of_mem _ he)

-- ========================================================== the requests

/-- The requests that acknowledge a change, or none. -/
inductive Acks (start : UInt32) (b f : PortFeature) :
    List (HubReq × PortStatus) → Prop
  | sent (found : PortStatus) : hasBit start b = true →
      Acks start b f [(.clearFeature f, found)]
  | clear : hasBit start b = false → Acks start b f []

/-- What one acknowledgement adds to the log. -/
theorem acknowledge_log (hw : Nat → PortTurn) (change : UInt32)
    (b f : PortFeature) (c : Progress) :
    ∃ l, (acknowledge hw change b f c).log = c.log ++ l
      ∧ Acks change b f l := by
  unfold acknowledge
  cases hb : hasBit change b with
  | true => exact ⟨_, rfl, .sent _ hb⟩
  | false => exact ⟨[], (List.append_nil _).symm, .clear hb⟩

/-- What clears a change was set at the start. -/
theorem Acks.spares {b f : PortFeature} (h : Acks start b f l)
    (hname : f.named = some b) (r : Bool) : Spares start r l := by
  apply spares_of_set
  intro e he f' b' hreq hb'
  cases h with
  | sent found hb =>
      rw [List.mem_singleton.1 he] at hreq
      cases hreq
      rw [hname] at hb'
      cases hb'
      exact hb
  | clear hb => cases he

/-- A change bit that was set is cleared by a request. -/
theorem Acks.cleared {b f : PortFeature} (h : Acks start b f l)
    (hb : hasBit start b = true) :
    ∃ found, (.clearFeature f, found) ∈ l := by
  cases h with
  | sent found _ => exact ⟨found, List.mem_singleton.2 rfl⟩
  | clear hnot =>
      rw [hnot] at hb
      cases hb

/-- Waiting for the end of a reset only asks for the status. -/
theorem pollReset_log {fuel : Nat} {status : UInt32}
    (h : pollReset hw fuel c = some (c', status)) :
    ∃ l, c'.log = c.log ++ l ∧ ∀ e ∈ l, e.1 = .getStatus := by
  induction fuel generalizing c with
  | zero => cases h
  | succ fuel ih =>
      simp only [pollReset] at h
      split_ifs at h with hreset
      · obtain ⟨l, hlog, hall⟩ := ih h
        refine ⟨(.getStatus, c.next hw) :: l, ?_, ?_⟩
        · rw [hlog]
          simp [Progress.send]
        · intro e he
          rcases List.mem_cons.1 he with rfl | he
          · rfl
          · exact hall e he
      · cases h
        refine ⟨[(.getStatus, c.next hw)], rfl, ?_⟩
        intro e he
        rw [List.mem_singleton.1 he]

/-- The requests for a device that was attached. -/
theorem attach_log {fuel : Nat}
    (h : attach hw newDevice fuel c = some c') :
    ∃ l, c'.log = c.log ++ l ∧ (∀ start r, Spares start r l)
      ∧ ∀ e ∈ l, e.1 ≠ .clearFeature .cEnable := by
  obtain ⟨⟨c₁, status⟩, hpoll, hrest⟩ := Option.bind_eq_some_iff.1 h
  obtain ⟨polls, hlog, hall⟩ := pollReset_log hpoll
  have hlast : ∃ found last, c'.log = c₁.log
      ++ (.clearFeature .cReset, found) :: last
      ∧ ∀ e ∈ last, e.1 = .setFeature .reset := by
    simp only at hrest
    split_ifs at hrest
    · cases hrest
      refine ⟨c₁.next hw, [(.setFeature .reset,
        (c₁.send hw (.clearFeature .cReset)).next hw)], ?_, ?_⟩
      · simp only [Progress.send, List.append_assoc]
        rfl
      · intro e he
        rw [List.mem_singleton.1 he]
    · cases hrest
      exact ⟨c₁.next hw, [], rfl, nofun⟩
  obtain ⟨found, last, hlog', hlast⟩ := hlast
  refine ⟨(.setFeature .reset, c.next hw) :: (polls
    ++ (.clearFeature .cReset, found) :: last), ?_, ?_, ?_⟩
  · rw [hlog', hlog]
    simp [Progress.send]
  · intro start r
    -- the reset change is cleared after a reset
    show Spares start (r || true) _
    apply Spares.polls hall
    refine ⟨fun b hb _ => .inr ⟨?_, Bool.or_true r⟩, ?_⟩
    · cases hb
      rfl
    · apply spares_of_set
      intro e he f b hreq
      rw [hlast e he] at hreq
      cases hreq
  · intro e he
    rcases List.mem_cons.1 he with rfl | he
    · nofun
    · rcases List.mem_append.1 he with he | he
      · rw [hall e he]
        nofun
      · rcases List.mem_cons.1 he with rfl | he
        · nofun
        · rw [hlast e he]
          nofun

/-- The requests for a change of the connection. -/
theorem connectionChange_log {fuel : Nat} {status : UInt32}
    (h : connectionChange hw newDevice fuel change status c = some c') :
    ∃ l₁ l₂, c'.log = c.log ++ l₁ ++ l₂
      ∧ Acks change .connection .cConnection l₁
      ∧ (∀ r, Spares change r l₂)
      ∧ ∀ e ∈ l₂, e.1 ≠ .clearFeature .cEnable := by
  simp only [connectionChange] at h
  split_ifs at h with hconn hstat
  · obtain ⟨l, hlog, hspares, hnot⟩ := attach_log h
    exact ⟨_, l, hlog, .sent _ hconn, hspares change, hnot⟩
  · cases h
    refine ⟨[_], [_], rfl, .sent _ hconn, ?_, ?_⟩
    · exact fun r => trivial
    · intro e he
      rw [List.mem_singleton.1 he]
      nofun
  · cases h
    refine ⟨[], [], ?_, .clear (Bool.eq_false_iff.2 hconn), ?_, nofun⟩
    · simp
    · exact fun r => trivial

/-- The other acknowledgements do not clear the enable change. -/
theorem Acks.not_enable {b f : PortFeature} (h : Acks start b f l)
    (hf : f ≠ .cEnable) : ∀ e ∈ l, e.1 ≠ .clearFeature .cEnable := by
  intro e he hreq
  cases h with
  | sent found _ =>
      rw [List.mem_singleton.1 he] at hreq
      cases hreq
      exact hf rfl
  | clear _ => cases he

/-- All requests of a call, for the changes `start` that it reads. -/
structure Requests (start : UInt32) (log : List (HubReq × PortStatus)) :
    Prop where
  parts : ∃ found conn other en sus oc rst,
    log = (.getStatus, found) :: (conn ++ (other ++ (en ++ (sus
      ++ (oc ++ rst)))))
    ∧ Acks start .connection .cConnection conn
    ∧ (∀ r, Spares start r other)
    ∧ (∀ e ∈ other, e.1 ≠ .clearFeature .cEnable)
    ∧ Acks start .enable .cConnection en
    ∧ Acks start .suspend .cSuspend sus
    ∧ Acks start .overCurrent .cOverCurrent oc
    ∧ Acks start .reset .cReset rst

/-- All requests of one call, in order: one group for each change, the
reset in between. -/
theorem handlePortChange_log {port fuel : Nat} {p : PortStatus}
    (hport : port ≠ 0)
    (h : handlePortChange hw newDevice fuel port ⟨p, 0, []⟩ = some c') :
    Requests (p.settle (hw 0)).wPortChange c'.log := by
  unfold handlePortChange at h
  rw [if_neg hport] at h
  obtain ⟨c₁, hconn, hrest⟩ := Option.bind_eq_some_iff.1 h
  simp only [Option.some.injEq] at hrest
  have hstart : Progress.next hw ⟨p, 0, []⟩ = p.settle (hw 0) := rfl
  rw [hstart] at hconn hrest
  generalize (p.settle (hw 0)).wPortChange = start at hconn hrest ⊢
  obtain ⟨conn, other, hlog, hconn, hother, hnot⟩ :=
    connectionChange_log hconn
  obtain ⟨en, hlog₁, hen⟩ :=
    acknowledge_log hw start .enable .cConnection c₁
  generalize acknowledge hw start .enable .cConnection c₁ = c₂ at *
  obtain ⟨sus, hlog₂, hsus⟩ :=
    acknowledge_log hw start .suspend .cSuspend c₂
  generalize acknowledge hw start .suspend .cSuspend c₂ = c₃ at *
  obtain ⟨oc, hlog₃, hoc⟩ :=
    acknowledge_log hw start .overCurrent .cOverCurrent c₃
  generalize acknowledge hw start .overCurrent .cOverCurrent c₃ = c₄ at *
  obtain ⟨rst, hlog₄, hrst⟩ :=
    acknowledge_log hw start .reset .cReset c₄
  refine ⟨p.settle (hw 0), conn, other, en, sus, oc, rst, ?_, hconn, hother,
    hnot, hen, hsus, hoc, hrst⟩
  rw [← hrest, hlog₄, hlog₃, hlog₂, hlog₁, hlog]
  simp [Progress.send, hstart]

/-- A port that was enabled or disabled: the change is not cleared. -/
theorem Requests.not_cleared {log : List (HubReq × PortStatus)}
    (h : Requests start log) : ∀ e ∈ log,
      e.1 ≠ .clearFeature .cEnable := by
  obtain ⟨found, conn, other, en, sus, oc, rst, rfl, hconn, -, hnot, hen,
    hsus, hoc, hrst⟩ := h.parts
  intro e he
  simp only [List.mem_cons, List.mem_append] at he
  rcases he with rfl | he | he | he | he | he | he
  · nofun
  · exact hconn.not_enable nofun e he
  · exact hnot e he
  · exact hen.not_enable nofun e he
  · exact hsus.not_enable nofun e he
  · exact hoc.not_enable nofun e he
  · exact hrst.not_enable nofun e he

/-- Otherwise the changes are acknowledged. -/
theorem Requests.acknowledged {log : List (HubReq × PortStatus)}
    (h : Requests start log) (hoff : hasBit start .enable = false) :
    Acknowledged start log := by
  obtain ⟨found, conn, other, en, sus, oc, rst, rfl, hconn, hother, -, hen,
    hsus, hoc, hrst⟩ := h.parts
  -- the branch for the enable change was not entered
  have hnil : en = [] := by
    cases hen with
    | sent found hb =>
        rw [hoff] at hb
        cases hb
    | clear _ => rfl
  subst hnil
  constructor
  · intro f b hname hb
    cases f with
    | cConnection =>
        cases hname
        obtain ⟨found', hmem⟩ := hconn.cleared hb
        exact ⟨found', by simp [hmem]⟩
    | cEnable =>
        cases hname
        rw [hoff] at hb
        cases hb
    | cSuspend =>
        cases hname
        obtain ⟨found', hmem⟩ := hsus.cleared hb
        exact ⟨found', by simp [hmem]⟩
    | cOverCurrent =>
        cases hname
        obtain ⟨found', hmem⟩ := hoc.cleared hb
        exact ⟨found', by simp [hmem]⟩
    | cReset =>
        cases hname
        obtain ⟨found', hmem⟩ := hrst.cleared hb
        exact ⟨found', by simp [hmem]⟩
    | _ => cases hname
  -- no request clears a change that was not reported
  · show Spares start false (conn ++ _)
    refine (hconn.spares rfl false).append fun r => ?_
    refine (hother r).append fun r => ?_
    refine (hsus.spares rfl r).append fun r => ?_
    refine (hoc.spares rfl r).append fun r => ?_
    exact hrst.spares rfl r

/-- When a call returns, the changes that it read at the start have been
acknowledged, and no others, if and only if these were not a change of the
enable bit: that one is not acknowledged by its name. -/
theorem acknowledged_iff {port fuel : Nat} {p : PortStatus}
    (hport : port ≠ 0)
    (h : handlePortChange hw newDevice fuel port ⟨p, 0, []⟩ = some c') :
    Acknowledged (p.settle (hw 0)).wPortChange c'.log
      ↔ hasBit (p.settle (hw 0)).wPortChange .enable = false := by
  have hreq := handlePortChange_log hport h
  constructor
  · intro hack
    cases hb : hasBit (p.settle (hw 0)).wPortChange .enable with
    | false => rfl
    | true =>
        obtain ⟨found, hmem⟩ := hack.cleared .cEnable .enable rfl hb
        exact absurd rfl (hreq.not_cleared _ hmem)
  · exact hreq.acknowledged

/-- A device is attached while the port reports the end of a reset. -/
theorem acknowledged_iff_sample :
    ∃ c', handlePortChange (fun _ => ⟨mask 0, mask 3⟩) (fun _ => 0) 1 1
        ⟨⟨0, mask 0 ||| mask 4⟩, 0, []⟩ = some c'
      ∧ Acknowledged (mask 0 ||| mask 3 ||| mask 4) c'.log := by
  refine ⟨_, rfl, ?_⟩
  have hrun : handlePortChange (fun _ => ⟨mask 0, mask 3⟩) (fun _ => 0) 1 1
      ⟨⟨0, mask 0 ||| mask 4⟩, 0, []⟩ = some _ := rfl
  exact (acknowledged_iff (by decide) hrun).2 (by decide)

/-- A port is disabled by the hub and then unplugged: the driver clears the
change of the connection, which it has not read, and the change of the
enable bit stays set. -/
theorem enable_change_stays :
    ∃ c', handlePortChange
        (fun n => if n = 0 then ⟨mask 0, mask 1⟩ else ⟨0, mask 0⟩)
        (fun _ => 0) 1 1 ⟨⟨mask 0, 0⟩, 0, []⟩ = some c'
      ∧ c'.log = [(.getStatus, ⟨mask 0, mask 1⟩),
        (.clearFeature .cConnection, ⟨0, mask 1 ||| mask 0⟩)]
      ∧ c'.port.wPortChange = mask 1
      ∧ ¬Acknowledged (mask 1) c'.log := by
  refine ⟨_, rfl, rfl, by decide, ?_⟩
  intro hack
  obtain ⟨found, hmem⟩ := hack.cleared .cEnable .enable rfl (by decide)
  rcases List.mem_cons.1 hmem with heq | hmem
  · cases heq
  · rcases List.mem_cons.1 hmem with heq | hmem
    · cases heq
    · cases hmem

end ProjectsLibs.Usb.Hub
