/-
The reset handshake of two IVC endpoints, by ownership.

Every word of shared memory has one writer, so the state splits into two
parties: a party is what one end owns, of either channel. `Moves` says
once what a step can do: it changes the acting party only, and looks at
the other's state, counters and frames. The invariant is a symmetric
relation between the parties (`Agree`), so one orientation is enough.

# The invariant

- `Local`: a party in the ack state is clean, and the clears of
  `tegra_ivc_channel_notified` have happened where its `pc` says.
- `Pair.pending`: a party on its way to the established state has a peer
  in the ack state, or already established while the party itself is in
  the ack state and clean.
- `Pair.syncing`, `Pair.clearing`: who clears counters has a peer that
  is not using them.
- `Pair.session`: an established party with a peer that does not ask for
  a reset is in a session: both directions are in use as queues.

The one step that can break `Pair.pending` is a reset of the peer of a
party on its way; `Moves.reset` excludes it.
-/
import ProjectsLibs.Ivc.System
import ProjectsLibs.Ivc.Proofs.Direction

namespace ProjectsLibs.Ivc

open Lib

variable {α : Type}

-- ============================================================= parties

/-- What one end owns. -/
structure Party (α : Type) where
  boot : Boot
  nframes : UInt32
  st : IvcState
  pc : Pc
  tx : Writer α
  rx : Reader α

/-- The party of `p`: its state and `w_count` are in its own channel,
its `r_count` in its peer's. -/
def System.party (s : System α) (p : Side) : Party α where
  boot := (s.ep p).boot
  nframes := (s.ep p).ivc.nframes
  st := (s.chan p).state
  pc := (s.ep p).pc
  tx :=
    { count := (s.chan p).wCount
      pos := (s.ep p).ivc.wPos
      frames := (s.chan p).frames
      held := (s.ep p).held
      log := (s.ep p).written }
  rx :=
    { count := (s.chan p.peer).rCount
      pos := (s.ep p).ivc.rPos
      log := (s.ep p).read }

/-- On the way to the established state: what is left of the call will
store it, unless the peer is still to be looked at. -/
def Pc.establishing (own : IvcState) : Pc → Prop
  | .idle => False
  | .loaded x => reaction own x = .move .established
      ∨ reaction own x = .clear .established
  | .clearedW t => t = .established
  | .clearedR t => t = .established

/-- The call will not store anything. -/
def Pc.quiet (own : IvcState) : Pc → Prop
  | .idle => True
  | .loaded x => reaction own x = .nothing
  | .clearedW _ => False
  | .clearedR _ => False

/-- The call has seen the peer ask for a reset, or is clearing. -/
def Pc.clearing : Pc → Prop
  | .idle => False
  | .loaded x => x = .sync
  | .clearedW _ => True
  | .clearedR _ => True

namespace Party

/-- Both counters cleared and unused since. -/
def Clean (a : Party α) : Prop := a.tx.Clean ∧ a.rx.Clean

/-- Between calls. -/
def Ready (a : Party α) : Prop := a.boot = .running ∧ a.pc = .idle

end Party

/-- What one step of a party does to it, in front of its peer `b`. -/
inductive Moves (nframes : UInt32) (a b : Party α) : Party α → Prop
  | same : Moves nframes a b a
  | init : a.boot = .off →
      Moves nframes a b { a with
        boot := .inited
        nframes := nframes
        tx := { a.tx with pos := 0 }
        rx := { a.rx with pos := 0 } }
  | reset : a.boot ≠ .off → a.pc = .idle → ¬b.pc.establishing b.st →
      Moves nframes a b { a with boot := .running, st := .sync }
  | load : a.Ready → Moves nframes a b { a with pc := .loaded b.st }
  | leave {x : IvcState} : a.pc = .loaded x → reaction a.st x = .nothing →
      Moves nframes a b { a with pc := .idle }
  | move {x t : IvcState} : a.pc = .loaded x → reaction a.st x = .move t →
      Moves nframes a b { a with st := t, pc := .idle }
  | clearW {x t : IvcState} : a.pc = .loaded x →
      reaction a.st x = .clear t →
      Moves nframes a b { a with
        pc := .clearedW t
        tx := { a.tx with count := 0, log := [] } }
  | clearR {t : IvcState} : a.pc = .clearedW t →
      Moves nframes a b { a with
        pc := .clearedR t
        tx := { a.tx with pos := 0 }
        rx := { count := 0, pos := 0, log := [] } }
  | settle {t : IvcState} : a.pc = .clearedR t →
      Moves nframes a b { a with st := t, pc := .idle }
  | get : a.Ready → a.st = .established →
      a.tx.count - b.rx.count < a.nframes →
      Moves nframes a b
        { a with tx := { a.tx with held := some a.tx.pos.toNat } }
  | fill {k : Nat} (x : α) : a.Ready → a.tx.held = some k →
      Moves nframes a b { a with
        tx := { a.tx with frames := Function.update a.tx.frames k x } }
  | write : a.Ready → a.st = .established →
      a.tx.count - b.rx.count < a.nframes →
      Moves nframes a b { a with
        tx := { a.tx with
          count := a.tx.count + 1
          pos := nextPos a.nframes a.tx.pos
          held := none
          log := a.tx.log ++ [a.tx.frames a.tx.pos.toNat] } }
  | read : a.Ready → a.st = .established → b.tx.count ≠ a.rx.count →
      Moves nframes a b { a with
        rx :=
          { count := a.rx.count + 1
            pos := nextPos a.nframes a.rx.pos
            log := a.rx.log ++ [b.tx.frames a.rx.pos.toNat] } }

-- ========================================================= the invariant

/-- What holds of a party by itself. -/
structure Local (nframes : UInt32) (a : Party α) : Prop where
  nframes_eq : a.boot ≠ .off → a.nframes = nframes
  idle : a.boot ≠ .running → a.pc = .idle
  known : a.boot = .running → a.st ≠ .other
  ack_clean : a.boot = .running → a.st = .ack → a.Clean
  cleared_w : ∀ t, a.pc = .clearedW t → a.tx.count = 0 ∧ a.tx.log = []
  cleared_r : ∀ t, a.pc = .clearedR t → a.Clean
  target : ∀ t, a.pc = .clearedW t ∨ a.pc = .clearedR t →
    t = .ack ∨ t = .established ∧ a.st = .sync

/-- What holds of a started party `a` in front of a started peer `b`. -/
structure Pair (nframes : UInt32) (a b : Party α) : Prop where
  pending : a.pc.establishing a.st →
    b.st = .ack ∨ b.st = .established ∧ a.st = .ack
  syncing : b.st = .established → a.st = .sync → a.pc.quiet a.st
  clearing : a.st = .established → a.pc.clearing → b.st = .sync
  session : a.st = .established → b.st ≠ .sync →
    Direction nframes a.tx b.rx ∧ Direction nframes b.tx a.rx

/-- The invariant of the two parties. -/
structure Agree (nframes : UInt32) (a b : Party α) : Prop where
  left : Local nframes a
  right : Local nframes b
  pair : a.boot = .running → b.boot = .running →
    Pair nframes a b ∧ Pair nframes b a

/-- The invariant has no orientation. -/
theorem Agree.symm {nframes : UInt32} {a b : Party α}
    (h : Agree nframes a b) : Agree nframes b a :=
  ⟨h.right, h.left, fun hb ha => (h.pair ha hb).symm⟩

-- ============================================================ reactions

/-- Only an endpoint in the ack state moves without clearing, and only to
the established state. -/
theorem reaction_move {own x t : IvcState} (h : reaction own x = .move t) :
    own = .ack ∧ x ≠ .sync ∧ t = .established := by
  revert h
  cases own <;> cases x <;> cases t <;> decide

/-- An endpoint clears its counters when its peer asks for it, or when
its own request was answered. -/
theorem reaction_clear {own x t : IvcState} (h : reaction own x = .clear t) :
    x = .sync ∧ t = .ack
      ∨ x = .ack ∧ own = .sync ∧ t = .established := by
  revert h
  cases own <;> cases x <;> cases t <;> decide

/-- A clean party is not changed by its clears. -/
theorem Writer.Clean.clear_eq {wr : Writer α} (h : wr.Clean) :
    { wr with count := 0, log := [] } = wr := by
  cases wr
  obtain ⟨hc, -, hl⟩ := h
  cases hc
  cases hl
  rfl

/-- Likewise for the reader's half. -/
theorem Reader.Clean.clear_eq {rd : Reader α} (h : rd.Clean) :
    { count := 0, pos := 0, log := [] } = rd := by
  cases rd
  obtain ⟨hc, hp, hl⟩ := h
  cases hc
  cases hp
  cases hl
  rfl

namespace Local

variable {nframes : UInt32} {a : Party α}

/-- An established party is not on its way to become one. -/
theorem not_establishing (h : Local nframes a)
    (hst : a.st = .established) : ¬a.pc.establishing a.st := by
  intro hp
  cases hpc : a.pc with
  | idle =>
      rw [hpc] at hp
      exact hp
  | loaded x =>
      rw [hpc] at hp
      rcases hp with hp | hp
      · rw [hst] at hp
        cases (reaction_move hp).1
      · rcases reaction_clear hp with ⟨-, ht⟩ | ⟨-, hown, -⟩
        · cases ht
        · rw [hst] at hown
          cases hown
  | clearedW t =>
      rw [hpc] at hp
      rcases h.target t (Or.inl hpc) with ht | ⟨-, hs⟩
      · cases hp.symm.trans ht
      · cases hst.symm.trans hs
  | clearedR t =>
      rw [hpc] at hp
      rcases h.target t (Or.inr hpc) with ht | ⟨-, hs⟩
      · cases hp.symm.trans ht
      · cases hst.symm.trans hs

/-- The three states of a started party. -/
theorem st_cases (h : Local nframes a) (hrun : a.boot = .running) :
    a.st = .established ∨ a.st = .sync ∨ a.st = .ack := by
  have hk := h.known hrun
  cases hst : a.st with
  | established => exact Or.inl rfl
  | sync => exact Or.inr (Or.inl rfl)
  | ack => exact Or.inr (Or.inr rfl)
  | other => exact absurd hst hk

/-- A party between calls. -/
theorem of_idle (hpc : a.pc = .idle)
    (hnf : a.boot ≠ .off → a.nframes = nframes)
    (hknown : a.boot = .running → a.st ≠ .other)
    (hack : a.boot = .running → a.st = .ack → a.Clean) :
    Local nframes a := by
  refine ⟨hnf, fun _ => hpc, hknown, hack, ?_, ?_, ?_⟩
  · intro t ht
    cases hpc.symm.trans ht
  · intro t ht
    cases hpc.symm.trans ht
  · intro t ht
    rcases ht with ht | ht
    · cases hpc.symm.trans ht
    · cases hpc.symm.trans ht

/-- A party inside a call has started. -/
theorem running_of_pc (h : Local nframes a) (hpc : a.pc ≠ .idle) :
    a.boot = .running := by
  by_contra hb
  exact hpc (h.idle hb)

end Local

-- ================================================== one step, by the move

namespace Agree

variable {nframes : UInt32} {a b : Party α}

/-- The peer's side of the invariant only looks at the state and the
two halves of the channels. -/
theorem pair_of_same (h : Pair nframes b a) {boot : Boot} {pc : Pc} :
    Pair nframes b { a with boot := boot, pc := pc } :=
  ⟨h.pending, h.syncing, h.clearing, h.session⟩

/-- `tegra_ivc_init`. -/
theorem init (h : Agree nframes a b) (hoff : a.boot = .off) :
    Agree nframes { a with
      boot := .inited
      nframes := nframes
      tx := { a.tx with pos := 0 }
      rx := { a.rx with pos := 0 } } b := by
  have hpc : a.pc = .idle := h.left.idle (by rw [hoff]; decide)
  refine ⟨Local.of_idle hpc (fun _ => rfl) ?_ ?_, h.right, ?_⟩
  · intro hrun
    cases hrun
  · intro hrun
    cases hrun
  · intro hrun
    cases hrun

/-- `tegra_ivc_channel_reset`, when the peer is not on its way to the
established state. -/
theorem reset (h : Agree nframes a b) (hboot : a.boot ≠ .off)
    (hpc : a.pc = .idle) (hok : ¬b.pc.establishing b.st) :
    Agree nframes { a with boot := .running, st := .sync } b := by
  refine ⟨Local.of_idle hpc (fun _ => h.left.nframes_eq hboot) ?_ ?_,
    h.right, fun _ _ => ⟨⟨?_, ?_, ?_, ?_⟩, ⟨?_, ?_, ?_, ?_⟩⟩⟩
  · intro _ hst
    cases hst
  · intro _ hst
    cases hst
  · intro hp
    simp only [hpc, Pc.establishing] at hp
  · intro _ _
    simp only [hpc, Pc.quiet]
  · intro hst
    cases hst
  · intro hst
    cases hst
  · intro hp
    exact absurd hp hok
  · intro hst
    cases hst
  · intro _ _
    rfl
  · intro _ hne
    exact absurd rfl hne

/-- The load of the peer's state. -/
theorem load (h : Agree nframes a b) (hr : a.Ready) :
    Agree nframes { a with pc := .loaded b.st } b := by
  have hl := h.left
  refine ⟨⟨hl.nframes_eq, fun hrun => absurd hr.1 hrun, hl.known,
    hl.ack_clean, ?_, ?_, ?_⟩, h.right, ?_⟩
  · intro t ht
    cases ht
  · intro t ht
    cases ht
  · intro t ht
    rcases ht with ht | ht
    · cases ht
    · cases ht
  · intro _ hb
    obtain ⟨hp, hp'⟩ := h.pair hr.1 hb
    refine ⟨⟨?_, ?_, fun _ hs => hs, hp.session⟩, pair_of_same hp'⟩
    · intro hest
      rcases hest with hm | hc
      · obtain ⟨hown, hne, -⟩ := reaction_move hm
        rcases h.right.st_cases hb with hst | hst | hst
        · exact Or.inr ⟨hst, hown⟩
        · exact absurd hst hne
        · exact Or.inl hst
      · rcases reaction_clear hc with ⟨-, ht⟩ | ⟨hst, -, -⟩
        · cases ht
        · exact Or.inl hst
    · intro hst hown
      show reaction a.st b.st = .nothing
      rw [hst, show a.st = .sync from hown]
      rfl

/-- A return without a store. -/
theorem leave (h : Agree nframes a b) {x : IvcState}
    (hpc : a.pc = .loaded x) : Agree nframes { a with pc := .idle } b := by
  have hl := h.left
  have hrun := hl.running_of_pc (by rw [hpc]; intro hc; cases hc)
  refine ⟨Local.of_idle rfl hl.nframes_eq hl.known hl.ack_clean, h.right,
    fun _ hb => ?_⟩
  obtain ⟨hp, hp'⟩ := h.pair hrun hb
  exact ⟨⟨fun hest => absurd hest id, fun _ _ => trivial,
    fun _ hc => absurd hc id, hp.session⟩, pair_of_same hp'⟩

/-- A store of the own state that no counter was cleared for: from ack to
established. -/
theorem move (h : Agree nframes a b) {x t : IvcState}
    (hpc : a.pc = .loaded x) (hre : reaction a.st x = .move t) :
    Agree nframes { a with st := t, pc := .idle } b := by
  have hl := h.left
  have hrun := hl.running_of_pc (by rw [hpc]; intro hc; cases hc)
  obtain ⟨hack, -, rfl⟩ := reaction_move hre
  refine ⟨Local.of_idle rfl hl.nframes_eq ?_ ?_, h.right, fun _ hb => ?_⟩
  · intro _ hst
    cases hst
  · intro _ hst
    cases hst
  obtain ⟨hp, hp'⟩ := h.pair hrun hb
  have hest : a.pc.establishing a.st := by
    rw [hpc]
    exact Or.inl hre
  have hpeer : b.st = .ack ∨ b.st = .established := by
    rcases hp.pending hest with hst | ⟨hst, -⟩
    · exact Or.inl hst
    · exact Or.inr hst
  have hsync : b.st ≠ .sync := by
    rcases hpeer with hst | hst <;> rw [hst] <;> decide
  -- the peer is as clean as we are, or has begun the session before us
  have hsession : Direction nframes a.tx b.rx
      ∧ Direction nframes b.tx a.rx := by
    rcases hpeer with hst | hst
    · obtain ⟨htx, hrx⟩ := hl.ack_clean hrun hack
      obtain ⟨htx', hrx'⟩ := h.right.ack_clean hb hst
      exact ⟨Direction.fresh htx hrx', Direction.fresh htx' hrx⟩
    · have hne : a.st ≠ .sync := by rw [hack]; decide
      exact (hp'.session hst hne).symm
  refine ⟨⟨fun hc => absurd hc id, ?_, fun _ hc => absurd hc id,
    fun _ _ => hsession⟩, ⟨?_, ?_, ?_, fun _ _ => hsession.symm⟩⟩
  · intro _ hst
    cases hst
  · intro hest'
    rcases hpeer with hst | hst
    · exact Or.inr ⟨rfl, hst⟩
    · exact absurd hest' (h.right.not_establishing hst)
  · intro _ hst
    exact absurd hst hsync
  · intro hst hc
    cases hack.symm.trans (hp'.clearing hst hc)

/-- A party that is about to clear or has begun to, in front of an
established peer, is in the ack state: it is clean already. -/
theorem ack_of_clearing (h : Agree nframes a b) (hrun : a.boot = .running)
    (hb : b.boot = .running) (hst : b.st = .established)
    (hquiet : ¬a.pc.quiet a.st)
    (hclear : a.st = .established → a.pc.clearing) : a.st = .ack := by
  obtain ⟨hp, -⟩ := h.pair hrun hb
  rcases h.left.st_cases hrun with ha | ha | ha
  · cases hst.symm.trans (hp.clearing ha (hclear ha))
  · exact absurd (hp.syncing hst ha) hquiet
  · exact ha

/-- `w_count` is cleared. -/
theorem clearW (h : Agree nframes a b) {x t : IvcState}
    (hpc : a.pc = .loaded x) (hre : reaction a.st x = .clear t) :
    Agree nframes { a with
      pc := .clearedW t
      tx := { a.tx with count := 0, log := [] } } b := by
  have hl := h.left
  have hrun := hl.running_of_pc (by rw [hpc]; intro hc; cases hc)
  have hquiet : ¬a.pc.quiet a.st := by
    rw [hpc]
    intro hq
    cases hq.symm.trans hre
  have hclear : a.st = .established → a.pc.clearing := by
    intro hst
    rw [hpc]
    rcases reaction_clear hre with ⟨hx, -⟩ | ⟨-, hown, -⟩
    · exact hx
    · cases hst.symm.trans hown
  refine ⟨⟨hl.nframes_eq, fun hb => absurd hrun hb, hl.known, ?_,
    fun _ _ => ⟨rfl, rfl⟩, ?_, ?_⟩, h.right, fun _ hb => ?_⟩
  · intro _ hack
    obtain ⟨htx, hrx⟩ := hl.ack_clean hrun hack
    exact ⟨⟨rfl, htx.pos_eq, rfl⟩, hrx⟩
  · intro t ht
    cases ht
  · intro t' ht
    rcases ht with ht | ht
    · cases ht
      rcases reaction_clear hre with ⟨-, ht⟩ | ⟨-, hown, ht⟩
      · exact Or.inl ht
      · exact Or.inr ⟨ht, hown⟩
    · cases ht
  obtain ⟨hp, hp'⟩ := h.pair hrun hb
  refine ⟨⟨?_, ?_, ?_, ?_⟩,
    ⟨hp'.pending, hp'.syncing, hp'.clearing, ?_⟩⟩
  · intro hest
    refine hp.pending ?_
    rw [hpc]
    exact Or.inr (hre.trans (congrArg Reaction.clear hest))
  · intro hst hown
    exact absurd (hp.syncing hst hown) hquiet
  · intro hst _
    exact hp.clearing hst (hclear hst)
  · intro hst hne
    exact absurd (hp.clearing hst (hclear hst)) hne
  · intro hst hne
    have hack := h.ack_of_clearing hrun hb hst hquiet hclear
    show Direction nframes b.tx a.rx
      ∧ Direction nframes { a.tx with count := 0, log := [] } b.rx
    rw [(hl.ack_clean hrun hack).1.clear_eq]
    exact hp'.session hst hne

/-- `r_count` and the positions are cleared. -/
theorem clearR (h : Agree nframes a b) {t : IvcState}
    (hpc : a.pc = .clearedW t) :
    Agree nframes { a with
      pc := .clearedR t
      tx := { a.tx with pos := 0 }
      rx := { count := 0, pos := 0, log := [] } } b := by
  have hl := h.left
  have hrun := hl.running_of_pc (by rw [hpc]; intro hc; cases hc)
  have hquiet : ¬a.pc.quiet a.st := by
    rw [hpc]
    exact id
  have hclear : a.pc.clearing := by
    rw [hpc]
    trivial
  obtain ⟨hcount, hlog⟩ := hl.cleared_w t hpc
  refine ⟨⟨hl.nframes_eq, fun hb => absurd hrun hb, hl.known, ?_, ?_, ?_,
    ?_⟩, h.right, fun _ hb => ?_⟩
  · intro _ _
    exact ⟨⟨hcount, rfl, hlog⟩, ⟨rfl, rfl, rfl⟩⟩
  · intro t' ht
    cases ht
  · intro _ _
    exact ⟨⟨hcount, rfl, hlog⟩, ⟨rfl, rfl, rfl⟩⟩
  · intro t' ht
    rcases ht with ht | ht
    · cases ht
    · cases ht
      exact hl.target t (Or.inl hpc)
  obtain ⟨hp, hp'⟩ := h.pair hrun hb
  refine ⟨⟨?_, ?_, ?_, ?_⟩,
    ⟨hp'.pending, hp'.syncing, hp'.clearing, ?_⟩⟩
  · intro hest
    refine hp.pending ?_
    rw [hpc]
    exact hest
  · intro hst hown
    exact absurd (hp.syncing hst hown) hquiet
  · intro hst _
    exact hp.clearing hst hclear
  · intro hst hne
    exact absurd (hp.clearing hst hclear) hne
  · intro hst hne
    have hack := h.ack_of_clearing hrun hb hst hquiet fun _ => hclear
    obtain ⟨htx, hrx⟩ := hl.ack_clean hrun hack
    obtain ⟨hbt, hat⟩ := hp'.session hst hne
    refine ⟨?_, ?_⟩
    · show Direction nframes b.tx { count := 0, pos := 0, log := [] }
      rw [hrx.clear_eq]
      exact hbt
    · show Direction nframes { a.tx with pos := 0 } b.rx
      rw [← htx.pos_eq]
      exact hat

/-- The store of the own state after the clears. -/
theorem settle (h : Agree nframes a b) {t : IvcState}
    (hpc : a.pc = .clearedR t) :
    Agree nframes { a with st := t, pc := .idle } b := by
  have hl := h.left
  have hrun := hl.running_of_pc (by rw [hpc]; intro hc; cases hc)
  have hclean := hl.cleared_r t hpc
  have htarget := hl.target t (Or.inr hpc)
  have hquiet : ¬a.pc.quiet a.st := by
    rw [hpc]
    exact id
  have hclear : a.pc.clearing := by
    rw [hpc]
    trivial
  refine ⟨Local.of_idle rfl hl.nframes_eq ?_ fun _ _ => hclean, h.right,
    fun _ hb => ?_⟩
  · intro _ hst
    rcases htarget with ht | ⟨ht, -⟩
    · cases ht.symm.trans hst
    · cases ht.symm.trans hst
  obtain ⟨hp, hp'⟩ := h.pair hrun hb
  -- on the way to established from sync, the peer waits in ack
  have hpeer : t = .established → a.st = .sync ∧ b.st = .ack := by
    intro ht
    have hest : a.pc.establishing a.st := by
      rw [hpc]
      exact ht
    rcases htarget with hack | ⟨-, hsync⟩
    · cases ht.symm.trans hack
    · rcases hp.pending hest with hst | ⟨-, hst⟩
      · exact ⟨hsync, hst⟩
      · cases hsync.symm.trans hst
  refine ⟨⟨fun hc => absurd hc id, ?_, fun _ hc => absurd hc id, ?_⟩,
    ⟨?_, ?_, ?_, ?_⟩⟩
  · intro _ hst
    rcases htarget with ht | ⟨ht, -⟩
    · cases ht.symm.trans hst
    · cases ht.symm.trans hst
  · intro hst _
    obtain ⟨htx', hrx'⟩ := h.right.ack_clean hb (hpeer hst).2
    exact ⟨Direction.fresh hclean.1 hrx', Direction.fresh htx' hclean.2⟩
  · intro hest
    rcases htarget with ht | ⟨ht, -⟩
    · exact Or.inl ht
    · have hsync := (hpeer ht).1
      rcases hp'.pending hest with hst | ⟨hst, -⟩
      · cases hsync.symm.trans hst
      · cases hsync.symm.trans hst
  · intro hst hown
    cases (hpeer hst).2.symm.trans hown
  · intro hst hc
    have hsync := hp'.clearing hst hc
    exact absurd (hp.syncing hst hsync) hquiet
  · intro hst _
    have hack := h.ack_of_clearing hrun hb hst hquiet fun _ => hclear
    have hne : a.st ≠ .sync := by
      rw [hack]
      decide
    exact hp'.session hst hne

/-- A step between calls that changes the party's halves of the channels
only, and keeps both directions of a session. -/
theorem data (h : Agree nframes a b) {tx : Writer α} {rx : Reader α}
    (hr : a.Ready) (hclean : a.st = .ack → a.Clean → tx.Clean ∧ rx.Clean)
    (htx : Direction nframes a.tx b.rx → Direction nframes tx b.rx)
    (hrx : Direction nframes b.tx a.rx → Direction nframes b.tx rx) :
    Agree nframes { a with tx := tx, rx := rx } b := by
  have hl := h.left
  refine ⟨Local.of_idle hr.2 hl.nframes_eq hl.known ?_, h.right,
    fun _ hb => ?_⟩
  · intro hrun hack
    exact hclean hack (hl.ack_clean hrun hack)
  obtain ⟨hp, hp'⟩ := h.pair hr.1 hb
  refine ⟨⟨hp.pending, hp.syncing, hp.clearing, ?_⟩,
    ⟨hp'.pending, hp'.syncing, hp'.clearing, ?_⟩⟩
  · intro hst hne
    exact ⟨htx (hp.session hst hne).1, hrx (hp.session hst hne).2⟩
  · intro hst hne
    exact ⟨hrx (hp'.session hst hne).1, htx (hp'.session hst hne).2⟩

/-- One step keeps the invariant. -/
theorem of_moves (hnf : 0 < nframes.toNat) {a' : Party α}
    (h : Agree nframes a b) (hm : Moves nframes a b a') :
    Agree nframes a' b := by
  have hframes : a.Ready → a.nframes = nframes := by
    intro hr
    refine h.left.nframes_eq ?_
    rw [hr.1]
    decide
  cases hm with
  | same => exact h
  | init hoff => exact h.init hoff
  | reset hboot hpc hok => exact h.reset hboot hpc hok
  | load hr => exact h.load hr
  | leave hpc hre => exact h.leave hpc
  | move hpc hre => exact h.move hpc hre
  | clearW hpc hre => exact h.clearW hpc hre
  | clearR hpc => exact h.clearR hpc
  | settle hpc => exact h.settle hpc
  | get hr hst hroom =>
      rw [hframes hr] at hroom
      refine h.data hr (fun hack => ?_) (fun hd => hd.get hroom) id
      cases hst.symm.trans hack
  | fill x hr hk =>
      refine h.data hr (fun _ hc => ?_) (fun hd => hd.fill hk x) id
      exact ⟨⟨hc.1.count_eq, hc.1.pos_eq, hc.1.log_eq⟩, hc.2⟩
  | write hr hst hroom =>
      rw [hframes hr] at hroom
      refine h.data hr (fun hack => ?_) (fun hd => ?_) id
      · cases hst.symm.trans hack
      · rw [hframes hr]
        exact hd.write hroom
  | read hr hst hne =>
      refine h.data hr (fun hack => ?_) id fun hd => ?_
      · cases hst.symm.trans hack
      · rw [hframes hr]
        exact hd.read hnf hne

end Agree

end ProjectsLibs.Ivc
