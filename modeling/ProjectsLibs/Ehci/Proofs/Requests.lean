/-
A control request on the bus: when a call of `ehci_schedule_xact` meets
the transfer contract (`bus_contract`).

# Shape of the argument

- `enqueue_ready`: `qtd_alloc` and `qtd_enqueue` leave the queue head with
  the requests in front and this one behind them.
- `pass_eq` is one pass: it takes away the groups at the front that it
  finds finished. `passes_eq` is the run of those that come before the
  request is over; they leave `leftBy` and do not call its callback.
- `own_bytes`: the bytes that the descriptors of a finished request leave
  are the data bytes that were not transferred. A call that waits adds
  them up (`bus_blocking`); so does the last pass, but it starts with what
  requests without a callback have left in front (`sumOver_toNat`), which
  the condition of `bus_callback` excludes.
-/
import Mathlib.Algebra.Group.Action.Defs
import Mathlib.Algebra.Order.BigOperators.Group.List
import Mathlib.Algebra.Order.Ring.Nat
import ProjectsLibs.Ehci.Proofs.Bytes

namespace ProjectsLibs.Ehci

open Lib

-- ======================================================= the controller

namespace Completes

variable {old final : TdId → UInt32} {tds : List TdId}

/-- The interrupt bits stay. -/
theorem ioc (h : Completes old final tds) :
    ∀ t ∈ tds, testBit (final t) tdtokIoc = testBit (old t) tdtokIoc := by
  induction tds with
  | nil => nofun
  | cons u tds ih =>
      intro t ht
      rcases h with ⟨hu, htail⟩ | ⟨hu, hrest⟩
      · rcases List.mem_cons.1 ht with rfl | ht
        · exact hu.2.1
        · exact ih htail t ht
      · rcases List.mem_cons.1 ht with rfl | ht
        · exact hu.2
        · rw [hrest t ht]

/-- Descriptors that are not halted on are finished. -/
theorem retired (h : Completes old final tds)
    (hnot : ∀ t ∈ tds, testBit (final t) tdtokShalted = false) :
    ∀ t ∈ tds, Retired (old t) (final t) := by
  induction tds with
  | nil => nofun
  | cons u tds ih =>
      intro t ht
      rcases h with ⟨hu, htail⟩ | ⟨hu, -⟩
      · rcases List.mem_cons.1 ht with rfl | ht
        · exact hu
        · exact ih htail (fun v hv => hnot v (List.mem_cons_of_mem _ hv)) t ht
      · have hhalt := hu.1
        rw [hnot u (List.mem_cons_self ..)] at hhalt
        cases hhalt

end Completes

/-- A descriptor that has succeeded is not halted. -/
theorem not_halted {w : UInt32} (h : qtdGetStatus w = .success) :
    testBit w tdtokShalted = false := ((status_success_iff w).1 h).2

/-- A request is finished if all of its descriptors have succeeded. -/
theorem finished_iff {w : Turn} {g : CbGrp} :
    w.finished g = true
      ↔ ∀ t ∈ g.2, qtdGetStatus (w.token t) = .success := by
  unfold Turn.finished
  simp

theorem not_finished_iff {w : Turn} {g : CbGrp} : w.finished g = false
    ↔ ∃ t ∈ g.2, qtdGetStatus (w.token t) ≠ .success := by
  rw [← Bool.not_eq_true, finished_iff]
  push Not
  rfl

-- ============================================================== the front

section front

variable {α : Type} {p : α → Bool} {l fin rest : List α} {a : α}

/-- A list is split in one way in front of the first element that is not
as the others. -/
theorem split_front (h : l = fin ++ rest) (hfin : ∀ x ∈ fin, p x = true)
    (hrest : ∀ x ∈ rest.head?, p x = false) :
    fin = l.takeWhile p ∧ rest = l.dropWhile p := by
  have htake : rest.takeWhile p = [] ∧ rest.dropWhile p = rest := by
    cases rest with
    | nil => exact ⟨rfl, rfl⟩
    | cons x rest =>
        have hx : p x = false := hrest x rfl
        simp [hx]
  rw [h, List.takeWhile_append_of_pos hfin, List.dropWhile_append_of_pos hfin,
    htake.1, htake.2, List.append_nil]
  exact ⟨rfl, rfl⟩

/-- An element that stops the drop stays, and so does all behind it. -/
theorem dropWhile_concat (ha : p a = false) :
    (l ++ [a]).dropWhile p = l.dropWhile p ++ [a] := by
  rw [List.dropWhile_append]
  cases hl : l.dropWhile p with
  | nil => simp [ha]
  | cons x l' => simp

/-- An element that stops the drop is never dropped. -/
theorem mem_dropWhile (h : a ∈ l) (ha : p a = false) :
    a ∈ l.dropWhile p := by
  rw [← List.takeWhile_append_dropWhile (p := p) (l := l),
    List.mem_append] at h
  rcases h with h | h
  · rw [List.mem_takeWhile_imp h] at ha
    cases ha
  · exact h

/-- The elements in front of one that is not as the others. -/
theorem mem_of_mem_takeWhile_concat {x : α}
    (h : ∃ y ∈ l ++ [a], p y = false)
    (hx : x ∈ (l ++ [a]).takeWhile p) : x ∈ l := by
  rw [List.takeWhile_append] at hx
  split at hx
  · next hlen =>
      have hall : l.takeWhile p = l := List.Sublist.eq_of_length
        (List.takeWhile_sublist p) hlen
      obtain ⟨y, hy, hnot⟩ := h
      rcases List.mem_append.1 hy with hy | hy
      · rw [← hall] at hy
        rw [List.mem_takeWhile_imp hy] at hnot
        cases hnot
      · rw [List.mem_singleton.1 hy] at hnot
        rw [List.takeWhile_cons_of_neg (by simp [hnot]),
          List.append_nil] at hx
        exact hx
  · exact (List.takeWhile_sublist p).subset hx

end front

variable {ws : List Turn} {gs : List CbGrp} {g : CbGrp}

/-- A request that never finishes is still there at the end, behind those
left in front of it. -/
theorem leftBy_concat (h : ∀ w ∈ ws, w.finished g = false) :
    leftBy ws (gs ++ [g]) = leftBy ws gs ++ [g] := by
  induction ws generalizing gs with
  | nil => rfl
  | cons w ws ih =>
      rw [leftBy, leftBy, dropWhile_concat (h w (List.mem_cons_self ..)),
        ih fun v hv => h v (List.mem_cons_of_mem _ hv)]

theorem leftBy_sub : ∀ g ∈ leftBy ws gs, g ∈ gs := by
  induction ws generalizing gs with
  | nil => exact fun _ => id
  | cons w ws ih =>
      exact fun g hg => (List.dropWhile_sublist w.finished).subset (ih g hg)

/-- A group that no pass finds finished stays. -/
theorem mem_leftBy (hg : g ∈ gs) (h : ∀ w ∈ ws, w.finished g = false) :
    g ∈ leftBy ws gs := by
  induction ws generalizing gs with
  | nil => exact hg
  | cons w ws ih =>
      exact ih (mem_dropWhile hg (h w (List.mem_cons_self ..)))
        fun v hv => h v (List.mem_cons_of_mem _ hv)

/-- What the loop has behind groups is what those leave that have no
callback and behind which none has one. -/
theorem sumOver_toNat (tdns : TdId → TDn) (gs : List CbGrp) :
    (sumOver tdns 0 gs).toNat
      = uncalledBytes (fun t => (tdns t).token) gs % 2 ^ 32 := by
  induction gs using List.reverseRecOn with
  | nil => rfl
  | append_singleton gs g ih =>
      have hstep : sumOver tdns 0 (gs ++ [g])
          = sumAfter (addBytes tdns (sumOver tdns 0 gs) g.2) g.1 := by
        unfold sumOver
        rw [List.foldl_concat]
      rw [hstep]
      unfold uncalledBytes at ih ⊢
      obtain ⟨cb, tds⟩ := g
      cases cb with
      | some id =>
          rw [List.rtakeWhile_concat_neg _ _ _ (by simp)]
          rfl
      | none =>
          rw [List.rtakeWhile_concat_pos _ _ _ (by simp), flat_append,
            List.map_append, List.sum_append]
          show (addBytes tdns (sumOver tdns 0 gs) tds).toNat = _
          rw [addBytes_mod, ih, Nat.mod_add_mod, flat_cons,
            show flat ([] : List CbGrp) = [] from rfl, List.append_nil]
          rfl

/-- An `int` is a small number exactly if its word is. -/
theorem cInt_eq_iff {w : UInt32} {n : Nat} (hn : n < 2 ^ 31) :
    cInt w = (n : Int) ↔ w.toNat = n := by
  have hw : w.toBitVec.toNat = w.toNat := rfl
  have hlt := w.toNat_lt
  unfold cInt
  rw [BitVec.toInt_eq_toNat_cond, hw]
  split
  · omega
  · omega

-- =========================================================== the request

section bus

variable {i : BusCall} {host : AsyncHost}

/-- The queue head with the request behind the others. -/
structure Ready (i : BusCall) (host : AsyncHost) : Prop where
  queued : Queued host i.q (i.front ++ [i.own])
  bytes : i.tds.map (fun t => tdtokGetBytes (host.tdns t).token)
    = (groupTokens i.ep i.speed i.control.xacts).map tdtokGetBytes

/-- The descriptors of the call come behind those of the requests in front. -/
theorem flat_own (i : BusCall) :
    flat (i.front ++ [i.own]) = flat i.front ++ i.tds := by
  rw [flat_append, flat_cons, show flat ([] : List CbGrp) = [] from rfl,
    List.append_nil]
  rfl

/-- `qtd_alloc` and `qtd_enqueue` put the request behind those that the
queue head has. -/
theorem enqueue_ready (hok : i.Ok) :
    ∃ host, i.enqueue = .ok host ∧ Ready i host := by
  have hxact : i.control.xacts ≠ [] := nofun
  obtain ⟨hkeep, hleads, hgroup, hmapped⟩ := @qtdAlloc_eq i.ep i.speed
    i.control.xacts i.own.1 i.blocks i.host.tdns hxact hok.blocks
    hok.distinct
  have hbytes := @qtdAlloc_bytes i.ep i.speed i.control.xacts i.own.1
    i.blocks i.host.tdns hok.blocks hok.distinct
  -- the descriptors of the call are newly allocated, so the requests in
  -- front keep theirs
  have hfresh : ∀ u ∈ flat i.front, u ∉ i.tds :=
    fun u hu hmem => hok.fresh u hmem hu
  have hlen : i.tds.length = i.blocks.length := List.length_map ..
  have hfuel : i.fuel = (flat i.front).length + i.blocks.length + 2 := rfl
  have hqueued := hok.queued
  unfold BusCall.enqueue
  have htds : i.blocks.map Prod.fst = i.tds := rfl
  rw [htds] at hkeep hleads hgroup hmapped hbytes
  generalize qtdAlloc i.ep i.speed i.control.xacts i.own.1 i.blocks
    i.host.tdns = tdns₀ at *
  obtain ⟨t, rest, hcons⟩ : ∃ t rest, i.tds = t :: rest := by
    cases hnil : i.tds with
    | nil =>
        rw [hnil] at hgroup
        exact hgroup.elim
    | cons t rest => exact ⟨t, rest, rfl⟩
  have hhead : i.tds.head? = some t := by rw [hcons]; rfl
  have hold : Leads (fun u => (tdns₀ u).next) (i.host.qhns i.q).tdns
      (flat i.front) none :=
    hqueued.leads.congr fun u hu => congrArg TDn.next (hkeep u (hfresh u hu))
  have hmap : Mapped tdns₀ (flat i.front) := by
    intro u hu
    rw [hkeep u (hfresh u hu)]
    exact hqueued.mapped u hu
  rw [hhead] at hleads ⊢
  -- the last descriptor on the queue head is linked to the first of the
  -- call
  obtain ⟨host, hrun, hE⟩ := @qtdEnqueue_eq i.q
    { i.host with tdns := tdns₀ } t (flat i.front) i.tds i.fuel hold hleads
    hmap hmapped hok.fresh (by omega) (by omega)
  refine ⟨host, hrun, ⟨?_, ?_, ?_⟩, ?_⟩
  · rw [flat_own]
    exact hE.leads
  · rw [flat_own]
    intro u hu
    rcases List.mem_append.1 hu with hu | hu
    · exact (hE.td u).trans (hmap u hu)
    · exact (hE.td u).trans (hmapped u hu)
  · intro g hg
    rcases List.mem_append.1 hg with hg | hg
    · refine (hqueued.groups g hg).congr fun u hu => ?_
      have hnot := hfresh u (mem_flat.2 ⟨g, hg, hu⟩)
      obtain ⟨hcb, htoken⟩ := hE.same u hnot
      dsimp only at hcb htoken
      rw [hkeep u hnot] at hcb htoken
      refine ⟨hcb, ?_⟩
      unfold hasIoc
      rw [htoken]
    · rw [List.mem_singleton.1 hg]
      refine hgroup.congr fun u hu => ⟨(hE.new u hu).1, ?_⟩
      unfold hasIoc
      rw [(hE.new u hu).2]
      exact TDn.enable_ioc _
  · rw [← hbytes]
    apply List.map_congr_left
    intro u hu
    rw [(hE.new u hu).2, TDn.enable_bytes]

/-- In the runs of `xferStep` the queue heads of the ring have their
transactions as groups, each with its callback. -/
theorem queued_of_reachable {s : XferHost} {q : QhId}
    (h : Reachable XferInit xferStep XferOk s) (hq : q ∈ s.linked) :
    ∃ gs : List Grp, Queued s.xfer.host q (gs.map withCb) := by
  obtain ⟨gs, hI⟩ := xferInv_of_reachable h
  refine ⟨gs q, ?_, ?_, fun g hg => ?_⟩
  · rw [flat_withCb]
    exact hI.layout.leads (.inl hq)
  · rw [flat_withCb]
    exact hI.layout.mapped hq
  · obtain ⟨g', hg', rfl⟩ := List.mem_map.1 hg
    exact hI.layout.groups q g' hg'

/-- The queue head between two passes, with what is left of its groups. The
interrupt bits are those of the start. -/
structure Between (i : BusCall) (old : AsyncHost) (gs : List CbGrp)
    (x : Xfer) : Prop where
  queued : Queued x.host i.q gs
  ioc : ∀ t ∈ flat gs, hasIoc (x.host.tdns t) = hasIoc (old.tdns t)
  sub : (flat gs).Sublist i.queue

/-- The fuel is two more than the descriptors on the queue head. -/
theorem queue_length (i : BusCall) : i.queue.length + 2 = i.fuel := by
  have hlen : i.tds.length = i.blocks.length := List.length_map ..
  unfold BusCall.queue BusCall.fuel
  rw [flat_own, List.length_append, hlen]

section pass

variable {old : AsyncHost} {x : Xfer} {w : Turn}

/-- What the controller leaves in the descriptors of the queue head. -/
theorem Between.leave_tdns (h : Between i old gs x) {t : TdId}
    (ht : t ∈ flat gs) : (i.leave w x.host).tdns t
      = { x.host.tdns t with token := w.token t } := by
  have hlen := h.sub.length_le
  have hfuel := queue_length i
  have hfollow : follow x.host.nextTd i.fuel (x.host.qhns i.q).tdns
      = flat gs := h.queued.leads.follow_eq (by omega)
  unfold BusCall.leave
  dsimp only
  rw [hfollow, if_pos ht]
  rfl

/-- The controller may write tokens between two passes; what the driver
relies on stays. -/
theorem Between.leave (h : Between i old gs x)
    (hioc : ∀ t ∈ i.queue, testBit (w.token t) tdtokIoc
      = hasIoc (old.tdns t)) :
    Between i old gs { x with host := i.leave w x.host } := by
  have hword : ∀ t ∈ flat gs, hasIoc ((i.leave w x.host).tdns t)
      = hasIoc (old.tdns t) := by
    intro t ht
    rw [h.leave_tdns ht]
    exact hioc t (h.sub.subset ht)
  refine ⟨⟨?_, ?_, ?_⟩, hword, h.sub⟩
  · have hfirst : ((i.leave w x.host).qhns i.q).tdns
        = (x.host.qhns i.q).tdns := by
      show (Function.update x.host.qhns i.q _ i.q).tdns = _
      rw [Function.update_self]
    show Leads _ ((i.leave w x.host).qhns i.q).tdns _ none
    rw [hfirst]
    refine h.queued.leads.congr fun t ht => ?_
    show ((i.leave w x.host).tdns t).next = _
    rw [h.leave_tdns ht]
    rfl
  · intro t ht
    show ((i.leave w x.host).tdns t).td = true
    rw [h.leave_tdns ht]
    exact h.queued.mapped t ht
  · intro g hg
    refine (h.queued.groups g hg).congr fun t ht => ?_
    have hmem := mem_flat.2 ⟨g, hg, ht⟩
    refine ⟨?_, (hword t hmem).trans (h.ioc t hmem).symm⟩
    show ((i.leave w x.host).tdns t).cb = _
    rw [h.leave_tdns hmem]

/-- A pass takes away the groups at the front that it finds finished. -/
theorem pass_eq (h : Between i old gs x)
    (hioc : ∀ t ∈ i.queue, testBit (w.token t) tdtokIoc
      = hasIoc (old.tdns t)) :
    ∃ x', i.pass { x with host := i.leave w x.host } = .ok x'
      ∧ Between i old (gs.dropWhile w.finished) x'
      ∧ x'.log = x.log ++ passCalls i.q (i.leave w x.host).tdns 0
        (gs.takeWhile w.finished) := by
  have hleft := h.leave hioc
  have hlen := h.sub.length_le
  have hfuel := queue_length i
  have hdone : ∀ g ∈ gs, (∀ t ∈ g.2,
      isDone ((i.leave w x.host).tdns t) = true) ↔ w.finished g = true := by
    intro g hg
    rw [finished_iff]
    refine forall₂_congr fun t ht => ?_
    rw [h.leave_tdns (mem_flat.2 ⟨g, hg, ht⟩)]
    exact decide_eq_true_iff
  obtain ⟨x', fin, rest, heq, hfin, hrest, hrun, hc⟩ := @collectTds_eq
    ⟨(i.leave w x.host).tdns, (i.leave w x.host).qhns⟩
    { x with host := i.leave w x.host } i.q i.fuel gs i.fuel 0
    hleft.queued.leads hleft.queued.mapped hleft.queued.groups
    (fun _ _ _ => rfl) (by omega) (by omega)
  have hmem : ∀ g ∈ rest, g ∈ gs := by
    intro g hg
    rw [heq]
    exact List.mem_append_right _ hg
  obtain ⟨rfl, rfl⟩ := split_front (p := w.finished) heq
    (fun g hg => (hdone g (by rw [heq]; exact List.mem_append_left _ hg)).1
      (hfin g hg))
    (fun g hg => by
      obtain ⟨t, ht, hopen⟩ := hrest g hg
      rw [← Bool.not_eq_true, ← hdone g (hmem g (List.mem_of_mem_head? hg))]
      intro hall
      have hopen : isDone ((i.leave w x.host).tdns t) = false := hopen
      have hdone := hall t ht
      rw [hopen] at hdone
      cases hdone)
  refine ⟨x', hrun, ?_, hc.log⟩
  -- the descriptors that stay are not among those that were freed
  have hnd := hleft.queued.leads.nodup
  rw [heq, flat_append] at hnd
  have hkeep : ∀ t ∈ flat (gs.dropWhile w.finished),
      x'.host.tdns t = (i.leave w x.host).tdns t := by
    intro t ht
    rw [hc.tdns]
    exact freed_of_notMem fun hmem' =>
      (List.nodup_append.1 hnd).2.2 t hmem' t ht rfl
  have hsub : ∀ t ∈ flat (gs.dropWhile w.finished), t ∈ flat gs := by
    intro t ht
    rw [heq, flat_append]
    exact List.mem_append_right _ ht
  refine ⟨⟨?_, ?_, ?_⟩, ?_, ?_⟩
  · have hleads := hleft.queued.leads
    rw [heq, flat_append] at hleads
    obtain ⟨r, -, hback⟩ := Leads.append_iff.1 hleads
    rw [hc.first, ← hback.eq_head]
    exact hback.congr fun t ht => congrArg TDn.next (hkeep t ht)
  · intro t ht
    rw [hkeep t ht]
    exact hleft.queued.mapped t (hsub t ht)
  · intro g hg
    refine (hleft.queued.groups g (hmem g hg)).congr fun t ht => ?_
    rw [hkeep t (mem_flat.2 ⟨g, hg, ht⟩)]
    exact ⟨rfl, rfl⟩
  · intro t ht
    rw [hkeep t ht]
    exact hleft.ioc t (hsub t ht)
  · have hgs := h.sub
    rw [heq, flat_append] at hgs
    exact (List.sublist_append_right ..).trans hgs

end pass

/-- The calls of a callback among those of a pass over other requests. -/
theorem callsIn_of_ne {tdns : TdId → TDn} {sum : UInt32} {gs : List CbGrp}
    (h : ∀ g ∈ gs, g.1 ≠ some i.id) :
    i.callsIn (passCalls i.q tdns sum gs) = [] := by
  induction gs generalizing sum with
  | nil => rfl
  | cons g gs ih =>
      obtain ⟨cb, tds⟩ := g
      have hcb : cb ≠ some i.id := h (cb, tds) (List.mem_cons_self ..)
      have ih := @ih (sumAfter (addBytes tdns sum tds) cb)
        fun g' hg' => h g' (List.mem_cons_of_mem _ hg')
      cases cb with
      | none => exact ih
      | some id =>
          have hne : id ≠ i.id := fun he => hcb (congrArg some he)
          unfold passCalls groupCalls BusCall.callsIn
          rw [List.singleton_append, List.filter_cons_of_neg (by simpa)]
          exact ih

/-- The callbacks of two passes add up. -/
theorem callsIn_append (log log' : List Call) :
    i.callsIn (log ++ log') = i.callsIn log ++ i.callsIn log' := by
  unfold BusCall.callsIn
  rw [List.filter_append, List.map_append]

/-- The passes that find the request unfinished do not call its
callback. -/
theorem passes_eq {old : AsyncHost} {ws : List Turn} {x : Xfer}
    (h : Between i old gs x) (hsub : ∀ g ∈ gs, g ∈ i.front ++ [i.own])
    (hothers : ∀ g ∈ i.front, g.1 ≠ some i.id)
    (hioc : ∀ w ∈ ws, ∀ t ∈ i.queue, testBit (w.token t) tdtokIoc
      = hasIoc (old.tdns t))
    (hopen : ∀ w ∈ ws, w.finished i.own = false) :
    ∃ x', i.passes ws x = .ok x' ∧ Between i old (leftBy ws gs) x'
      ∧ i.callsIn x'.log = i.callsIn x.log := by
  induction ws generalizing gs x with
  | nil => exact ⟨x, rfl, h, rfl⟩
  | cons w ws ih =>
      obtain ⟨x₁, hrun, h₁, hlog⟩ :=
        pass_eq h (hioc w (List.mem_cons_self ..))
      obtain ⟨x', hrun', h', hcalls⟩ := ih h₁
        (fun g hg => hsub g ((List.dropWhile_sublist _).subset hg))
        (fun v hv => hioc v (List.mem_cons_of_mem _ hv))
        (fun v hv => hopen v (List.mem_cons_of_mem _ hv))
      have hnone : ∀ g ∈ gs.takeWhile w.finished, g.1 ≠ some i.id := by
        intro g hg
        rcases List.mem_append.1
          (hsub g ((List.takeWhile_sublist _).subset hg)) with hg' | hg'
        · exact hothers g hg'
        · have hdone := List.mem_takeWhile_imp hg
          rw [List.mem_singleton.1 hg',
            hopen w (List.mem_cons_self ..)] at hdone
          cases hdone
      refine ⟨x', ?_, h', ?_⟩
      · show Except.bind (i.pass _) _ = _
        rw [hrun]
        exact hrun'
      · rw [hcalls, hlog, callsIn_append, callsIn_of_ne hnone,
          List.append_nil]

/-- The bytes that the descriptors of a finished request leave. -/
theorem own_bytes (h : Ready i host) (hlen : i.control.len < 2 ^ 15)
    (hdone : ∀ t ∈ i.tds, Retired (host.tdns t).token (i.hw.final t))
    (hsetup : ∀ t ∈ i.tds.head?, tdtokGetBytes (i.hw.final t) = 0) :
    ((i.tds.map fun t => (tdtokGetBytes (i.hw.final t)).toNat).sum : Int)
        = (i.control.len : Int) - i.moved host
      ∧ (i.tds.map fun t => (tdtokGetBytes (i.hw.final t)).toNat).sum
        ≤ i.control.len := by
  have hbytes := h.bytes
  rw [BusCall.ep, control_bytes i.control hlen] at hbytes
  unfold BusCall.moved
  cases hdata : i.control.data with
  | none =>
      rw [hdata] at hbytes
      generalize i.tds = tds at *
      rcases tds with _ | ⟨a, _ | ⟨b, _ | ⟨c, tds⟩⟩⟩
      all_goals simp at hbytes
      have ha : (tdtokGetBytes (i.hw.final a)).toNat = 0 := by
        rw [hsetup a rfl]
        rfl
      have hb : (tdtokGetBytes (i.hw.final b)).toNat = 0 := by
        have hle := (hdone b (by simp)).2.2
        rw [hbytes.2] at hle
        exact Nat.le_zero.1 hle
      have hzero : i.control.len = 0 := by
        rw [Control.len, hdata]
        rfl
      simp only [List.map_cons, List.map_nil, List.sum_cons, List.sum_nil, ha,
        hb, hzero]
      omega
  | some d =>
      rw [hdata] at hbytes
      generalize i.tds = tds at *
      rcases tds with _ | ⟨a, _ | ⟨b, _ | ⟨c, _ | ⟨e, tds⟩⟩⟩⟩
      all_goals simp at hbytes
      have hd : i.control.len = d.len := by
        rw [Control.len, hdata]
        rfl
      have ha : (tdtokGetBytes (i.hw.final a)).toNat = 0 := by
        rw [hsetup a rfl]
        rfl
      have hword : (tdtokGetBytes (host.tdns b).token).toNat = d.len := by
        rw [hbytes.2.1, UInt32.toNat_ofNat']
        exact Nat.mod_eq_of_lt (by omega)
      have hb : (tdtokGetBytes (i.hw.final b)).toNat ≤ d.len :=
        hword ▸ (hdone b (by simp)).2.2
      have hc : (tdtokGetBytes (i.hw.final c)).toNat = 0 := by
        have hle := (hdone c (by simp)).2.2
        rw [hbytes.2.2] at hle
        exact Nat.le_zero.1 hle
      simp only [List.map_cons, List.map_nil, List.sum_cons, List.sum_nil, ha,
        hc, hd, hword]
      omega

-- ================================================================ waiting

/-- The bytes of descriptors after the last pass was prepared. -/
theorem leave_bytes {old : AsyncHost} {x : Xfer} {w : Turn}
    (h : Between i old gs x) {tds : List TdId}
    (hmem : ∀ t ∈ tds, t ∈ flat gs) :
    bytesOfTds (i.leave w x.host).tdns tds
      = (tds.map fun t => (tdtokGetBytes (w.token t)).toNat).sum := by
  unfold bytesOfTds
  congr 1
  apply List.map_congr_left
  intro t ht
  unfold bytesLeft
  rw [h.leave_tdns (hmem t ht)]

/-- Right after the request was put on the queue head. -/
theorem Ready.between (h : Ready i host) :
    Between i host (i.front ++ [i.own]) ⟨host, [], []⟩ :=
  ⟨h.queued, fun _ _ => rfl, List.Sublist.refl _⟩

/-- The descriptors of the call are on the queue head. -/
theorem own_mem_queue : ∀ t ∈ i.tds, t ∈ i.queue := by
  intro t ht
  unfold BusCall.queue
  rw [flat_own]
  exact List.mem_append_right _ ht

/-- A call that waits meets the contract. -/
theorem bus_blocking (hok : i.Ok) (h : Ready i host)
    (hrun : i.enqueue = .ok host) (hlen : i.control.len < 2 ^ 15)
    (hidle : (i.host.qhns i.q).tdns = none) :
    ∃ ret, ehciWaitForCompletion host i.hw.reads i.fuel i.tds.head? 0
        = .ok ret
      ∧ ∀ calls, Contract i.control.len false
        ⟨ret, calls, i.moved host, i.succeeded⟩ := by
  have hnil : flat i.front = [] := by
    have hhead := hok.queued.leads.eq_head
    rw [hidle] at hhead
    exact List.head?_eq_none_iff.1 hhead.symm
  have hqueue : i.queue = i.tds := by
    unfold BusCall.queue
    rw [flat_own, hnil, List.nil_append]
  have hflat : flat (i.front ++ [i.own]) = i.tds := hqueue
  have hleads := h.queued.leads
  rw [hflat] at hleads
  have hmapped := h.queued.mapped
  rw [hflat] at hmapped
  have hcomplete := hok.completes host hrun
  rw [hqueue] at hcomplete
  have hword : ∀ t ∈ i.tds, ((i.leave i.hw.last host).tdns t).token
      = i.hw.final t := by
    intro t ht
    rw [h.between.leave_tdns (hflat ▸ ht)]
  have hfuel := queue_length i
  rw [hqueue] at hfuel
  obtain ⟨ret, hret, hcases⟩ := @wait_eq host i.hw.reads
    (i.leave i.hw.last host).tdns (host.qhns i.q).tdns i.tds i.fuel 0 hleads
    hmapped
    (fun t ht => by rw [hword t ht]; exact hok.settles t ht) (by omega)
  rw [hleads.eq_head] at hret
  refine ⟨ret, hret, fun calls hpos => ?_⟩
  rcases hcases with rfl | ⟨hdone, hr⟩
  · exact absurd (show (0 : Int) ≤ -1 from hpos) (by decide)
  · have hsuccess : ∀ t ∈ i.tds,
        qtdGetStatus (i.hw.final t) = .success := by
      intro t ht
      rw [← hword t ht]
      exact of_decide_eq_true (hdone t ht)
    have hretired := hcomplete.retired
      fun t ht => not_halted (hsuccess t ht)
    obtain ⟨hsum, hle⟩ := own_bytes h hlen hretired
      fun t ht => hok.setup t ht (hsuccess t (List.mem_of_mem_head? ht))
    refine ⟨finished_iff.2 hsuccess, ?_⟩
    dsimp only
    rw [hr, cInt_addBytes, leave_bytes h.between (fun t ht => hflat ▸ ht)]
    · exact hsum
    · rw [leave_bytes h.between (fun t ht => hflat ▸ ht)]
      exact Nat.lt_of_le_of_lt hle (by omega)

-- ========================================================== the last pass

/-- The bytes that are not reported are read off the tokens. -/
theorem uncalledBytes_congr {token token' : TdId → UInt32}
    (h : ∀ t ∈ flat gs, token t = token' t) :
    uncalledBytes token gs = uncalledBytes token' gs := by
  unfold uncalledBytes
  congr 1
  apply List.map_congr_left
  intro t ht
  obtain ⟨g, hg, htg⟩ := mem_flat.1 ht
  have hmem : g ∈ gs := (List.rtakeWhile_suffix _ _).subset hg
  rw [h t (mem_flat.2 ⟨g, hmem, htg⟩)]

theorem passes_concat (ws : List Turn) (w : Turn) (x : Xfer) :
    i.passes (ws ++ [w]) x = (i.passes ws x).bind fun x =>
      i.pass { x with host := i.leave w x.host } := by
  induction ws generalizing x with
  | nil =>
      show Except.bind (i.pass _) _ = i.pass _
      cases i.pass { x with host := i.leave w x.host } with
      | error e => rfl
      | ok x' => rfl
  | cons v ws ih =>
      show Except.bind (i.pass _) _ = Except.bind (Except.bind (i.pass _) _) _
      cases i.pass { x with host := i.leave v x.host } with
      | error e => rfl
      | ok x' => exact ih x'

/-- The passes over a request with a callback, and the calls that the last
of them makes. -/
theorem bus_passes (hok : i.Ok) (h : Ready i host)
    (hrun : i.enqueue = .ok host) :
    ∃ x x₁, i.passes (i.hw.passes ++ [i.hw.last]) ⟨host, [], []⟩ = .ok x
      ∧ Between i host (leftBy i.hw.passes i.front ++ [i.own]) x₁
      ∧ i.callsIn x.log = i.callsIn (passCalls i.q
        (i.leave i.hw.last x₁.host).tdns 0
        ((leftBy i.hw.passes i.front ++ [i.own]).takeWhile
          i.hw.last.finished)) := by
  obtain ⟨x₁, hrun₁, h₁, hcalls₁⟩ :=
    passes_eq h.between (fun _ => id)
    hok.others (fun w hw t ht => (hok.underway host hrun w hw t ht).1)
    hok.unfinished
  rw [leftBy_concat hok.unfinished] at h₁
  obtain ⟨x, hrun₂, -, hlog⟩ :=
    pass_eq h₁ (hok.completes host hrun).ioc
  refine ⟨x, x₁, ?_, h₁, ?_⟩
  · rw [passes_concat, hrun₁]
    exact hrun₂
  · rw [hlog, callsIn_append, hcalls₁]
    rfl

/-- A call with a callback meets the contract exactly if the controller
halts on no descriptor and the last pass starts the request's sum at
zero. -/
theorem bus_callback (hok : i.Ok) (h : Ready i host)
    (hrun : i.enqueue = .ok host) (hlen : i.control.len < 2 ^ 15)
    (hcb : i.cb = true) :
    ∃ x, i.passes (i.hw.passes ++ [i.hw.last]) ⟨host, [], []⟩ = .ok x
      ∧ ∀ ret, Contract i.control.len true
          ⟨ret, i.callsIn x.log, i.moved host, i.succeeded⟩
        ↔ (∀ t ∈ i.queue, testBit (i.hw.final t) tdtokShalted = false)
          ∧ 2 ^ 32 ∣ uncalledBytes i.hw.final
            (leftBy i.hw.passes i.front) := by
  obtain ⟨x, x₁, hpasses, h₁, hcalls⟩ := bus_passes hok h hrun
  refine ⟨x, hpasses, fun ret => ?_⟩
  rw [hcalls]
  have hcomplete := hok.completes host hrun
  have hothers : ∀ g ∈ leftBy i.hw.passes i.front, g.1 ≠ some i.id :=
    fun g hg => hok.others g (leftBy_sub g hg)
  have hmem : ∀ t, t ∈ i.queue
      ↔ ∃ g ∈ i.front ++ [i.own], t ∈ g.2 :=
    fun t => mem_flat
  by_cases hnot : ∀ t ∈ i.queue,
      testBit (i.hw.final t) tdtokShalted = false
  · -- everything is finished, and the callback is called at the end
    have hretired := hcomplete.retired hnot
    have hdone : ∀ g ∈ i.front ++ [i.own], i.hw.last.finished g = true :=
      fun g hg => finished_iff.2 fun t ht =>
        (hretired t ((hmem t).2 ⟨g, hg, ht⟩)).1
    have hall : ∀ g ∈ leftBy i.hw.passes i.front ++ [i.own],
        i.hw.last.finished g = true := by
      intro g hg
      rcases List.mem_append.1 hg with hg | hg
      · exact hdone g (List.mem_append_left _ (leftBy_sub g hg))
      · exact hdone g (List.mem_append_right _ hg)
    have hsucceeded : i.succeeded = true := hdone i.own (by simp)
    obtain ⟨hsum, hle⟩ := own_bytes h hlen
      (fun t ht => hretired t (own_mem_queue t ht))
      (fun t ht => hok.setup t ht
        (hretired t (own_mem_queue t (List.mem_of_mem_head? ht))).1)
    -- the word that the callback gets
    have hbytes : bytesOfTds (i.leave i.hw.last x₁.host).tdns i.tds
        = (i.tds.map fun t => (tdtokGetBytes (i.hw.final t)).toNat).sum :=
      leave_bytes h₁ fun t ht => mem_flat.2 ⟨i.own, by simp, ht⟩
    have hfront : uncalledBytes
        (fun t => ((i.leave i.hw.last x₁.host).tdns t).token)
          (leftBy i.hw.passes i.front)
        = uncalledBytes i.hw.final (leftBy i.hw.passes i.front) := by
      refine uncalledBytes_congr fun t ht => ?_
      obtain ⟨g, hg, htg⟩ := mem_flat.1 ht
      rw [h₁.leave_tdns (mem_flat.2 ⟨g, List.mem_append_left _ hg, htg⟩)]
    have hword : ∀ word, word = addBytes (i.leave i.hw.last x₁.host).tdns
        (sumOver (i.leave i.hw.last x₁.host).tdns 0
          (leftBy i.hw.passes i.front)) i.tds →
        (cInt word = (i.control.len : Int) - i.moved host
          ↔ 2 ^ 32 ∣ uncalledBytes i.hw.final
            (leftBy i.hw.passes i.front)) := by
      rintro word rfl
      rw [← hsum, cInt_eq_iff (by omega), addBytes_mod, sumOver_toNat,
        hbytes, hfront, Nat.mod_add_mod]
      omega
    have hone : i.callsIn (passCalls i.q
        (i.leave i.hw.last x₁.host).tdns 0
        ((leftBy i.hw.passes i.front ++ [i.own]).takeWhile
          i.hw.last.finished))
        = [(XactStat.success, cInt (addBytes
          (i.leave i.hw.last x₁.host).tdns
          (sumOver (i.leave i.hw.last x₁.host).tdns 0
            (leftBy i.hw.passes i.front)) i.tds))] := by
      rw [List.takeWhile_eq_self_iff.2 hall, passCalls_append,
        callsIn_append, callsIn_of_ne hothers]
      unfold BusCall.own
      rw [if_pos hcb]
      simp [passCalls, groupCalls, BusCall.callsIn]
    rw [hone]
    constructor
    · rintro ⟨stat, rbytes, heq, -, hr⟩
      obtain ⟨rfl, rfl⟩ := Prod.mk.inj (List.singleton_inj.1 heq)
      exact ⟨hnot, (hword _ rfl).1 (hr hsucceeded)⟩
    · rintro ⟨-, hdvd⟩
      exact ⟨_, _, rfl, ⟨fun _ => hsucceeded, fun _ => rfl⟩,
        fun _ => (hword _ rfl).2 hdvd⟩
  · -- the group that is halted in stays, and this one behind it
    refine ⟨fun hcontract => ?_, fun hcond => absurd hcond.1 hnot⟩
    push Not at hnot
    obtain ⟨t, ht, hhalt⟩ := hnot
    obtain ⟨g, hg, htg⟩ := (hmem t).1 ht
    have hopen : qtdGetStatus (i.hw.final t) ≠ .success :=
      fun hdone => hhalt (not_halted hdone)
    have hlast : i.hw.last.finished g = false :=
      not_finished_iff.2 ⟨t, htg, hopen⟩
    have hstays : g ∈ leftBy i.hw.passes i.front ++ [i.own] := by
      rcases List.mem_append.1 hg with hg | hg
      · refine List.mem_append_left _ (mem_leftBy hg fun w hw => ?_)
        refine not_finished_iff.2 ⟨t, htg, fun hdone => hopen ?_⟩
        rw [← (hok.underway host hrun w hw t ht).2 hdone]
        exact hdone
      · exact List.mem_append_right _ hg
    rw [callsIn_of_ne fun g' hg' => hothers g'
      (mem_of_mem_takeWhile_concat ⟨g, hstays, hlast⟩ hg')] at hcontract
    obtain ⟨stat, rbytes, hnone, -⟩ := hcontract
    cases hnone

/-- A call returns, and meets the contract exactly under the condition. -/
theorem bus_run (hok : i.Ok) (hfit : buffersFit i.offset i.control.len = true)
    (hidle : i.cb = false → (i.host.qhns i.q).tdns = none) :
    ∃ o, i.run = .ok o
      ∧ (Contract i.control.len i.cb o ↔ (ControlCall.bus i).Meets) := by
  obtain ⟨host, hrun, hready⟩ := enqueue_ready hok
  have hlen := len_of_buffersFit hfit
  unfold BusCall.run
  rw [hrun]
  show ∃ o, Except.bind (i.ret host) _ = _ ∧ _
  unfold BusCall.ret ControlCall.Meets
  cases hcb : i.cb with
  | true =>
      obtain ⟨x, hx, hiff⟩ := bus_callback hok hready hrun hlen hcb
      refine ⟨⟨0, i.callsIn x.log, i.moved host, i.succeeded⟩, ?_, ?_⟩
      · show Except.bind (i.passes _ _) _ = _
        rw [hx]
        rfl
      · rw [hiff]
        exact ⟨fun h _ => h, fun h => h hcb⟩
  | false =>
      obtain ⟨ret, hret, hcontract⟩ :=
        bus_blocking hok hready hrun hlen (hidle hcb)
      obtain ⟨x, -, hx, -⟩ := bus_passes hok hready hrun
      refine ⟨⟨ret, i.callsIn x.log, i.moved host, i.succeeded⟩, ?_, ?_⟩
      · rw [if_neg Bool.false_ne_true, hret]
        show Except.bind (i.passes _ _) _ = _
        rw [hx]
        rfl
      · refine ⟨fun _ htrue => ?_, fun _ => hcontract _⟩
        rw [hcb] at htrue
        cases htrue

/-- A call on the bus meets the contract exactly under the condition on
what was in front of it. -/
theorem bus_contract (hok : i.Ok) {o : Outcome} (ho : i.outcome = some o) :
    Contract i.control.len i.cb o ↔ (ControlCall.bus i).Meets := by
  unfold BusCall.outcome at ho
  split at ho
  · next hguard =>
      obtain ⟨o', hrun, hiff⟩ := bus_run hok hguard.1 hguard.2
      rw [hrun] at ho
      obtain rfl := Option.some.inj ho
      exact hiff
  · cases ho

end bus

end ProjectsLibs.Ehci
