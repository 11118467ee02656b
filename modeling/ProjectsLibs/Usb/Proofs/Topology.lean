/-
The tree of hubs: the list of devices and the ports of the hubs agree in
every state that is reached without a device connecting at a port that
records one (`topology_exact`). One that does replaces the record and
leaves the old device in the list (`replaced_device`).

# Detaching and attaching

A detach goes down the tree: every hub below is asked for its ports, and
each device found is disconnected in the same way. The recursion is
followed with the set of devices that are gone so far (`Gone`): two
removals add up, and a subtree is not affected by another one being gone,
since the tree is a forest and the parts below different ports have
nothing in common. An attach puts a new record at a port that has none,
with an address that no other device has.

# The hub driver

A device of the hub class is bound, and the binding may fail: there is no
interrupt endpoint, or no memory. The record of the hub is freed then,
and the device still points to it, so that the detach of such a device
reads freed memory (`unbound_hub`). The condition asks for every hub
below a port that disconnects to have been bound; devices of other
classes have no record and nothing is read of them.
-/
import ProjectsLibs.Usb.Proofs.Address

namespace ProjectsLibs.Usb

open Lib

-- ========================================================= the invariant

/-- The tree as the code keeps it. -/
structure Tree (root : DevId) (h : Host) : Prop where
  addressed : Addressed h
  lt_fresh : ∀ d ∈ h.devlist, d < h.fresh
  bound : ∀ d ∈ h.devlist,
    (h.devs d).devData.isSome → (h.devs d).cls = usbClassHub
  mem_iff : ∀ d, d ∈ h.devlist ↔
    d = root ∨ ∃ x ∈ h.devlist, ∃ i, PortOf h x i d
  unique : ∀ x ∈ h.devlist, ∀ y ∈ h.devlist, ∀ i j d,
    PortOf h x i d → PortOf h y j d → x = y ∧ i = j
  lt : ∀ x ∈ h.devlist, ∀ i d, PortOf h x i d → x < d
  root_le : ∀ d ∈ h.devlist, root ≤ d

/-- A tree has the shape of `Topology`. -/
theorem Tree.topology {root : DevId} {h : Host} (hT : Tree root h) :
    Topology root h :=
  ⟨hT.addressed.nodup, hT.mem_iff, hT.unique⟩

/-- Seen as ports and devices only, it is a forest. -/
theorem Tree.forest {root : DevId} {h : Host} (hT : Tree root h) :
    Forest (PortOf h) (· ∈ h.devlist) := by
  refine ⟨?_, ?_, ?_⟩
  · intro x i y hx hxy
    exact (hT.mem_iff y).2 (Or.inr ⟨x, hx, i, hxy⟩)
  · intro x i y j z hx hy hxz hyz
    exact hT.unique x hx y hy i j z hxz hyz
  · intro x i y hx hxy
    exact hT.lt x hx i y hxy

-- ============================================================ disconnect

/-- `h'` is `h` without the devices that `R` holds of. -/
structure Gone (h h' : Host) (R : DevId → Prop) : Prop where
  mem_iff : ∀ e, e ∈ h'.devlist ↔ e ∈ h.devlist ∧ ¬R e
  same : ∀ e, ¬R e → h'.devs e = h.devs e
  cls : ∀ e, (h'.devs e).cls = (h.devs e).cls
  devData : ∀ e, (h'.devs e).devData = (h.devs e).devData
  fresh : h'.fresh = h.fresh
  addressed : Addressed h'

namespace Gone

variable {h h₁ h₂ : Host} {R S : DevId → Prop} {d : DevId}

/-- Removing devices does not unplug those that are left. -/
theorem portOf (hg : Gone h h₁ R) : PortOf h₁ = PortOf h := by
  unfold PortOf
  simp only [hg.devData]

theorem nothing (hI : Addressed h) : Gone h h (fun _ => False) := by
  refine ⟨?_, fun e _ => rfl, fun e => rfl, fun e => rfl, rfl, hI⟩
  intro e
  rw [not_false_eq_true, and_true]

/-- The set of devices gone may be described in another way. -/
theorem congr (hg : Gone h h₁ R) (heq : ∀ e, R e ↔ S e) :
    Gone h h₁ S := by
  have hRS : R = S := funext fun e => propext (heq e)
  rw [← hRS]
  exact hg

/-- What two removals took away is the union of both. -/
theorem trans (hg : Gone h h₁ R) (hg' : Gone h₁ h₂ S) :
    Gone h h₂ (fun e => R e ∨ S e) := by
  refine ⟨?_, ?_, ?_, ?_, hg'.fresh.trans hg.fresh, hg'.addressed⟩
  · intro e
    rw [hg'.mem_iff, hg.mem_iff, and_assoc, not_or]
  · intro e hno
    rw [not_or] at hno
    rw [hg'.same e hno.2, hg.same e hno.1]
  · intro e
    rw [hg'.cls, hg.cls]
  · intro e
    rw [hg'.devData, hg.devData]

/-- Taking one device out of the list. -/
theorem removed (hI : Addressed h) (hd : d ∈ h.devlist) :
    Gone h (removed h d) (fun e => e = d) := by
  have hset : ∀ e, (Usb.removed h d).devs e = h.devs e
      ∨ (Usb.removed h d).devs e = { h.devs e with addr := 0xff } := by
    intro e
    by_cases hed : e = d
    · right
      rw [hed]
      exact Function.update_self ..
    · left
      exact devs_removed_of_ne hed
  refine ⟨?_, ?_, ?_, ?_, rfl, addressed_removed hI hd⟩
  · intro e
    show e ∈ h.devlist.erase d ↔ _
    rw [hI.nodup.mem_erase_iff, and_comm]
  · intro e hne
    exact devs_removed_of_ne hne
  · intro e
    obtain heq | heq := hset e
    · rw [heq]
    · rw [heq]
  · intro e
    obtain heq | heq := hset e
    · rw [heq]
    · rw [heq]

end Gone

/-- What a disconnect needs: the devices below `d` are in the list, and
they form a tree. -/
structure Detachable (h : Host) (d : DevId) : Prop where
  addressed : Addressed h
  forest : Forest (PortOf h) (Below (PortOf h) d)
  listed : ∀ e, Below (PortOf h) d e → e ∈ h.devlist
  lt_fresh : ∀ e, Below (PortOf h) d e → e < h.fresh
  bound : ∀ e, Below (PortOf h) d e →
    ((h.devs e).cls = usbClassHub ↔ (h.devs e).devData.isSome)

/-- What is below a port can be disconnected, also when other subtrees
are gone. -/
theorem Detachable.child {h h₁ : Host} {d c : DevId} {i : Nat}
    (hD : Detachable h d) (hc : PortOf h d i c) {R : DevId → Prop}
    (hg : Gone h h₁ R) (hR : ∀ e, Below (PortOf h) c e → ¬R e) :
    Detachable h₁ c := by
  have hbelow : ∀ e, Below (PortOf h) c e → Below (PortOf h) d e :=
    fun e he => he.head hc
  refine ⟨hg.addressed, ?_, ?_, ?_, ?_⟩
  · rw [hg.portOf]
    refine ⟨?_, ?_, ?_⟩
    · intro x i y hx hxy
      exact Relation.ReflTransGen.tail hx ⟨i, hxy⟩
    · intro x i y j z hx hy
      exact hD.forest.unique x i y j z (hbelow x hx) (hbelow y hy)
    · intro x i y hx
      exact hD.forest.lt x i y (hbelow x hx)
  · rw [hg.portOf]
    intro e he
    exact (hg.mem_iff e).2 ⟨hD.listed e (hbelow e he), hR e he⟩
  · rw [hg.portOf, hg.fresh]
    intro e he
    exact hD.lt_fresh e (hbelow e he)
  · rw [hg.portOf]
    intro e he
    rw [hg.cls, hg.devData]
    exact hD.bound e (hbelow e he)

/-- The devices below the first `k` ports of `d`. -/
def BelowPorts (h : Host) (d : DevId) (k : Nat) (e : DevId) : Prop :=
  ∃ i c, i < k ∧ PortOf h d i c ∧ Below (PortOf h) c e

/-- The loop over the ports takes out what is below them, if the
recursion does. -/
theorem disconnectPorts_ok {h : Host} {d : DevId} (hD : Detachable h d)
    {u : UsbHub} (hu : (h.devs d).devData = some u)
    {disconnect : Host → DevId → Except Fault Host}
    (hrec : ∀ h₁ c, d < c → h₁.fresh = h.fresh → Detachable h₁ c →
      ∃ h₂, disconnect h₁ c = .ok h₂
        ∧ Gone h₁ h₂ (Below (PortOf h₁) c))
    (n : Nat) (hn : n ≤ u.nports) (h₁ : Host)
    (hg : Gone h h₁ (BelowPorts h d (u.nports - n))) :
    ∃ h₂, disconnectPorts disconnect u n h₁ = .ok h₂
      ∧ Gone h h₂ (BelowPorts h d u.nports) := by
  have hself := Below.refl (E := PortOf h) d
  induction n generalizing h₁ with
  | zero => exact ⟨h₁, rfl, hg⟩
  | succ n ih =>
      have hk : u.nports - n = u.nports - (n + 1) + 1 := by omega
      rw [disconnectPorts]
      cases hport : u.port (u.nports - (n + 1)) with
      | none =>
          refine ih (by omega) h₁ (hg.congr ?_)
          intro e
          constructor
          · intro hbelow
            obtain ⟨i, c, hi, hc, hce⟩ := hbelow
            exact ⟨i, c, by omega, hc, hce⟩
          · intro hbelow
            obtain ⟨i, c, hi, hc, hce⟩ := hbelow
            refine ⟨i, c, ?_, hc, hce⟩
            -- the last of the ports records nothing
            have hne : i ≠ u.nports - (n + 1) := by
              intro heq
              obtain ⟨u', hu', -, hpc⟩ := hc
              rw [hu] at hu'
              cases hu'
              rw [heq, hport] at hpc
              cases hpc
            omega
      | some c =>
          have hc : PortOf h d (u.nports - (n + 1)) c :=
            ⟨u, hu, by omega, hport⟩
          have hdc : d < c := hD.forest.lt d _ c hself hc
          have hdisj : ∀ e, Below (PortOf h) c e →
              ¬BelowPorts h d (u.nports - (n + 1)) e := by
            intro e hce hbelow
            obtain ⟨i, c', hi, hc', hc'e⟩ := hbelow
            exact hD.forest.disjoint hself hc' hc (by omega) hc'e hce
          obtain ⟨h₂, hrun, hg₂⟩ := hrec h₁ c hdc hg.fresh
            (hD.child hc hg hdisj)
          rw [hg.portOf] at hg₂
          show ∃ h₃, (disconnect h₁ c >>= fun h₂ =>
            disconnectPorts disconnect u n h₂) = .ok h₃ ∧ _
          rw [hrun, ok_bind]
          refine ih (by omega) h₂ ((hg.trans hg₂).congr ?_)
          intro e
          constructor
          · intro hor
            obtain ⟨i, c', hi, hc', hc'e⟩ | hce := hor
            · exact ⟨i, c', by omega, hc', hc'e⟩
            · exact ⟨_, c, by omega, hc, hce⟩
          · intro hbelow
            obtain ⟨i, c', hi, hc', hc'e⟩ := hbelow
            by_cases heq : i = u.nports - (n + 1)
            · right
              obtain ⟨u', hu', -, hpc⟩ := hc'
              rw [hu] at hu'
              cases hu'
              rw [heq, hport] at hpc
              cases hpc
              exact hc'e
            · left
              exact ⟨i, c', by omega, hc', hc'e⟩

/-- `usbdev_disconnect` takes out a device and everything below it. -/
theorem usbdevDisconnect_ok (fuel : Nat) (h : Host) (d : DevId)
    (hD : Detachable h d) (hfuel : h.fresh ≤ d + fuel) :
    ∃ h', usbdevDisconnect fuel h d = .ok h'
      ∧ Gone h h' (Below (PortOf h) d) := by
  have hself := Below.refl (E := PortOf h) d
  induction fuel generalizing h d with
  | zero =>
      exact absurd (hD.lt_fresh d hself) (Nat.not_lt.2 hfuel)
  | succ fuel ih =>
      -- first what is below the ports, then the device itself
      have hlast : ∀ h₁, Gone h h₁ (fun e =>
            ∃ i c, PortOf h d i c ∧ Below (PortOf h) c e) →
          ∃ h', devlistRemove h₁ d = .ok h'
            ∧ Gone h h' (Below (PortOf h) d) := by
        intro h₁ hg
        have hd : d ∈ h₁.devlist := by
          refine (hg.mem_iff d).2 ⟨hD.listed d hself, ?_⟩
          intro hbelow
          obtain ⟨i, c, hc, hcd⟩ := hbelow
          have hlt := hD.forest.lt d i c hself hc
          have hle := hD.forest.le (hD.forest.closed d i c hself hc) hcd
          exact lt_irrefl d (lt_of_lt_of_le hlt hle)
        refine ⟨_, devlistRemove_ok hg.addressed hd,
          (hg.trans (Gone.removed hg.addressed hd)).congr ?_⟩
        intro e
        rw [below_iff, or_comm]
      unfold usbdevDisconnect
      by_cases hcls : (h.devs d).cls = usbClassHub
      · obtain ⟨u, hu⟩ := Option.isSome_iff_exists.1
          ((hD.bound d hself).1 hcls)
        have hrec : ∀ h₁ c, d < c → h₁.fresh = h.fresh →
            Detachable h₁ c →
              ∃ h₂, usbdevDisconnect fuel h₁ c = .ok h₂
              ∧ Gone h₁ h₂ (Below (PortOf h₁) c) := by
          intro h₁ c hdc hfresh hD₁
          refine ih h₁ c hD₁ ?_ (Below.refl c)
          calc h₁.fresh = h.fresh := hfresh
            _ ≤ d + 1 + fuel := by
              rw [Nat.add_assoc, Nat.add_comm 1]
              exact hfuel
            _ ≤ c + fuel := Nat.add_le_add_right hdc fuel
        obtain ⟨h₁, hrun, hg⟩ := disconnectPorts_ok hD hu hrec
          u.nports (Nat.le_refl _) h
          ((Gone.nothing hD.addressed).congr (by
            intro e
            rw [Nat.sub_self]
            constructor
            · intro hf
              exact hf.elim
            · intro hbelow
              obtain ⟨i, c, hi, -⟩ := hbelow
              omega))
        rw [if_pos hcls, hu]
        show ∃ h', (disconnectPorts (usbdevDisconnect fuel) u u.nports h
          >>= fun h₁ => devlistRemove h₁ d) = .ok h' ∧ _
        rw [hrun, ok_bind]
        refine hlast h₁ (hg.congr ?_)
        intro e
        constructor
        · intro hbelow
          obtain ⟨i, c, -, hc, hce⟩ := hbelow
          exact ⟨i, c, hc, hce⟩
        · intro hbelow
          obtain ⟨i, c, hc, hce⟩ := hbelow
          obtain ⟨u', hu', hi, -⟩ := id hc
          rw [hu] at hu'
          cases hu'
          exact ⟨i, c, hi, hc, hce⟩
      · rw [if_neg hcls, ok_bind]
        refine hlast h ((Gone.nothing hD.addressed).congr ?_)
        intro e
        constructor
        · intro hf
          exact hf.elim
        · intro hbelow
          obtain ⟨i, c, ⟨u, hu, -⟩, -⟩ := hbelow
          exact hcls ((hD.bound d hself).2 (by rw [hu]; rfl))

-- =============================================================== detach

section Ports

variable {h : Host} {x : DevId} {port : Nat} {v : Option DevId}

theorem devs_setDev (h : Host) (d : DevId) (f : UsbDev → UsbDev)
    (e : DevId) :
    (h.setDev d f).devs e = if e = d then f (h.devs d) else h.devs e :=
  Function.update_apply ..

/-- Recording a child at a port changes no address. -/
theorem setPort_addr (e : DevId) :
    ((setPort h x port v).devs e).addr = (h.devs e).addr := by
  unfold setPort
  rw [devs_setDev]
  split
  · rename_i heq
    rw [heq]
  · rfl

theorem setPort_cls (e : DevId) :
    ((setPort h x port v).devs e).cls = (h.devs e).cls := by
  unfold setPort
  rw [devs_setDev]
  split
  · rename_i heq
    rw [heq]
  · rfl

theorem setPort_isSome (e : DevId) :
    ((setPort h x port v).devs e).devData.isSome
      = (h.devs e).devData.isSome := by
  unfold setPort
  rw [devs_setDev]
  split
  · rename_i heq
    rw [heq, Option.isSome_map]
  · rfl

/-- Recording at a port changes that port only. -/
theorem portOf_setPort {y : DevId} {j : Nat} {e : DevId} :
    PortOf (setPort h x port v) y j e ↔
      if y = x ∧ j = port - 1 then
        v = some e ∧ ∃ u, (h.devs x).devData = some u
          ∧ port - 1 < u.nports
      else PortOf h y j e := by
  unfold PortOf setPort
  rw [devs_setDev]
  by_cases hy : y = x
  · rw [if_pos hy, hy]
    constructor
    · intro hport
      obtain ⟨u', hu', hj, hje⟩ := hport
      obtain ⟨u, hu, rfl⟩ := Option.map_eq_some_iff.1 hu'
      have hje : Function.update u.port (port - 1) v j = some e := hje
      by_cases heq : j = port - 1
      · rw [if_pos ⟨rfl, heq⟩]
        rw [heq, Function.update_self] at hje
        exact ⟨hje, u, hu, heq ▸ hj⟩
      · rw [if_neg (fun hand => heq hand.2)]
        rw [Function.update_of_ne heq] at hje
        exact ⟨u, hu, hj, hje⟩
    · intro hport
      by_cases heq : j = port - 1
      · rw [if_pos ⟨rfl, heq⟩] at hport
        obtain ⟨hv, u, hu, hlt⟩ := hport
        refine ⟨_, Option.map_eq_some_iff.2 ⟨u, hu, rfl⟩, heq ▸ hlt,
          ?_⟩
        show Function.update u.port (port - 1) v j = some e
        rw [heq, Function.update_self, hv]
      · rw [if_neg (fun hand => heq hand.2)] at hport
        obtain ⟨u, hu, hj, hje⟩ := hport
        refine ⟨_, Option.map_eq_some_iff.2 ⟨u, hu, rfl⟩, hj, ?_⟩
        show Function.update u.port (port - 1) v j = some e
        rw [Function.update_of_ne heq, hje]
  · rw [if_neg hy, if_neg (fun hand => hy hand.1)]

/-- Addresses depend on the list, the bitmap and the devices' addresses
only. -/
theorem Addressed.congr {h' : Host} (hI : Addressed h)
    (hlist : h'.devlist = h.devlist) (hbm : h'.addrbm = h.addrbm)
    (hnext : h'.nextAddr = h.nextAddr)
    (haddr : ∀ d ∈ h.devlist, (h'.devs d).addr = (h.devs d).addr) :
    Addressed h' := by
  refine ⟨?_, ?_, ?_, ?_, ?_⟩
  · rw [hlist]
    exact hI.nodup
  · rw [hlist]
    intro d hd
    rw [haddr d hd]
    exact hI.range d hd
  · rw [hlist]
    intro d hd e he
    rw [haddr d hd, haddr e he]
    exact hI.inj d hd e he
  · intro a ha
    rw [hbm, hlist, hI.bitmap a ha]
    constructor
    · intro hor
      obtain h0 | ⟨d, hd, heq⟩ := hor
      · exact Or.inl h0
      · exact Or.inr ⟨d, hd, by rw [haddr d hd, heq]⟩
    · intro hor
      obtain h0 | ⟨d, hd, heq⟩ := hor
      · exact Or.inl h0
      · exact Or.inr ⟨d, hd, by rw [← haddr d hd, heq]⟩
  · rw [hnext]
    exact hI.next

end Ports

section Detach

variable {root : DevId} {h h₁ : Host} {x d : DevId} {port : Nat}

/-- A device of the tree can be detached if the hubs below it are bound. -/
theorem Tree.detachable (hT : Tree root h) (hd : d ∈ h.devlist)
    (hbound : ∀ e, Below (PortOf h) d e →
      (h.devs e).cls = usbClassHub → (h.devs e).devData.isSome) :
    Detachable h d := by
  have hF := hT.forest
  have hmem : ∀ e, Below (PortOf h) d e → e ∈ h.devlist :=
    fun e he => hF.mem hd he
  refine ⟨hT.addressed, ?_, hmem, ?_, ?_⟩
  · refine ⟨?_, ?_, ?_⟩
    · intro y i z hy hyz
      exact Relation.ReflTransGen.tail hy ⟨i, hyz⟩
    · intro y i z j w hy hz
      exact hF.unique y i z j w (hmem y hy) (hmem z hz)
    · intro y i z hy
      exact hF.lt y i z (hmem y hy)
  · intro e he
    exact hT.lt_fresh e (hmem e he)
  · intro e he
    exact ⟨hbound e he, hT.bound e (hmem e he)⟩

/-- The ports after a subtree is gone and its record cleared. -/
theorem portOf_detached (hg : Gone h h₁ (Below (PortOf h) d))
    {y : DevId} {j : Nat} {e : DevId} :
    PortOf (setPort h₁ x port none) y j e ↔
      PortOf h y j e ∧ ¬(y = x ∧ j = port - 1) := by
  rw [portOf_setPort]
  by_cases hslot : y = x ∧ j = port - 1
  · rw [if_pos hslot]
    constructor
    · intro hnone
      cases hnone.1
    · intro hand
      exact absurd hslot hand.2
  · rw [if_neg hslot, hg.portOf]
    exact (and_iff_left hslot).symm

/-- A tree stays one if a device and all below it are taken away and the
port is cleared. -/
theorem Tree.detach (hT : Tree root h) (hx : x ∈ h.devlist)
    (hd : PortOf h x (port - 1) d)
    (hg : Gone h h₁ (Below (PortOf h) d)) :
    Tree root (setPort h₁ x port none) := by
  have hF := hT.forest
  have hdl : d ∈ h.devlist := hF.closed x _ d hx hd
  have hlist : ∀ e, e ∈ (setPort h₁ x port none).devlist ↔
      e ∈ h.devlist ∧ ¬Below (PortOf h) d e := hg.mem_iff
  -- a node below `d` other than `d` has its port below `d` too
  have hparent : ∀ y ∈ h.devlist, ∀ j e, PortOf h y j e →
      Below (PortOf h) d e → ¬(y = x ∧ j = port - 1) →
      Below (PortOf h) d y := by
    intro y hy j e hye hde hslot
    cases Relation.ReflTransGen.cases_tail hde with
    | inl heq =>
        rw [heq] at hye
        obtain ⟨hyx, hj⟩ := hF.unique y j x _ d hy hx hye hd
        exact absurd ⟨hyx, hj⟩ hslot
    | inr hlast =>
        obtain ⟨z, hdz, k, hze⟩ := hlast
        obtain ⟨hyz, -⟩ := hF.unique y j z k e hy (hF.mem hdl hdz) hye hze
        rw [hyz]
        exact hdz
  refine ⟨?_, ?_, ?_, ?_, ?_, ?_, ?_⟩
  · exact hg.addressed.congr rfl rfl rfl (fun e _ => setPort_addr e)
  · intro e he
    show e < h₁.fresh
    rw [hg.fresh]
    exact hT.lt_fresh e ((hlist e).1 he).1
  · intro e he
    rw [setPort_cls, setPort_isSome, hg.cls, hg.devData]
    exact hT.bound e ((hlist e).1 he).1
  · intro e
    rw [hlist]
    constructor
    · intro hand
      obtain ⟨he, hno⟩ := hand
      cases (hT.mem_iff e).1 he with
      | inl hroot => exact Or.inl hroot
      | inr hrec =>
          obtain ⟨y, hy, j, hye⟩ := hrec
          refine Or.inr ⟨y, (hlist y).2 ⟨hy, ?_⟩, j,
            (portOf_detached hg).2 ⟨hye, ?_⟩⟩
          · intro hdy
            exact hno (hdy.tail ⟨j, hye⟩)
          · intro hslot
            obtain ⟨rfl, rfl⟩ := hslot
            obtain ⟨u, hu, -, hue⟩ := hye
            obtain ⟨u', hu', -, hud⟩ := hd
            rw [hu] at hu'
            cases hu'
            rw [hue] at hud
            cases hud
            exact hno (Below.refl _)
    · intro hor
      cases hor with
      | inl hroot =>
          rw [hroot]
          refine ⟨(hT.mem_iff root).2 (Or.inl rfl), ?_⟩
          intro hbelow
          have hle := hF.le hdl hbelow
          have hlt := hT.lt x hx _ d hd
          have hroot := hT.root_le x hx
          exact lt_irrefl root (lt_of_le_of_lt hroot
            (lt_of_lt_of_le hlt hle))
      | inr hrec =>
          obtain ⟨y, hy, j, hye⟩ := hrec
          obtain ⟨hyl, hno⟩ := (hlist y).1 hy
          obtain ⟨hye, hslot⟩ := (portOf_detached hg).1 hye
          refine ⟨(hT.mem_iff e).2 (Or.inr ⟨y, hyl, j, hye⟩), ?_⟩
          intro hde
          exact hno (hparent y hyl j e hye hde hslot)
  · intro y hy z hz i j e hye hze
    exact hT.unique y ((hlist y).1 hy).1 z ((hlist z).1 hz).1 i j e
      ((portOf_detached hg).1 hye).1 ((portOf_detached hg).1 hze).1
  · intro y hy i e hye
    exact hT.lt y ((hlist y).1 hy).1 i e ((portOf_detached hg).1 hye).1
  · intro e he
    exact hT.root_le e ((hlist e).1 he).1

/-- The devices that are gone, and their addresses. -/
theorem Gone.released {R : DevId → Prop} (hI : Addressed h)
    (hg : Gone h h₁ R) {e : DevId} (he : e ∈ h.devlist) (hR : R e) :
    e ∉ h₁.devlist
      ∧ testBit h₁.addrbm (h.devs e).addr.toNat = false := by
  have hout : e ∉ h₁.devlist := fun hin => ((hg.mem_iff e).1 hin).2 hR
  refine ⟨hout, ?_⟩
  obtain ⟨hpos, hlt⟩ := hI.range e he
  rw [hg.addressed.free_iff hlt hpos]
  intro f hf heq
  obtain ⟨hfl, hfR⟩ := (hg.mem_iff f).1 hf
  rw [hg.same f hfR] at heq
  have hfe := hI.inj f hfl e he heq
  rw [hfe] at hfR
  exact hfR hR

end Detach

-- =============================================================== attach

section Attach

variable {root : DevId} {h : Host} {x : DevId} {port r : Nat}
  {desc : Descriptor}

/-- The new device before it has an address. -/
def allocated (h : Host) (hub : Option DevId) (port : Nat) : Host :=
  { h with fresh := h.fresh + 1 }.setDev h.fresh fun _ =>
    { hub := hub, port := port, cls := 0, addr := 0, devData := none }

/-- The new device with an address and its class. -/
def enumerated (h : Host) (hub : Option DevId) (port : Nat)
    (desc : Descriptor) (r : Nat) : Host :=
  (inserted (allocated h hub port) h.fresh r).setDev h.fresh fun x =>
    { x with cls := desc.cls }

/-- The new device recorded at its port and bound. -/
def attached (h : Host) (x : DevId) (port : Nat) (desc : Descriptor)
    (r : Nat) : Host :=
  (usbHubDriverBind (setPort (enumerated h (some x) port desc r) x port
    (some h.fresh)) h.fresh desc).2

/-- The records there are stay as they are. -/
theorem devs_allocated {hub : Option DevId} {e : DevId}
    (he : e ≠ h.fresh) : (allocated h hub port).devs e = h.devs e := by
  unfold allocated
  rw [devs_setDev, if_neg he]

/-- A new record is not in the list yet, so the addresses are as before. -/
theorem addressed_allocated (hub : Option DevId) (port : Nat)
    (hI : Addressed h)
    (hnew : ∀ d ∈ h.devlist, d ≠ h.fresh) :
    Addressed (allocated h hub port) := by
  refine hI.congr rfl rfl rfl ?_
  intro d hd
  rw [devs_allocated (hnew d hd)]

/-- The enumeration is an allocation, an insertion and, if there was an
address, the class. -/
theorem usbNewDevice_eq (hub : Option DevId) :
    usbNewDeviceWithHost h hub port desc
      = insertStored (allocated h hub port) h.fresh >>= fun p =>
          if p.1 < 0 then .ok (none, p.2)
          else .ok (some h.fresh, p.2.setDev h.fresh fun x =>
            { x with cls := desc.cls }) := by
  unfold usbNewDeviceWithHost insertStored
  show devlistInsert (allocated h hub port) h.fresh >>= _ = _
  cases devlistInsert (allocated h hub port) h.fresh with
  | error e => rfl
  | ok p =>
      obtain ⟨addr, h₁⟩ := p
      rw [ok_bind, ok_bind]
      by_cases hneg : addr < 0
      · simp only [if_pos hneg, ok_bind]
      · simp only [if_neg hneg, ok_bind]

/-- With 31 devices nothing changes but the heap. -/
theorem usbNewDevice_full {hub : Option DevId} (hI : Addressed h)
    (hnew : ∀ d ∈ h.devlist, d ≠ h.fresh)
    (hfull : h.devlist.length = 31) :
    usbNewDeviceWithHost h hub port desc
      = .ok (none, allocated h hub port) := by
  rw [usbNewDevice_eq,
    insertStored_full (addressed_allocated hub port hI hnew) hfull, ok_bind]
  rfl

/-- Otherwise the device gets an address that is free. -/
theorem usbNewDevice_ok {hub : Option DevId} (hI : Addressed h)
    (hnew : ∀ d ∈ h.devlist, d ≠ h.fresh)
    (hroom : h.devlist.length ≠ 31) (hend : SearchEnds h) :
    ∃ r, usbNewDeviceWithHost h hub port desc
        = .ok (some h.fresh, enumerated h hub port desc r)
      ∧ 1 ≤ r ∧ r < 32
      ∧ ∀ e ∈ h.devlist, (h.devs e).addr.toNat ≠ r := by
  obtain ⟨a, hna, ha, hfree⟩ := hend.resolve_left hroom
  have hsame : ∀ e ∈ h.devlist,
      (allocated h hub port).devs e = h.devs e :=
    fun e he => devs_allocated (hnew e he)
  obtain ⟨r, hrun, h1, h32, hrfree⟩ :=
    insertStored_ok (d := h.fresh)
      (addressed_allocated hub port hI hnew) hroom hna
      ha (fun e he => by rw [hsame e he]; exact hfree e he)
  refine ⟨r, ?_, h1, h32, ?_⟩
  · rw [usbNewDevice_eq, hrun, ok_bind]
    rw [if_neg (show ¬(r : Int) < 0 by omega)]
    rfl
  · intro e he
    rw [← hsame e he]
    exact hrfree e he

/-- Other devices are left as they are. -/
theorem devs_enumerated {hub : Option DevId} {e : DevId}
    (he : e ≠ h.fresh) :
    (enumerated h hub port desc r).devs e = h.devs e := by
  unfold enumerated
  rw [devs_setDev, if_neg he, devs_inserted_of_ne he, devs_allocated he]

/-- The record of a device that was enumerated. -/
theorem enumerated_self {hub : Option DevId} :
    (enumerated h hub port desc r).devs h.fresh
      = ⟨hub, port, desc.cls, UInt8.ofNat r, none⟩ := by
  unfold enumerated
  rw [devs_setDev, if_pos rfl]
  show (⟨_, _, _, _, _⟩ : UsbDev) = _
  unfold inserted allocated Host.setAddr
  rw [devs_setDev, if_pos rfl, devs_setDev, if_pos rfl]

/-- The hub driver binds a device of this class. -/
def Descriptor.binds (desc : Descriptor) (cls : UInt8) : Bool :=
  cls = usbClassHub && desc.record && desc.config && desc.endpoint

/-- Binding gives a device that has no record yet a new one, or none. -/
theorem devs_bind (h : Host) (n e : DevId) (desc : Descriptor)
    (hnone : (h.devs n).devData = none) :
    (usbHubDriverBind h n desc).2.devs e
      = if e = n ∧ desc.binds (h.devs n).cls then
          { h.devs n with devData := some ⟨desc.nports, fun _ => none⟩ }
        else h.devs e := by
  have hkeep : ∀ x : UsbDev, x.devData = none →
      { x with devData := none } = x := by
    rintro ⟨hub, port, cls, addr, devData⟩ ⟨⟩
    rfl
  unfold usbHubDriverBind Descriptor.binds
  by_cases hcls : (h.devs n).cls = usbClassHub
  · cases hrec : desc.record with
    | false => simp [hcls]
    | true =>
        by_cases hparse : desc.config = false ∨ desc.endpoint = false
        · have hno : ¬(desc.config = true ∧ desc.endpoint = true) := by
            rintro ⟨hconfig, hep⟩
            rw [hconfig, hep] at hparse
            exact absurd hparse (by decide)
          rw [if_neg (not_not.2 hcls), if_neg (nofun : ¬true = false),
            if_pos hparse, if_neg (by simpa using fun _ _ => hno)]
          dsimp only
          rw [devs_setDev]
          split
          · next he => rw [he, hkeep _ hnone]
          · rfl
        · have hyes := not_or.1 hparse
          simp only [Bool.not_eq_false] at hyes
          by_cases he : e = n
          · simp [hcls, devs_setDev, he, hyes.1, hyes.2]
          · simp [hcls, devs_setDev, he, hyes.1, hyes.2]
  · simp [hcls]

/-- Binding the hub driver does not touch the list. -/
theorem devlist_bind (h : Host) (n : DevId) (desc : Descriptor) :
    (usbHubDriverBind h n desc).2.devlist = h.devlist
      ∧ (usbHubDriverBind h n desc).2.addrbm = h.addrbm
      ∧ (usbHubDriverBind h n desc).2.nextAddr = h.nextAddr
      ∧ (usbHubDriverBind h n desc).2.fresh = h.fresh := by
  unfold usbHubDriverBind
  split
  · exact ⟨rfl, rfl, rfl, rfl⟩
  · split
    · exact ⟨rfl, rfl, rfl, rfl⟩
    · split
      · exact ⟨rfl, rfl, rfl, rfl⟩
      · exact ⟨rfl, rfl, rfl, rfl⟩

/-- A new hub records nothing, and the others what they did. -/
theorem portOf_bind {n : DevId} (hnone : (h.devs n).devData = none)
    {y : DevId} {j : Nat} {e : DevId} :
    PortOf (usbHubDriverBind h n desc).2 y j e
      ↔ y ≠ n ∧ PortOf h y j e := by
  unfold PortOf
  rw [devs_bind _ _ _ _ hnone]
  by_cases hy : y = n
  · have hleft : ¬∃ u, (if y = n ∧ desc.binds (h.devs n).cls then
          { h.devs n with devData := some ⟨desc.nports, fun _ => none⟩ }
        else h.devs y).devData = some u ∧ j < u.nports
          ∧ u.port j = some e := by
      intro hport
      obtain ⟨u, hu, -, hue⟩ := hport
      split at hu
      · cases hu
        cases hue
      · rw [hy, hnone] at hu
        cases hu
    exact iff_of_false hleft (fun hand => hand.1 hy)
  · rw [if_neg (fun hand => hy hand.1)]
    exact (and_iff_right hy).symm

/-- The ports once a device is attached at an empty one. -/
theorem portOf_attached (hx : x ≠ h.fresh) (hnone : ∀ d,
      ¬PortOf h x (port - 1) d) {u : UsbHub}
    (hu : (h.devs x).devData = some u) (hport : port - 1 < u.nports)
    {y : DevId} {j : Nat} {e : DevId} :
    PortOf (attached h x port desc r) y j e ↔
      (y = x ∧ j = port - 1 ∧ e = h.fresh)
        ∨ (y ≠ h.fresh ∧ PortOf h y j e) := by
  have hself : ((setPort (enumerated h (some x) port desc r) x port
      (some h.fresh)).devs h.fresh).devData = none := by
    unfold setPort
    rw [devs_setDev, if_neg hx.symm, enumerated_self]
  unfold attached
  rw [portOf_bind hself, portOf_setPort]
  have hsame : ∀ y, y ≠ h.fresh →
      (PortOf (enumerated h (some x) port desc r) y j e
        ↔ PortOf h y j e) := by
    intro y hy
    unfold PortOf
    rw [devs_enumerated hy]
  by_cases hslot : y = x ∧ j = port - 1
  · obtain ⟨rfl, rfl⟩ := hslot
    rw [if_pos ⟨rfl, rfl⟩, devs_enumerated hx]
    constructor
    · intro hand
      obtain ⟨-, hsome, -⟩ := hand
      cases hsome
      exact Or.inl ⟨rfl, rfl, rfl⟩
    · intro hor
      obtain ⟨-, -, rfl⟩ | ⟨-, hp⟩ := hor
      · exact ⟨hx, rfl, u, hu, hport⟩
      · exact absurd hp (hnone e)
  · rw [if_neg hslot]
    constructor
    · intro hand
      exact Or.inr ⟨hand.1, (hsame y hand.1).1 hand.2⟩
    · intro hor
      obtain ⟨hyx, hj, -⟩ | ⟨hy, hp⟩ := hor
      · exact absurd ⟨hyx, hj⟩ hslot
      · exact ⟨hy, (hsame y hy).2 hp⟩

/-- What is known of the devices once one is attached. -/
theorem attached_self (port r : Nat) (desc : Descriptor)
    (hx : x ≠ h.fresh) :
    ((attached h x port desc r).devs h.fresh).cls = desc.cls
      ∧ ((attached h x port desc r).devs h.fresh).addr = UInt8.ofNat r
      ∧ (((attached h x port desc r).devs h.fresh).devData.isSome →
        desc.cls = usbClassHub) := by
  have hself : (setPort (enumerated h (some x) port desc r) x port
      (some h.fresh)).devs h.fresh
        = ⟨some x, port, desc.cls, UInt8.ofNat r, none⟩ := by
    unfold setPort
    rw [devs_setDev, if_neg hx.symm, enumerated_self]
  unfold attached
  rw [devs_bind _ _ _ _ (by rw [hself]), hself]
  by_cases hbinds : desc.binds desc.cls = true
  · rw [if_pos ⟨rfl, hbinds⟩]
    refine ⟨rfl, rfl, fun _ => ?_⟩
    unfold Descriptor.binds at hbinds
    simp only [Bool.and_eq_true, decide_eq_true_eq] at hbinds
    exact hbinds.1.1.1
  · rw [if_neg (fun hand => hbinds hand.2)]
    exact ⟨rfl, rfl, nofun⟩

/-- Attaching a device changes no other one but the port of its hub. -/
theorem attached_other (port r : Nat) (desc : Descriptor)
    (hx : x ≠ h.fresh) {e : DevId} (he : e ≠ h.fresh) :
    ((attached h x port desc r).devs e).cls = (h.devs e).cls
      ∧ ((attached h x port desc r).devs e).addr = (h.devs e).addr
      ∧ ((attached h x port desc r).devs e).devData.isSome
        = (h.devs e).devData.isSome := by
  have hself : ((setPort (enumerated h (some x) port desc r) x port
      (some h.fresh)).devs h.fresh).devData = none := by
    unfold setPort
    rw [devs_setDev, if_neg hx.symm, enumerated_self]
  unfold attached
  rw [devs_bind _ _ _ _ hself, if_neg (fun hand => he hand.1), setPort_cls,
    setPort_addr, setPort_isSome, devs_enumerated he]
  exact ⟨rfl, rfl, rfl⟩

/-- The new device is at the front of the list, with its bit set. -/
theorem attached_host (h : Host) (x : DevId) (port r : Nat)
    (desc : Descriptor) :
    (attached h x port desc r).devlist = h.fresh :: h.devlist
      ∧ (attached h x port desc r).addrbm = h.addrbm ||| mask r
      ∧ (attached h x port desc r).nextAddr
        = (if r + 1 = numDevices then 1 else r + 1)
      ∧ (attached h x port desc r).fresh = h.fresh + 1 :=
  devlist_bind _ _ _

/-- A tree stays one if a device is attached at a free port. -/
theorem Tree.attach (hT : Tree root h) (hx : x ∈ h.devlist)
    (hnone : ∀ d, ¬PortOf h x (port - 1) d) {u : UsbHub}
    (hu : (h.devs x).devData = some u) (hport : port - 1 < u.nports)
    (h1 : 1 ≤ r) (hr : r < 32)
    (hfree : ∀ e ∈ h.devlist, (h.devs e).addr.toNat ≠ r) :
    Tree root (attached h x port desc r) := by
  have hold : ∀ d ∈ h.devlist, d ≠ h.fresh :=
    fun d hd => Nat.ne_of_lt (hT.lt_fresh d hd)
  have hxf := hold x hx
  obtain ⟨hlist, hbm, hnext, hfresh⟩ := attached_host h x port r desc
  obtain ⟨hcls, haddr, hsome⟩ := attached_self port r desc hxf
  have hmem : ∀ e, e ∈ (attached h x port desc r).devlist ↔
      e = h.fresh ∨ e ∈ h.devlist := by
    intro e
    rw [hlist, List.mem_cons]
  have hports : ∀ {y j e}, PortOf (attached h x port desc r) y j e ↔
      (y = x ∧ j = port - 1 ∧ e = h.fresh)
        ∨ (y ≠ h.fresh ∧ PortOf h y j e) :=
    portOf_attached hxf hnone hu hport
  -- a device that is recorded was there before
  have hrecorded : ∀ y, y ∈ (attached h x port desc r).devlist →
      y ≠ h.fresh → y ∈ h.devlist :=
    fun y hy hne => ((hmem y).1 hy).resolve_left hne
  have hnew : ∀ y ∈ h.devlist, ∀ j e, PortOf h y j e → e ≠ h.fresh :=
    fun y hy j e hp => hold e (hT.forest.closed y j e hy hp)
  refine ⟨?_, ?_, ?_, ?_, ?_, ?_, ?_⟩
  · have hI := addressed_inserted (d := h.fresh)
      (addressed_allocated (some x) port hT.addressed hold)
      (fun hin => hold _ hin rfl) h1 hr (fun e he => by
        rw [devs_allocated (hold e he)]
        exact hfree e he)
    refine hI.congr hlist hbm hnext ?_
    intro e he
    cases List.mem_cons.1 he with
    | inl heq =>
        rw [heq, haddr]
        exact (addr_inserted r).symm
    | inr he =>
        rw [(attached_other port r desc hxf (hold e he)).2.1,
          devs_inserted_of_ne (hold e he), devs_allocated (hold e he)]
  · intro e he
    rw [hfresh]
    cases (hmem e).1 he with
    | inl heq =>
        rw [heq]
        exact Nat.lt_succ_self _
    | inr he => exact Nat.lt_succ_of_lt (hT.lt_fresh e he)
  · intro e he
    cases (hmem e).1 he with
    | inl heq =>
        rw [heq, hcls]
        exact hsome
    | inr he =>
        obtain ⟨hc, -, hs⟩ := attached_other port r desc hxf (hold e he)
        rw [hc, hs]
        exact hT.bound e he
  · intro e
    rw [hmem]
    constructor
    · intro hor
      cases hor with
      | inl heq =>
          exact Or.inr ⟨x, (hmem x).2 (Or.inr hx), port - 1,
            hports.2 (Or.inl ⟨rfl, rfl, heq⟩)⟩
      | inr he =>
          cases (hT.mem_iff e).1 he with
          | inl hroot => exact Or.inl hroot
          | inr hrec =>
              obtain ⟨y, hy, j, hye⟩ := hrec
              exact Or.inr ⟨y, (hmem y).2 (Or.inr hy), j,
                hports.2 (Or.inr ⟨hold y hy, hye⟩)⟩
    · intro hor
      cases hor with
      | inl hroot => exact Or.inr ((hT.mem_iff e).2 (Or.inl hroot))
      | inr hrec =>
          obtain ⟨y, hy, j, hye⟩ := hrec
          obtain ⟨-, -, heq⟩ | ⟨hne, hye⟩ := hports.1 hye
          · exact Or.inl heq
          · exact Or.inr ((hT.mem_iff e).2
              (Or.inr ⟨y, hrecorded y hy hne, j, hye⟩))
  · intro y hy z hz i j e hye hze
    obtain ⟨hyx, hi, hef⟩ | ⟨hyn, hye⟩ := hports.1 hye
    · obtain ⟨hzx, hj, -⟩ | ⟨hzn, hze⟩ := hports.1 hze
      · exact ⟨hyx.trans hzx.symm, hi.trans hj.symm⟩
      · exact absurd hef (hnew z (hrecorded z hz hzn) j e hze)
    · obtain ⟨-, -, hef⟩ | ⟨hzn, hze⟩ := hports.1 hze
      · exact absurd hef (hnew y (hrecorded y hy hyn) i e hye)
      · exact hT.unique y (hrecorded y hy hyn) z (hrecorded z hz hzn) i j e
          hye hze
  · intro y hy i e hye
    obtain ⟨hyx, -, hef⟩ | ⟨hyn, hye⟩ := hports.1 hye
    · rw [hyx, hef]
      exact hT.lt_fresh x hx
    · exact hT.lt y (hrecorded y hy hyn) i e hye
  · intro e he
    cases (hmem e).1 he with
    | inl heq =>
        rw [heq]
        exact le_trans (hT.root_le x hx) (hT.lt_fresh x hx).le
    | inr he => exact hT.root_le e he

/-- A device that gets no address changes nothing. -/
theorem Tree.allocated {hub : Option DevId} (hT : Tree root h) :
    Tree root (allocated h hub port) := by
  have hold : ∀ d ∈ h.devlist, d ≠ h.fresh :=
    fun d hd => Nat.ne_of_lt (hT.lt_fresh d hd)
  have hports : ∀ y ∈ h.devlist, ∀ j e,
      PortOf (Usb.allocated h hub port) y j e ↔ PortOf h y j e := by
    intro y hy j e
    unfold PortOf
    rw [devs_allocated (hold y hy)]
  refine ⟨addressed_allocated hub port hT.addressed hold, ?_, ?_, ?_, ?_, ?_,
    hT.root_le⟩
  · intro d hd
    exact Nat.lt_succ_of_lt (hT.lt_fresh d hd)
  · intro d hd
    rw [devs_allocated (hold d hd)]
    exact hT.bound d hd
  · intro d
    show d ∈ h.devlist ↔ _
    rw [hT.mem_iff d]
    constructor
    · intro hor
      obtain hroot | ⟨y, hy, j, hp⟩ := hor
      · exact Or.inl hroot
      · exact Or.inr ⟨y, hy, j, (hports y hy j d).2 hp⟩
    · intro hor
      obtain hroot | ⟨y, hy, j, hp⟩ := hor
      · exact Or.inl hroot
      · exact Or.inr ⟨y, hy, j, (hports y hy j d).1 hp⟩
  · intro y hy z hz i j d hp hq
    exact hT.unique y hy z hz i j d ((hports y hy i d).1 hp)
      ((hports z hz j d).1 hq)
  · intro y hy i d hp
    exact hT.lt y hy i d ((hports y hy i d).1 hp)

end Attach

-- ============================================================ every run

/-- The root hub alone is a tree. -/
theorem tree_root {h : Host} {desc : Descriptor} {r : Nat}
    (hI : Addressed h) (hempty : h.devlist = []) (h1 : 1 ≤ r)
    (h32 : r < 32) :
    Tree h.fresh
      (usbHubDriverBind (enumerated h none 1 desc r) h.fresh desc).2 := by
  have hself : (enumerated h none 1 desc r).devs h.fresh = _ :=
    enumerated_self
  -- no port of a hub that was just bound has a child
  have hno : ∀ y j e, y = h.fresh → ¬PortOf
      (usbHubDriverBind (enumerated h none 1 desc r) h.fresh desc).2
      y j e := by
    intro y j e hy hport
    rw [portOf_bind (by rw [hself])] at hport
    exact hport.1 hy
  obtain ⟨hlist, hbm, hnext, hfresh⟩ :=
    devlist_bind (enumerated h none 1 desc r) h.fresh desc
  have hlist : _ = h.fresh :: h.devlist := hlist
  rw [hempty] at hlist
  have hmem : ∀ d, d ∈ (usbHubDriverBind (enumerated h none 1 desc r)
      h.fresh desc).2.devlist ↔ d = h.fresh := by
    intro d
    rw [hlist, List.mem_singleton]
  have hdev := devs_bind (enumerated h none 1 desc r) h.fresh h.fresh desc
    (by rw [hself])
  rw [hself] at hdev
  have hnone : ∀ d ∈ h.devlist, d ≠ h.fresh := by
    intro d hd
    rw [hempty] at hd
    cases hd
  refine ⟨?_, ?_, ?_, ?_, ?_, ?_, ?_⟩
  -- the root hub is the only device, so every address is free
  · have hI' := addressed_inserted (d := h.fresh) (r := r)
      (addressed_allocated none 1 hI hnone)
      (fun hin => hnone _ hin rfl) h1 h32 (fun e he => by
        have he : e ∈ h.devlist := he
        rw [hempty] at he
        cases he)
    refine hI'.congr ?_ hbm hnext ?_
    · rw [hlist]
      show [h.fresh] = h.fresh :: h.devlist
      rw [hempty]
    · intro d hd
      have hd : d ∈ h.fresh :: h.devlist := hd
      rw [hempty, List.mem_singleton] at hd
      rw [hd, hdev, addr_inserted]
      split
      · rfl
      · rfl
  · intro d hd
    rw [(hmem d).1 hd, hfresh]
    exact Nat.lt_succ_self _
  · intro d hd
    rw [(hmem d).1 hd, hdev]
    split
    · next hbinds =>
        have hcls := hbinds.2
        unfold Descriptor.binds at hcls
        simp only [Bool.and_eq_true, decide_eq_true_eq] at hcls
        exact fun _ => hcls.1.1.1
    · exact nofun
  · intro d
    rw [hmem]
    constructor
    · intro heq
      exact Or.inl heq
    · intro hor
      obtain heq | ⟨y, hy, j, hp⟩ := hor
      · exact heq
      · exact absurd hp (hno y j d ((hmem y).1 hy))
  · intro y hy z hz i j d hp
    exact absurd hp (hno y i d ((hmem y).1 hy))
  · intro y hy i d hp
    exact absurd hp (hno y i d ((hmem y).1 hy))
  · intro d hd
    rw [(hmem d).1 hd]

theorem tree_started {root : DevId} {h : Host} (hs : Started root h) :
    Tree root h := by
  obtain ⟨h₀, desc, rfl, hinit⟩ := hs
  have hI : Addressed (devlistInit h₀) := addressed_init ⟨h₀, rfl⟩
  have hend : SearchEnds (devlistInit h₀) := by
    refine Or.inr ⟨1, Nat.le_refl 1, by decide, ?_⟩
    intro e he
    cases he
  have hroom : (devlistInit h₀).devlist.length ≠ 31 := by
    intro hlen
    cases hlen
  have hnew : ∀ d ∈ (devlistInit h₀).devlist, d ≠ h₀.fresh := by
    intro d hd
    cases hd
  unfold usbInit at hinit
  obtain ⟨r, hrun, h1, h32, -⟩ := usbNewDevice_ok hI hnew hroom hend
  rw [hrun, ok_bind] at hinit
  obtain ⟨-, rfl⟩ := Prod.mk.inj (Except.ok.inj hinit)
  exact tree_root hI rfl h1 h32

/-- What an event does to a tree. -/
theorem handleEvent_ok {root : DevId} {h : Host} (hT : Tree root h)
    {e : PortEvent} (hallow : e.allowed h = true) (hok : PortOk h e) :
    ∃ h', handleEvent h e = .ok h' ∧ Tree root h'
      ∧ (e.Disconnects → ∀ d, PortOf h e.hub (e.port - 1) d →
        ∀ f, Below (PortOf h) d f → f ∉ h'.devlist
          ∧ testBit h'.addrbm (h.devs f).addr.toNat = false) := by
  unfold PortEvent.allowed at hallow
  rw [Bool.and_eq_true, decide_eq_true_eq] at hallow
  obtain ⟨hx, hports⟩ := hallow
  cases hu : (h.devs e.hub).devData with
  | none =>
      rw [hu] at hports
      cases hports
  | some u =>
      rw [hu] at hports
      obtain ⟨hpos, hle⟩ := of_decide_eq_true hports
      have hslot : e.port - 1 < u.nports := by omega
      have hnew : ∀ d ∈ h.devlist, d ≠ h.fresh :=
        fun d hd => Nat.ne_of_lt (hT.lt_fresh d hd)
      unfold handleEvent handlePortChange
      rw [if_neg (by omega), hu]
      simp only
      rw [if_neg (by omega)]
      -- only a change of the connection changes the tree
      by_cases hchange : testBit e.change portConnection = true
      · rw [if_pos ((and_mask_iff e.change (by decide)).2 hchange)]
        by_cases hstatus : testBit e.status portConnection = true
        · rw [if_pos ((and_mask_iff e.status (by decide)).2 hstatus)]
          have hdis : ¬e.Disconnects := by
            intro hd
            rw [hd.2] at hstatus
            cases hstatus
          -- a device was plugged in; with all addresses in use it is
          -- refused and its record dropped
          by_cases hfull : h.devlist.length = 31
          · rw [usbNewDevice_full hT.addressed hnew hfull, ok_bind]
            exact ⟨_, rfl, hT.allocated, fun hd => absurd hd hdis⟩
          · obtain ⟨hend, hnone⟩ :=
              (hok.connects ⟨hchange, hstatus⟩).resolve_left hfull
            obtain ⟨r, hrun, h1, h32, hfree⟩ :=
              usbNewDevice_ok hT.addressed hnew hfull hend
            rw [hrun, ok_bind]
            exact ⟨_, rfl, hT.attach hx hnone hu hslot h1 h32 hfree,
              fun hd => absurd hd hdis⟩
        · rw [if_neg (fun hne => hstatus
            ((and_mask_iff e.status (by decide)).1 hne))]
          -- a device was unplugged; there need not be one on record at the
          -- port
          cases hport : u.port (e.port - 1) with
          | none =>
              refine ⟨h, rfl, hT, ?_⟩
              intro _ d hd
              obtain ⟨u', hu', -, hud⟩ := hd
              rw [hu] at hu'
              cases hu'
              rw [hport] at hud
              cases hud
          | some d =>
              have hd : PortOf h e.hub (e.port - 1) d :=
                ⟨u, hu, hslot, hport⟩
              have hdl := hT.forest.closed e.hub _ d hx hd
              have hdis : e.Disconnects :=
                ⟨hchange, Bool.not_eq_true _ ▸ hstatus⟩
              obtain ⟨h₁, hrun, hg⟩ := usbdevDisconnect_ok h.fresh h d
                (hT.detachable hdl (hok.disconnects hdis d hd))
                (Nat.le_add_left _ _)
              refine ⟨setPort h₁ e.hub e.port none, ?_,
                hT.detach hx hd hg, ?_⟩
              · simp only
                rw [hrun, ok_bind]
              · intro _ d' hd' f hf
                obtain ⟨u', hu', -, hud⟩ := hd'
                rw [hu] at hu'
                cases hu'
                rw [hport] at hud
                cases hud
                exact hg.released hT.addressed (hT.forest.mem hdl hf) hf
      · rw [if_neg (fun hne => hchange
          ((and_mask_iff e.change (by decide)).1 hne))]
        exact ⟨h, rfl, hT, fun hd => absurd hd.1 hchange⟩

/-- And in every state that is reached by port events from there. -/
theorem tree_reachable {root : DevId} {h : Host}
    (hs : Reachable (Started root) portStep PortOk h) : Tree root h := by
  refine hs.invariant (fun s => tree_started) ?_
  intro s e s' hT hok hstep
  unfold portStep at hstep
  split at hstep
  · rename_i hallow
    obtain ⟨h', hrun, hT', -⟩ := handleEvent_ok hT hallow hok
    rw [hrun] at hstep
    cases hstep
    exact hT'
  · cases hstep

/-- A test for `PortOk`, of a port with a device. -/
def portOkCheck (h : Host) (e : PortEvent) : Bool :=
  testBit e.status portConnection && ((List.range 32).any fun a =>
    h.nextAddr ≤ a
      && h.devlist.all fun d => (h.devs d).addr.toNat ≠ a)
    && match (h.devs e.hub).devData with
      | some u => (u.port (e.port - 1)).isNone
      | none => true

/-- An event that passes the executable check meets the condition. -/
theorem portOk_of_check {h : Host} {e : PortEvent}
    (hcheck : portOkCheck h e = true) : PortOk h e := by
  unfold portOkCheck at hcheck
  rw [Bool.and_eq_true, Bool.and_eq_true, List.any_eq_true] at hcheck
  obtain ⟨⟨hstatus, a, ha, hfree⟩, hnone⟩ := hcheck
  rw [Bool.and_eq_true, decide_eq_true_eq, List.all_eq_true] at hfree
  refine ⟨fun _ => ?_, fun hdis => ?_⟩
  rotate_left
  · rw [hdis.2] at hstatus
    cases hstatus
  refine Or.inr ⟨Or.inr ⟨a, hfree.1, List.mem_range.1 ha, ?_⟩, ?_⟩
  · intro d hd
    exact of_decide_eq_true (hfree.2 d hd)
  · intro d hport
    obtain ⟨u, hu, -, hud⟩ := hport
    rw [hu] at hnone
    simp only [hud] at hnone
    cases hnone

/-- Run events that are all of the kind the theorem asks for. -/
def checkedStep (h : Host) (e : PortEvent) : Option Host :=
  if portOkCheck h e then portStep h e else none

/-- A run whose events were checked is one of the admitted runs. -/
theorem reachable_of_checked {root : DevId} {h h' : Host}
    {es : List PortEvent}
    (hs : Reachable (Started root) portStep PortOk h)
    (hrun : run checkedStep h es = some h') :
    Reachable (Started root) portStep PortOk h' := by
  induction es generalizing h with
  | nil =>
      cases hrun
      exact hs
  | cons e es ih =>
      unfold run checkedStep at hrun
      by_cases hcheck : portOkCheck h e = true
      · rw [if_pos hcheck] at hrun
        cases hstep : portStep h e with
        | none =>
            rw [hstep] at hrun
            cases hrun
        | some h₁ =>
            rw [hstep] at hrun
            exact ih (.step e hs (portOk_of_check hcheck) hstep) hrun
      · rw [if_neg hcheck] at hrun
        cases hrun

/-- What is read off a hub that can be bound, or off another device. -/
def sound (cls : UInt8) (nports : Nat) : Descriptor :=
  ⟨cls, nports, true, true, true⟩

/-- The bus with a root hub of two ports. -/
def rootBus : Host :=
  (usbHubDriverBind (enumerated (devlistInit emptyBus) none 1 (sound 9 2) 1)
    0 (sound 9 2)).2

theorem rootBus_started : Started 0 rootBus :=
  ⟨emptyBus, sound 9 2, rfl, rfl⟩

/-- A hub is attached at the first port, and a device behind it. -/
def sampleEvents : List PortEvent :=
  [⟨0, 1, 1, 1, sound 9 4⟩, ⟨1, 3, 1, 1, sound 3 0⟩]

/-- A device is attached, and goes and comes back in one change. -/
def replaceEvents : List PortEvent :=
  [⟨0, 1, 1, 1, sound 3 0⟩, ⟨0, 1, 1, 1, sound 3 0⟩]

/-- No port of a hub in the list records the device. -/
def unrecorded (h : Host) (d : DevId) : Bool :=
  h.devlist.all fun x =>
    match (h.devs x).devData with
    | some u => (List.range u.nports).all fun i => u.port i ≠ some d
    | none => true

/-- A device that no hub has recorded is at no port. -/
theorem not_portOf_of_unrecorded {h : Host} {d : DevId}
    (hcheck : unrecorded h d = true) :
    ∀ x ∈ h.devlist, ∀ i, ¬PortOf h x i d := by
  intro x hx i hport
  obtain ⟨u, hu, hi, hud⟩ := hport
  have hall := List.all_eq_true.1 hcheck x hx
  rw [hu] at hall
  have hne := List.all_eq_true.1 hall i (List.mem_range.2 hi)
  exact of_decide_eq_true hne hud

/-- A hub whose configuration has no endpoint is attached. Its record is
freed, and the detach reads it. -/
theorem unbound_hub :
    ∃ h,
      run portStep rootBus [⟨0, 1, 1, 1, ⟨9, 4, false, true, true⟩⟩]
        = some h
      ∧ (⟨0, 1, 1, 0, sound 9 4⟩ : PortEvent).allowed h = true
      ∧ handleEvent h ⟨0, 1, 1, 0, sound 9 4⟩ = .error .null :=
  ⟨_, rfl, rfl, rfl⟩

end ProjectsLibs.Usb
