/-
The periodic schedule is exact as long as every queue head that is added
finds no first queue head with a lower rate.

The list is sorted, the highest rate first, and rates are powers of two:
a queue head of some rate divides the frames of every one in front of it.
So from the first queue head of a frame on the whole rest of the list is
polled in that frame, and `shadow_flist` has to have that first one
(`Sorted`).

The search for the place of a new queue head starts behind the first one.
With a higher rate than the first it still goes behind it, and its frames
then lead past the first (`add_behind_head`).
-/
import Mathlib.Data.List.Perm.Basic
import Mathlib.Data.List.TakeWhile
import Mathlib.Data.Nat.Init
import ProjectsLibs.Ehci.Periodic

namespace ProjectsLibs.Ehci

open Lib

variable {s s' : PeriodicHost} {q : QhId} {l l₁ l₂ : List QhId}

-- ================================================================ rates

/-- The rates of queue heads. -/
def IsRate (r : Nat) : Prop := r ∈ (List.range 11).map (2 ^ ·)

theorem IsRate.pos {r : Nat} (h : IsRate r) : 0 < r := by
  obtain ⟨k, -, rfl⟩ := List.mem_map.1 h
  exact Nat.two_pow_pos k

/-- Of two rates, which are powers of two, one divides the other. -/
theorem IsRate.dvd {r r' : Nat} (h : IsRate r) (h' : IsRate r')
    (hle : r ≤ r') : r ∣ r' := by
  obtain ⟨k, -, rfl⟩ := List.mem_map.1 h
  obtain ⟨k', -, rfl⟩ := List.mem_map.1 h'
  apply Nat.pow_dvd_pow
  exact (Nat.pow_le_pow_iff_right (by decide)).1 hle

/-- Each divides the size of the frame list. -/
theorem IsRate.dvd_size {r : Nat} (h : IsRate r) : r ∣ flistSize := by
  obtain ⟨k, hk, rfl⟩ := List.mem_map.1 h
  have hle : k ≤ 10 := Nat.le_of_lt_succ (List.mem_range.1 hk)
  exact Nat.pow_dvd_pow 2 hle

/-- The frames that a call goes through. -/
theorem mem_frameIndices {r i : Nat} (h : IsRate r) :
    i ∈ frameIndices r ↔ i < flistSize ∧ r ∣ i + 1 := by
  have hpos := h.pos
  obtain ⟨n, hn⟩ := h.dvd_size
  have hdiv : flistSize / r = n := by
    rw [hn]
    exact Nat.mul_div_cancel_left n hpos
  unfold frameIndices
  rw [hdiv, List.mem_map]
  constructor
  · rintro ⟨k, hk, rfl⟩
    rw [List.mem_range] at hk
    have hidx : r - 1 + k * r + 1 = r * (k + 1) := by
      rw [Nat.mul_succ, Nat.mul_comm r k]
      omega
    have hle : r * (k + 1) ≤ r * n := Nat.mul_le_mul_left r hk
    refine ⟨by omega, ⟨k + 1, hidx⟩⟩
  · rintro ⟨hi, m, hm⟩
    cases m with
    | zero => omega
    | succ k =>
        have hlt : r * k < r * n := by
          rw [Nat.mul_succ] at hm
          omega
        refine ⟨k, List.mem_range.2 (Nat.lt_of_mul_lt_mul_left hlt), ?_⟩
        rw [Nat.mul_succ] at hm
        rw [Nat.mul_comm k r]
        omega

-- ============================================================ the list

/-- The fields of the queue heads that the schedule only reads. -/
structure SameFixed (s s' : PeriodicHost) : Prop where
  pqh : ∀ q, (s'.qhns q).pqh = (s.qhns q).pqh
  rate : ∀ q, (s'.qhns q).rate = (s.qhns q).rate

theorem setQh_rate {f : QHn → QHn} (hr : ∀ x, (f x).rate = x.rate)
    (m : QhId) : ((s.setQh q f).qhns m).rate = (s.qhns m).rate := by
  by_cases hm : m = q
  · subst hm
    simp [hr]
  · simp [hm]

theorem setQh_pqh {f : QHn → QHn} (hp : ∀ x, (f x).pqh = x.pqh)
    (m : QhId) : ((s.setQh q f).qhns m).pqh = (s.qhns m).pqh := by
  by_cases hm : m = q
  · subst hm
    simp [hp]
  · simp [hm]

/-- So the word that points to a queue head is the same. -/
theorem SameFixed.linkTo (h : SameFixed s s') (p : Option QhId) :
    s'.linkTo p = s.linkTo p := by
  cases p with
  | none => rfl
  | some q =>
      show (s'.qhns q).pqh ||| _ = (s.qhns q).pqh ||| _
      rw [h.pqh q]

theorem setQh_linkTo {f : QHn → QHn} (hp : ∀ x, (f x).pqh = x.pqh)
    (p : Option QhId) : (s.setQh q f).linkTo p = s.linkTo p := by
  cases p with
  | none => rfl
  | some m =>
      show ((s.setQh q f).qhns m).pqh ||| _ = (s.qhns m).pqh ||| _
      rw [setQh_pqh hp]

/-- The list of queue heads: the software links, and the link words that
mirror them. -/
structure Linked (s : PeriodicHost) (l : List QhId) : Prop where
  leads : Leads s.nextOf s.intnList l none
  nodup : l.Nodup
  links : ∀ q ∈ l, (s.qhns q).qhlptr = s.linkTo (s.nextOf q)

/-- The list is made of links, so it is the same where these are. -/
theorem Linked.congr (h : Linked s l) (hqhns : s'.qhns = s.qhns)
    (hlist : s'.intnList = s.intnList) : Linked s' l := by
  have hnext : s'.nextOf = s.nextOf := by
    funext q
    unfold PeriodicHost.nextOf
    rw [hqhns]
  have hlink : ∀ p, s'.linkTo p = s.linkTo p :=
    SameFixed.linkTo ⟨fun q => by rw [hqhns], fun q => by rw [hqhns]⟩
  refine ⟨?_, h.nodup, ?_⟩
  · rw [hnext, hlist]
    exact h.leads
  · intro q hq
    rw [hqhns, hlink, hnext]
    exact h.links q hq

/-- The check for a queue head that is listed. -/
theorem isListed_eq {next : QhId → Option QhId} {p : Option QhId}
    (h : Leads next p l none) {fuel : Nat} (hfuel : l.length ≤ fuel) :
    isListed next q fuel p = .ok (decide (q ∈ l)) := by
  induction l generalizing p fuel with
  | nil =>
      have hp : p = none := h
      rw [hp]
      cases fuel <;> rfl
  | cons x l ih =>
      obtain ⟨hp, hl⟩ := h
      cases fuel with
      | zero => cases hfuel
      | succ fuel =>
          rw [hp]
          unfold isListed
          by_cases hx : x = q
          · rw [if_pos hx, decide_eq_true (hx ▸ List.mem_cons_self ..)]
          · rw [if_neg hx, ih hl (Nat.le_of_succ_le_succ hfuel)]
            congr 1
            simp [Ne.symm hx]

-- ============================================================ inserting

/-- What the edits of the list do not touch. -/
structure SameFrames (s s' : PeriodicHost) : Prop where
  flist : s'.flist = s.flist
  shadowFlist : s'.shadowFlist = s.shadowFlist
  scheduled : s'.scheduled = s.scheduled
  crashed : s'.crashed = s.crashed

/-- Where a queue head goes in a list: behind the first one, and behind
those that follow with at least its rate. -/
def behind (rate : QhId → Nat) (q : QhId) : List QhId → List QhId
  | [] => [q]
  | h :: t =>
      h :: t.takeWhile (fun m => rate q ≤ rate m)
        ++ q :: t.dropWhile (fun m => rate q ≤ rate m)

/-- The first queue head of the list. -/
theorem insertQhn_first (q : QhId) (fuel : Nat) (hlist : s.intnList = none) :
    ∃ s', insertQhn s fuel q = .ok s' ∧ SameFixed s s' ∧ SameFrames s s'
      ∧ s'.intnList = some q ∧ s'.nextOf q = none
      ∧ (s'.qhns q).qhlptr = linkInvalid := by
  unfold insertQhn
  simp only [PeriodicHost.setQh_intnList, hlist]
  refine ⟨_, rfl, ?_, ⟨rfl, rfl, rfl, rfl⟩, rfl, ?_, ?_⟩
  · constructor
    · intro m
      simp [setQh_pqh]
    · intro m
      simp [setQh_rate]
  · simp [PeriodicHost.nextOf]
  · simp

/-- The links with the queue head `q` put behind `y`. -/
theorem insertQhn_links {h y : QhId} {fuel : Nat}
    (hlist : s.intnList = some h)
    (hfind : findPlace (s.setQh q fun qhn => { qhn with
      qhlptr := linkInvalid }) fuel (s.qhns q).rate h = .ok y)
    (hne : y ≠ q) :
    ∃ s', insertQhn s fuel q = .ok s' ∧ SameFixed s s' ∧ SameFrames s s'
      ∧ s'.intnList = s.intnList
      ∧ s'.nextOf y = some q ∧ s'.nextOf q = s.nextOf y
      ∧ (s'.qhns y).qhlptr = s.linkTo (some q)
      ∧ (s'.qhns q).qhlptr = s.linkTo (s.nextOf y)
      ∧ ∀ m, m ≠ y → m ≠ q → s'.qhns m = s.qhns m := by
  unfold insertQhn
  simp only [PeriodicHost.setQh_intnList, hlist, PeriodicHost.setQh_self,
    hfind, Bind.bind, Except.bind]
  simp only [PeriodicHost.nextOf, PeriodicHost.setQh_self,
    PeriodicHost.setQh_ne _ _ _ hne, PeriodicHost.setQh_ne _ _ _ hne.symm]
  cases hn : (s.qhns y).next with
  | none =>
      refine ⟨_, rfl, ?_, ⟨rfl, rfl, rfl, rfl⟩, hlist, ?_⟩
      · exact ⟨fun m => by simp [setQh_pqh], fun m => by simp [setQh_rate]⟩
      · simp +contextual [hne, hne.symm, PeriodicHost.linkTo, qhLink]
  | some n =>
      refine ⟨_, rfl, ?_, ⟨rfl, rfl, rfl, rfl⟩, hlist, ?_⟩
      · exact ⟨fun m => by simp [setQh_pqh], fun m => by simp [setQh_rate]⟩
      · simp +contextual [hne, hne.symm, PeriodicHost.linkTo, qhLink,
          setQh_pqh]

/-- The search for the place. -/
theorem Linked.findPlace {x : QhId} {t : List QhId}
    (h : Linked s (x :: t)) (hq : q ∉ x :: t) {fuel : Nat}
    (hfuel : t.length < fuel) :
    ∃ l₁ y, findPlace (s.setQh q fun qhn => { qhn with
        qhlptr := linkInvalid }) fuel (s.qhns q).rate x = .ok y
      ∧ l₁ ++ [y] = x :: t.takeWhile
        (fun m => (s.qhns q).rate ≤ (s.qhns m).rate) := by
  -- the walk does not look at the new queue head
  have hnext : ∀ m ∈ x :: t, (s.setQh q fun qhn => { qhn with
      qhlptr := linkInvalid }).nextOf m = s.nextOf m := by
    intro m hm
    have hne : m ≠ q := by
      intro he
      rw [he] at hm
      exact hq hm
    unfold PeriodicHost.nextOf
    rw [PeriodicHost.setQh_ne _ _ _ hne]
  have hleads := h.leads.congr hnext
  obtain ⟨l₁, y, hwalk, heq⟩ := hleads.2.walkWhile_eq
    (c := fun m => (s.qhns q).rate ≤ (s.qhns m).rate) hfuel
  refine ⟨l₁, y, ?_, heq⟩
  unfold Ehci.findPlace
  simp only [setQh_rate, implies_true]
  rw [hwalk]

/-- A queue head is put into the list. -/
theorem Linked.insertQhn (h : Linked s l) (hq : q ∉ l) {fuel : Nat}
    (hfuel : l.length ≤ fuel) :
    ∃ s', insertQhn s fuel q = .ok s' ∧ SameFixed s s' ∧ SameFrames s s'
      ∧ Linked s' (behind (fun m => (s.qhns m).rate) q l) := by
  cases l with
  | nil =>
      obtain ⟨s', hins, hfix, hframes, hlist, hnext, hlink⟩ :=
        insertQhn_first q fuel h.leads
      refine ⟨s', hins, hfix, hframes, ⟨hlist, hnext⟩, ?_, ?_⟩
      · exact List.nodup_singleton q
      · intro m hm
        rw [List.mem_singleton.1 hm, hlink, hnext]
        rfl
  | cons x t =>
      obtain ⟨l₁, y, hfind, heq⟩ := h.findPlace hq hfuel
      -- the list in two parts, with `y` at the end of the first
      generalize hc : (fun m => decide ((s.qhns q).rate ≤ (s.qhns m).rate))
        = c at heq
      have hparts : x :: t = l₁ ++ y :: t.dropWhile c := by
        calc x :: t = x :: t.takeWhile c ++ t.dropWhile c := by
              rw [List.cons_append, List.takeWhile_append_dropWhile]
          _ = l₁ ++ [y] ++ t.dropWhile c := by rw [heq]
          _ = l₁ ++ y :: t.dropWhile c := List.append_assoc ..
      have hplace : behind (fun m => (s.qhns m).rate) q (x :: t)
          = l₁ ++ y :: q :: t.dropWhile c := by
        calc behind (fun m => (s.qhns m).rate) q (x :: t)
            = x :: t.takeWhile c ++ q :: t.dropWhile c := by rw [← hc]; rfl
          _ = l₁ ++ [y] ++ q :: t.dropWhile c := by rw [heq]
          _ = l₁ ++ y :: q :: t.dropWhile c := List.append_assoc ..
      have hlist := h.leads.1
      rw [hplace]
      rw [hparts] at h hq
      generalize t.dropWhile c = l₂ at h hq ⊢
      have hyq : y ≠ q := by
        intro he
        exact hq (he ▸ List.mem_append_right _ (List.mem_cons_self ..))
      obtain ⟨s', hins, hfix, hframes, hlist', hy, hqn, hylink, hqlink,
        hrest⟩ := insertQhn_links hlist hfind hyq
      have hnd : (q :: (l₁ ++ y :: l₂)).Nodup :=
        List.nodup_cons.2 ⟨hq, h.nodup⟩
      -- the others keep their links
      have hothers : ∀ m ∈ l₁ ++ l₂, s'.qhns m = s.qhns m := by
        intro m hm
        apply hrest m
        · rintro rfl
          have := List.nodup_middle.1 h.nodup
          exact (List.nodup_cons.1 this).1 hm
        · rintro rfl
          apply hq
          simp only [List.mem_append, List.mem_cons] at hm ⊢
          tauto
      refine ⟨s', hins, hfix, hframes, ?_, ?_, ?_⟩
      · rw [hlist']
        apply h.leads.insert
        · intro m hm
          unfold PeriodicHost.nextOf
          rw [hothers m hm]
        · exact hy
        · exact hqn
      · have hperm : (l₁ ++ [y] ++ q :: l₂).Perm
            (q :: (l₁ ++ [y] ++ l₂)) :=
          List.perm_middle
        rw [List.append_assoc, List.append_assoc] at hperm
        exact hperm.nodup_iff.2 hnd
      · intro m hm
        rw [hfix.linkTo]
        by_cases hmy : m = y
        · rw [hmy, hylink, hy]
        · by_cases hmq : m = q
          · rw [hmq, hqlink, hqn]
          · have hold : m ∈ l₁ ++ y :: l₂ := by
              simp only [List.mem_append, List.mem_cons] at hm ⊢
              tauto
            unfold PeriodicHost.nextOf
            rw [hrest m hmy hmq]
            exact h.links m hold

-- ============================================================= unlinking

/-- The first queue head leaves the list. -/
theorem Linked.unlinkQhn_first (h : Linked s (q :: l₂)) (fuel : Nat) :
    ∃ s', unlinkQhn s fuel q = .ok s' ∧ SameFixed s s' ∧ SameFrames s s'
      ∧ s'.qhns q = s.qhns q ∧ Linked s' l₂ := by
  obtain ⟨hlist, hleads⟩ := h.leads
  refine ⟨{ s with intnList := s.nextOf q }, if_pos hlist,
    ⟨fun _ => rfl, fun _ => rfl⟩, ⟨rfl, rfl, rfl, rfl⟩, rfl, ?_⟩
  constructor
  · exact hleads
  · exact (List.nodup_cons.1 h.nodup).2
  · intro m hm
    exact h.links m (List.mem_cons_of_mem q hm)

/-- The walk to the queue head `y` in front of `q`. -/
theorem Linked.walk_to {y : QhId} (h : Linked s (l₁ ++ y :: q :: l₂))
    (hq : q ∉ l₁ ++ y :: l₂) {fuel : Nat}
    (hfuel : (l₁ ++ y :: q :: l₂).length ≤ fuel) :
    ∃ x, s.intnList = some x ∧ x ≠ q
      ∧ walkWhile s.nextOf (fun m => m ≠ q) fuel x = some y := by
  obtain ⟨x, t, hxt⟩ : ∃ x t, l₁ ++ [y] = x :: t := by
    cases l₁ with
    | nil => exact ⟨y, [], rfl⟩
    | cons x l₁ => exact ⟨x, l₁ ++ [y], rfl⟩
  have hsplit : l₁ ++ y :: q :: l₂ = x :: (t ++ q :: l₂) := by
    rw [← List.cons_append, ← hxt, List.append_assoc]
    rfl
  have hfront : ∀ m ∈ x :: t, m ≠ q := by
    intro m hm
    rw [← hxt] at hm
    rintro rfl
    apply hq
    simp only [List.mem_append, List.mem_cons, List.not_mem_nil] at hm ⊢
    tauto
  have hleads := h.leads
  rw [hsplit] at hleads hfuel
  obtain ⟨hlist, hleads⟩ := hleads
  obtain ⟨l', y', hwalk, heq⟩ := hleads.walkWhile_eq
    (c := fun m => m ≠ q) (Nat.lt_of_succ_le hfuel)
  have htake : (t ++ q :: l₂).takeWhile (fun m => decide (m ≠ q)) = t := by
    have hall : ∀ m ∈ t, decide (m ≠ q) = true := by
      intro m hm
      exact decide_eq_true (hfront m (List.mem_cons_of_mem x hm))
    rw [List.takeWhile_append_of_pos hall, List.takeWhile_cons_of_neg]
    · exact List.append_nil t
    · simp
  rw [htake, ← hxt] at heq
  have hy : y' = y := by
    have hlast := List.append_inj_right' heq rfl
    exact List.singleton_inj.1 hlast
  rw [hy] at hwalk
  exact ⟨x, hlist, hfront x (List.mem_cons_self ..), hwalk⟩

/-- Another queue head leaves the list: `y` is in front of it. -/
theorem Linked.unlinkQhn_behind {y : QhId}
    (h : Linked s (l₁ ++ y :: q :: l₂)) {fuel : Nat}
    (hfuel : (l₁ ++ y :: q :: l₂).length ≤ fuel) :
    ∃ s', unlinkQhn s fuel q = .ok s' ∧ SameFixed s s' ∧ SameFrames s s'
      ∧ s'.qhns q = s.qhns q ∧ Linked s' (l₁ ++ y :: l₂) := by
  have hperm : (l₁ ++ [y] ++ q :: l₂).Perm (q :: (l₁ ++ [y] ++ l₂)) :=
    List.perm_middle
  rw [List.append_assoc, List.append_assoc] at hperm
  obtain ⟨hq, hnd⟩ := List.nodup_cons.1 (hperm.nodup_iff.1 h.nodup)
  have hqy : q ≠ y := by
    rintro rfl
    exact hq (List.mem_append_right _ (List.mem_cons_self ..))
  have hy : y ∉ l₁ ++ l₂ :=
    (List.nodup_cons.1 (List.nodup_middle.1 hnd)).1
  obtain ⟨x, hlist, hxq, hwalk⟩ := h.walk_to hq hfuel
  unfold Ehci.unlinkQhn
  rw [hlist, if_neg (by simpa using hxq)]
  simp only [hwalk]
  refine ⟨_, rfl, ?_, ⟨rfl, rfl, rfl, rfl⟩, ?_, ?_, ?_, ?_⟩
  · exact ⟨fun m => by simp [setQh_pqh], fun m => by simp [setQh_rate]⟩
  · simp [hqy]
  · apply h.leads.remove
    · intro m hm
      have hmy : m ≠ y := fun he => hy (he ▸ hm)
      simp [PeriodicHost.nextOf, hmy]
    · simp [PeriodicHost.nextOf]
  · exact hnd
  · intro m hm
    by_cases hmy : m = y
    · simp [hmy, PeriodicHost.nextOf, hqy, setQh_linkTo]
    · have hold : m ∈ l₁ ++ y :: q :: l₂ := by
        simp only [List.mem_append, List.mem_cons] at hm ⊢
        tauto
      simpa [PeriodicHost.nextOf, hmy, setQh_linkTo] using h.links m hold

/-- A queue head leaves the list. -/
theorem Linked.unlinkQhn (h : Linked s (l₁ ++ q :: l₂)) {fuel : Nat}
    (hfuel : (l₁ ++ q :: l₂).length ≤ fuel) :
    ∃ s', unlinkQhn s fuel q = .ok s' ∧ SameFixed s s' ∧ SameFrames s s'
      ∧ s'.qhns q = s.qhns q ∧ Linked s' (l₁ ++ l₂) := by
  rcases List.eq_nil_or_concat l₁ with rfl | ⟨l₀, y, rfl⟩
  · exact h.unlinkQhn_first fuel
  · rw [List.concat_eq_append, List.append_assoc] at h hfuel ⊢
    exact h.unlinkQhn_behind hfuel

-- =============================================================== frames

/-- The frame list mirrors its shadow. -/
def Mirrors (s : PeriodicHost) : Prop :=
  ∀ f, s.flist = some f → ∀ i, f i = s.linkTo (s.shadowFlist i)

/-- In the frames of `L` the shadow has changed by `g`, and nothing else
has. -/
structure Framed (g : Option QhId → Option QhId) (L : List Nat)
    (s s' : PeriodicHost) : Prop where
  qhns : s'.qhns = s.qhns
  intnList : s'.intnList = s.intnList
  crashed : s'.crashed = s.crashed
  flist : s'.flist = none → s.flist = none
  shadow : ∀ i, s'.shadowFlist i
    = if i ∈ L then g (s.shadowFlist i) else s.shadowFlist i
  mirrors : Mirrors s → Mirrors s'

/-- A loop over frames that changes each as `g` says. -/
theorem framed_foldl {g : Option QhId → Option QhId}
    (hidem : ∀ p, g (g p) = g p)
    {step : PeriodicHost → Nat → PeriodicHost} {qhns : QhId → QHn}
    (hstep : ∀ s i, s.qhns = qhns → Framed g [i] s (step s i))
    (L : List Nat) (hs : s.qhns = qhns) :
    Framed g L s (L.foldl step s) := by
  induction L generalizing s with
  | nil =>
      refine ⟨rfl, rfl, rfl, id, fun i => ?_, id⟩
      simp
  | cons i L ih =>
      have h₁ := hstep s i hs
      have h₂ := ih (s := step s i) (h₁.qhns.trans hs)
      refine ⟨h₂.qhns.trans h₁.qhns, h₂.intnList.trans h₁.intnList,
        h₂.crashed.trans h₁.crashed, h₁.flist ∘ h₂.flist, ?_,
        h₂.mirrors ∘ h₁.mirrors⟩
      intro j
      rw [List.foldl_cons, h₂.shadow j, h₁.shadow j]
      by_cases hj : j = i
      · subst hj
        simp [hidem]
      · simp [hj]

/-- A frame that is given a queue head, with the word that leads to it. -/
theorem framed_update {g : Option QhId → Option QhId} {i : Nat}
    {w : UInt32} (hw : w = s.linkTo (g (s.shadowFlist i))) :
    Framed g [i] s { s with
      shadowFlist := Function.update s.shadowFlist i (g (s.shadowFlist i))
      flist := s.flist.map fun f => Function.update f i w } := by
  refine ⟨rfl, rfl, rfl, ?_, ?_, ?_⟩
  · intro hnone
    exact Option.map_eq_none_iff.1 hnone
  · intro j
    by_cases hj : j = i
    · subst hj
      simp
    · simp [hj]
  · intro hm f' hf' j
    obtain ⟨f, hf, rfl⟩ := Option.map_eq_some_iff.1 hf'
    by_cases hj : j = i
    · subst hj
      simp only [Function.update_self]
      exact hw
    · simp only [Function.update_of_ne hj]
      exact hm f hf j

/-- A frame that stays as it is. -/
theorem framed_keep {g : Option QhId → Option QhId} {i : Nat}
    (hg : g (s.shadowFlist i) = s.shadowFlist i) : Framed g [i] s s := by
  refine ⟨rfl, rfl, rfl, id, ?_, id⟩
  intro j
  by_cases hj : j = i
  · subst hj
    simp [hg]
  · simp [hj]

/-- What the addition of `q` does to the first queue head of one of its
frames. -/
def placed (rate : QhId → Nat) (q : QhId) : Option QhId → Option QhId
  | none => some q
  | some cur => if rate cur < rate q then some q else some cur

theorem placed_placed (rate : QhId → Nat) (q : QhId) (p : Option QhId) :
    placed rate q (placed rate q p) = placed rate q p := by
  cases p with
  | none => simp [placed]
  | some cur =>
      by_cases hlt : rate cur < rate q
      · simp [placed, hlt]
      · simp [placed, hlt]

/-- The loop of an addition. -/
theorem framed_addFrame (L : List Nat) :
    Framed (placed (fun m => (s.qhns m).rate) q) L s
      (L.foldl (addFrame q) s) := by
  refine framed_foldl (placed_placed _ q) (fun t i ht => ?_) L rfl
  have hrate : (fun m => (s.qhns m).rate) = fun m => (t.qhns m).rate := by
    rw [ht]
  rw [hrate]
  -- the frame is replaced exactly if it is given to `q`
  have hupdate : placed (fun m => (t.qhns m).rate) q (t.shadowFlist i)
      = some q → Framed (placed (fun m => (t.qhns m).rate) q) [i] t { t with
        shadowFlist := Function.update t.shadowFlist i (some q)
        flist := t.flist.map fun f =>
          Function.update f i (qhLink (t.qhns q)) } := by
    intro hq
    have hframed := framed_update (s := t) (i := i)
      (g := placed (fun m => (t.qhns m).rate) q) (w := qhLink (t.qhns q))
    rw [hq] at hframed
    exact hframed rfl
  unfold addFrame
  cases hcur : t.shadowFlist i with
  | none =>
      apply hupdate
      rw [hcur]
      rfl
  | some cur =>
      by_cases hlt : (t.qhns cur).rate < (t.qhns q).rate
      · simp only [hlt, decide_true, if_true]
        apply hupdate
        rw [hcur]
        exact if_pos hlt
      · simp only [hlt, decide_false, Bool.false_eq_true, if_false]
        apply framed_keep
        rw [hcur]
        exact if_neg hlt

/-- What the removal of `q` does to the first queue head of one of its
frames. -/
def removed (next : Option QhId) (q : QhId) (p : Option QhId) :
    Option QhId :=
  if p = some q then next else p

/-- The loop of a removal. -/
theorem framed_delFrame (hlink : (s.qhns q).qhlptr = s.linkTo (s.nextOf q))
    (hnext : s.nextOf q ≠ some q) (L : List Nat) :
    Framed (removed (s.nextOf q) q) L s (L.foldl (delFrame q) s) := by
  have hidem : ∀ p, removed (s.nextOf q) q (removed (s.nextOf q) q p)
      = removed (s.nextOf q) q p := by
    intro p
    unfold removed
    by_cases hp : p = some q
    · simp [hp, hnext]
    · simp [hp]
  refine framed_foldl hidem (fun t i ht => ?_) L rfl
  have hqn : s.nextOf q = t.nextOf q := by
    unfold PeriodicHost.nextOf
    rw [ht]
  unfold delFrame
  by_cases hcur : t.shadowFlist i = some q
  · rw [if_pos hcur]
    have hg : removed (s.nextOf q) q (t.shadowFlist i) = t.nextOf q := by
      rw [hqn]
      exact if_pos hcur
    rw [← hg]
    apply framed_update
    rw [hg, ht, hlink, ← hqn]
    exact (SameFixed.linkTo ⟨fun m => by rw [ht],
      fun m => by rw [ht]⟩ _).symm
  · rw [if_neg hcur]
    exact framed_keep (if_neg hcur)

-- ====================================================== sorted schedules

/-- The queue heads of the list: sorted, and as they are allocated. -/
structure Heads (s : PeriodicHost) (l : List QhId) : Prop where
  order : l.Pairwise fun a b => (s.qhns b).rate ≤ (s.qhns a).rate
  rates : ∀ q ∈ l, IsRate (s.qhns q).rate
  aligned : ∀ q ∈ l, (s.qhns q).pqh &&& 31 = 0
  own : ∀ a ∈ l, ∀ b ∈ l, (s.qhns a).pqh = (s.qhns b).pqh → a = b

/-- The queue head is polled in frame `i`. -/
def polledIn (s : PeriodicHost) (i : Nat) (q : QhId) : Bool :=
  decide ((s.qhns q).rate ∣ i + 1)

/-- The schedule with the sorted list `l`. -/
structure Sorted (s : PeriodicHost) (l : List QhId) : Prop where
  running : s.crashed = false
  linked : Linked s l
  perm : l.Perm s.scheduled
  heads : Heads s l
  empty : s.flist = none → l = []
  mirrors : Mirrors s
  first : s.flist ≠ none → ∀ i < flistSize,
    s.shadowFlist i = l.find? (polledIn s i)

/-- What is asked of the heads of frames depends on rates and addresses
only. -/
theorem Heads.congr (h : Heads s l) (hfix : SameFixed s s') :
    Heads s' l := by
  obtain ⟨hpqh, hrate⟩ := hfix
  constructor
  · simp only [hrate]
    exact h.order
  · simp only [hrate]
    exact h.rates
  · simp only [hpqh]
    exact h.aligned
  · simp only [hpqh]
    exact h.own

theorem Heads.sublist (h : Heads s l) (hsub : l₁.Sublist l) :
    Heads s l₁ := by
  constructor
  · exact h.order.sublist hsub
  · exact fun q hq => h.rates q (hsub.subset hq)
  · exact fun q hq => h.aligned q (hsub.subset hq)
  · exact fun a ha b hb => h.own a (hsub.subset ha) b (hsub.subset hb)

/-- Behind a queue head that is polled in a frame all others are. -/
theorem Heads.polled_behind {i : Nat} (h : Heads s (l₁ ++ q :: l₂))
    (hq : polledIn s i q = true) : ∀ m ∈ l₂, polledIn s i m = true := by
  intro m hm
  have htail := (List.pairwise_append.1 h.order).2.1
  have hle := (List.pairwise_cons.1 htail).1 m hm
  have hdvd : (s.qhns m).rate ∣ (s.qhns q).rate := by
    apply IsRate.dvd _ _ hle
    · exact h.rates m (by simp [hm])
    · exact h.rates q (by simp)
  exact decide_eq_true (hdvd.trans (of_decide_eq_true hq))

-- ================================================ what is to be shown

/-- The controller follows the list. -/
theorem Heads.hwLeads (hheads : Heads s l)
    (hlinks : ∀ q ∈ l, (s.qhns q).qhlptr = s.linkTo (s.nextOf q))
    (hmem : ∀ q ∈ l, q ∈ s.scheduled)
    {p : Option QhId} (hp : Leads s.nextOf p l none) :
    HwLeads s (s.linkTo p) l := by
  induction l generalizing p with
  | nil =>
      have hnone : p = none := hp
      rw [hnone]
      show linkInvalid &&& linkInvalid ≠ 0
      decide
  | cons q l ih =>
      obtain ⟨hpq, hl⟩ := hp
      rw [hpq]
      have hal := hheads.aligned q (List.mem_cons_self ..)
      refine ⟨qhLink_valid hal, hmem q (List.mem_cons_self ..),
        qhLink_address hal, ?_⟩
      rw [hlinks q (List.mem_cons_self ..)]
      apply ih _ _ _ hl
      · exact hheads.sublist (List.sublist_cons_self ..)
      · exact fun m hm => hlinks m (List.mem_cons_of_mem q hm)
      · exact fun m hm => hmem m (List.mem_cons_of_mem q hm)

/-- A word leads the controller along one path only. -/
theorem HwLeads.unique
    (hown : ∀ a ∈ s.scheduled, ∀ b ∈ s.scheduled,
      (s.qhns a).pqh = (s.qhns b).pqh → a = b)
    {w : UInt32} (h₁ : HwLeads s w l₁) (h₂ : HwLeads s w l₂) :
    l₁ = l₂ := by
  induction l₁ generalizing w l₂ with
  | nil =>
      cases l₂ with
      | nil => rfl
      | cons b l₂ => exact absurd h₂.1 h₁
  | cons a l₁ ih =>
      cases l₂ with
      | nil => exact absurd h₁.1 h₂
      | cons b l₂ =>
          obtain ⟨-, ha, haw, hal⟩ := h₁
          obtain ⟨-, hb, hbw, hbl⟩ := h₂
          have hab := hown a ha b hb (haw.symm.trans hbw)
          subst hab
          rw [ih hal hbl]

/-- The schedule with a sorted list is exact. -/
theorem Sorted.exact (h : Sorted s l) : ScheduleExact s := by
  refine ⟨h.running, ?_, ?_⟩
  · intro hnone
    have hperm := h.perm
    rw [h.empty hnone] at hperm
    exact hperm.nil_eq.symm
  · intro f hf i hi
    have hshadow := h.first (by rw [hf]; exact nofun) i hi
    rw [h.mirrors f hf i, hshadow]
    cases hfind : l.find? (polledIn s i) with
    | none =>
        refine ⟨[], by show linkInvalid &&& linkInvalid ≠ 0; decide,
          List.nodup_nil, ?_⟩
        intro q
        rw [List.find?_eq_none] at hfind
        constructor
        · nofun
        · rintro ⟨hq, hdvd⟩
          exact absurd (decide_eq_true hdvd)
            (hfind q (h.perm.mem_iff.2 hq))
    | some q =>
        obtain ⟨hq, l₁, l₂, rfl, hnone⟩ :=
          List.find?_eq_some_iff_append.1 hfind
        have hsub : (q :: l₂).Sublist (l₁ ++ q :: l₂) :=
          List.sublist_append_right ..
        refine ⟨q :: l₂, ?_, h.linked.nodup.sublist hsub, ?_⟩
        · apply (h.heads.sublist hsub).hwLeads
          · exact fun m hm => h.linked.links m (hsub.subset hm)
          · exact fun m hm => h.perm.mem_iff.1 (hsub.subset hm)
          · exact ⟨rfl, (Leads.split_iff.1 h.linked.leads).2⟩
        · intro m
          rw [← h.perm.mem_iff]
          constructor
          · intro hm
            refine ⟨hsub.subset hm, ?_⟩
            rcases List.mem_cons.1 hm with rfl | hm
            · exact of_decide_eq_true hq
            · exact of_decide_eq_true (h.heads.polled_behind hq m hm)
          · rintro ⟨hm, hdvd⟩
            rcases List.mem_append.1 hm with hm | hm
            · have hno := hnone m hm
              rw [polledIn, decide_eq_true hdvd] at hno
              cases hno
            · exact hm

-- ============================================================ additions

/-- Where a queue head goes in a sorted list. -/
theorem behind_eq {rate : QhId → Nat}
    (horder : l.Pairwise fun a b => rate b ≤ rate a)
    (hhead : ∀ x ∈ l.head?, rate q ≤ rate x) :
    ∃ l₁ l₂, l = l₁ ++ l₂ ∧ behind rate q l = l₁ ++ q :: l₂
      ∧ (∀ m ∈ l₁, rate q ≤ rate m)
        ∧ ∀ m ∈ l₂, rate m < rate q := by
  cases l with
  | nil => exact ⟨[], [], rfl, rfl, nofun, nofun⟩
  | cons x t =>
      refine ⟨x :: t.takeWhile (fun m => rate q ≤ rate m),
        t.dropWhile (fun m => rate q ≤ rate m), ?_, rfl, ?_, ?_⟩
      · rw [List.cons_append, List.takeWhile_append_dropWhile]
      · intro m hm
        rcases List.mem_cons.1 hm with rfl | hm
        · exact hhead m rfl
        · have hpos := List.mem_takeWhile_imp hm
          exact of_decide_eq_true hpos
      · intro m hm
        have hdrop := (List.pairwise_cons.1 horder).2.sublist
          (List.dropWhile_sublist fun m => decide (rate q ≤ rate m))
        -- the first one behind has a lower rate, and so have the others
        cases hd : t.dropWhile (fun m => decide (rate q ≤ rate m)) with
        | nil =>
            rw [hd] at hm
            cases hm
        | cons y l₂ =>
            have hy : rate y < rate q := by
              have hnot := List.head?_dropWhile_not
                (fun m => decide (rate q ≤ rate m)) t
              rw [hd] at hnot
              exact Nat.not_le.1 (of_decide_eq_false hnot)
            rw [hd] at hm hdrop
            rcases List.mem_cons.1 hm with rfl | hm
            · exact hy
            · exact Nat.lt_of_le_of_lt
                ((List.pairwise_cons.1 hdrop).1 m hm) hy

/-- The first queue head of a frame after an addition. -/
theorem find?_placed {rate : QhId → Nat} {c : QhId → Bool}
    (h₁ : ∀ m ∈ l₁, rate q ≤ rate m)
    (h₂ : ∀ m ∈ l₂, rate m < rate q)
    (hc : c q = true) :
    (l₁ ++ q :: l₂).find? c = placed rate q ((l₁ ++ l₂).find? c) := by
  rw [List.find?_append, List.find?_append, List.find?_cons_of_pos hc]
  cases hf : l₁.find? c with
  | some m =>
      have hle := h₁ m (List.mem_of_find?_eq_some hf)
      simp [placed, Nat.not_lt.2 hle]
  | none =>
      cases hf₂ : l₂.find? c with
      | none => rfl
      | some m =>
          have hlt := h₂ m (List.mem_of_find?_eq_some hf₂)
          simp [placed, hlt]

/-- The first queue head of a frame after a removal. -/
theorem find?_removed {c : QhId → Bool} (hnd : (l₁ ++ q :: l₂).Nodup)
    (hc : c q = true) (h₂ : ∀ m ∈ l₂, c m = true) :
    (l₁ ++ l₂).find? c
      = removed l₂.head? q ((l₁ ++ q :: l₂).find? c) := by
  rw [List.find?_append, List.find?_append, List.find?_cons_of_pos hc]
  cases hf : l₁.find? c with
  | some m =>
      have hne : m ≠ q := by
        rintro rfl
        have hm := List.mem_of_find?_eq_some hf
        have hnot := (List.nodup_cons.1 (List.nodup_middle.1 hnd)).1
        exact hnot (List.mem_append_left _ hm)
      simp [removed, hne]
  | none =>
      cases l₂ with
      | nil => simp [removed]
      | cons y l₂ => simp [removed, h₂ y (List.mem_cons_self ..)]

/-- An element that is not looked for may be left out. -/
theorem find?_not {c : QhId → Bool} (hc : c q = false) :
    (l₁ ++ q :: l₂).find? c = (l₁ ++ l₂).find? c := by
  rw [List.find?_append, List.find?_append,
    List.find?_cons_of_neg (by rw [hc]; exact Bool.false_ne_true)]

/-- The frame list is there. -/
theorem Sorted.allocFlist (h : Sorted s l) :
    Sorted (allocFlist s) l ∧ (allocFlist s).flist ≠ none
      ∧ (allocFlist s).qhns = s.qhns := by
  unfold Ehci.allocFlist
  cases hf : s.flist with
  | some f =>
      refine ⟨h, ?_, rfl⟩
      rw [hf]
      exact nofun
  | none =>
      have hl := h.empty hf
      subst hl
      refine ⟨⟨h.running, h.linked.congr rfl rfl, h.perm,
        h.heads.congr ⟨fun _ => rfl, fun _ => rfl⟩, fun _ => rfl, ?_, ?_⟩,
        nofun, rfl⟩
      · rintro f hf i
        cases hf
        rfl
      · intro _ i _
        rfl

/-- What an addition does. -/
theorem Sorted.add_eq (h : Sorted s l) (hq : q ∉ l)
    (hrate : IsRate (s.qhns q).rate) {fuel : Nat} (hfuel : l.length ≤ fuel) :
    ∃ s', ehciAddQhnPeriodic fuel s q = .ok s' ∧ SameFixed s s'
      ∧ s'.crashed = false ∧ s'.flist ≠ none ∧ Mirrors s'
      ∧ Linked s' (behind (fun m => (s.qhns m).rate) q l)
      ∧ ∀ i < flistSize, s'.shadowFlist i
        = if polledIn s i q = true
          then placed (fun m => (s.qhns m).rate) q (l.find? (polledIn s i))
          else l.find? (polledIn s i) := by
  obtain ⟨h₀, hflist, hqhns⟩ := h.allocFlist
  unfold ehciAddQhnPeriodic
  generalize Ehci.allocFlist s = s₀ at h₀ hflist hqhns
  obtain ⟨s₁, hins, hfix, hframes, hlinked⟩ :=
    h₀.linked.insertQhn hq hfuel
  have hframed := framed_addFrame (s := s₁) (q := q)
    (frameIndices (s₁.qhns q).rate)
  simp only [isListed_eq h₀.linked.leads hfuel, hq, hins, decide_false,
    Bool.false_eq_true, if_false, Bind.bind, Except.bind]
  have hrates : ∀ m, (s₁.qhns m).rate = (s.qhns m).rate := by
    intro m
    rw [hfix.rate m, hqhns]
  have hshadow := hframed.shadow
  simp only [hrates] at hshadow hframed ⊢
  generalize (frameIndices (s.qhns q).rate).foldl (addFrame q) s₁ = s'
    at hframed hshadow ⊢
  refine ⟨s', rfl, ?_, ?_, ?_, ?_, ?_, ?_⟩
  · constructor
    · intro m
      rw [hframed.qhns, hfix.pqh m, hqhns]
    · intro m
      rw [hframed.qhns, hrates m]
  · rw [hframed.crashed, hframes.crashed, h₀.running]
  · intro hnone
    apply hflist
    rw [← hframes.flist]
    exact hframed.flist hnone
  · apply hframed.mirrors
    intro f hf i
    rw [hframes.flist] at hf
    rw [hfix.linkTo, hframes.shadowFlist]
    exact h₀.mirrors f hf i
  · rw [hqhns] at hlinked
    exact hlinked.congr hframed.qhns hframed.intnList
  · intro i hi
    rw [hshadow i, hframes.shadowFlist, h₀.first hflist i hi]
    have hpolled : polledIn s₀ i = polledIn s i := by
      unfold polledIn
      rw [hqhns]
    rw [hpolled]
    by_cases hpoll : polledIn s i q = true
    · rw [if_pos hpoll, if_pos]
      exact (mem_frameIndices hrate).2 ⟨hi, of_decide_eq_true hpoll⟩
    · rw [if_neg hpoll, if_neg]
      intro hmem
      exact hpoll (decide_eq_true ((mem_frameIndices hrate).1 hmem).2)

/-- Whether a queue head is polled in a frame depends on its rate. -/
theorem polledIn_congr (h : SameFixed s s') (i : Nat) :
    polledIn s' i = polledIn s i := by
  funext m
  unfold polledIn
  rw [h.rate m]

/-- A queue head that is new among those of the list. -/
theorem Heads.insert (h : Heads s (l₁ ++ l₂))
    (hrate : IsRate (s.qhns q).rate)
    (hal : (s.qhns q).pqh &&& 31 = 0)
    (hown : ∀ m ∈ l₁ ++ l₂, (s.qhns m).pqh ≠ (s.qhns q).pqh)
    (h₁ : ∀ m ∈ l₁, (s.qhns q).rate ≤ (s.qhns m).rate)
    (h₂ : ∀ m ∈ l₂, (s.qhns m).rate ≤ (s.qhns q).rate) :
    Heads s (l₁ ++ q :: l₂) := by
  have hmem : ∀ m, m ∈ l₁ ++ q :: l₂
      ↔ m = q ∨ m ∈ l₁ ++ l₂ := by
    intro m
    rw [List.perm_middle.mem_iff, List.mem_cons]
  obtain ⟨ho₁, ho₂, ho⟩ := List.pairwise_append.1 h.order
  constructor
  · rw [List.pairwise_append, List.pairwise_cons]
    refine ⟨ho₁, ⟨h₂, ho₂⟩, ?_⟩
    intro a ha b hb
    rcases List.mem_cons.1 hb with rfl | hb
    · exact h₁ a ha
    · exact ho a ha b hb
  · intro m hm
    rcases (hmem m).1 hm with rfl | hm
    · exact hrate
    · exact h.rates m hm
  · intro m hm
    rcases (hmem m).1 hm with rfl | hm
    · exact hal
    · exact h.aligned m hm
  · intro a ha b hb hab
    rcases (hmem a).1 ha with haq | ha
    · rcases (hmem b).1 hb with hbq | hb
      · rw [haq, hbq]
      · rw [haq] at hab
        exact absurd hab.symm (hown b hb)
    · rcases (hmem b).1 hb with hbq | hb
      · rw [hbq] at hab
        exact absurd hab (hown a ha)
      · exact h.own a ha b hb hab

/-- A queue head that is added. -/
theorem Sorted.add (h : Sorted s l) (hq : q ∉ l) (halloc : Allocated s q)
    (hhead : ∀ x ∈ l.head?, (s.qhns q).rate ≤ (s.qhns x).rate)
    {fuel : Nat}
    (hfuel : l.length ≤ fuel) :
    ∃ s' l', ehciAddQhnPeriodic fuel s q = .ok s'
      ∧ Sorted { s' with scheduled := q :: s.scheduled } l' := by
  obtain ⟨s', hadd, hfix, hrun, hflist, hmirrors, hlinked, hshadow⟩ :=
    h.add_eq hq halloc.rate hfuel
  obtain ⟨l₁, l₂, rfl, hbehind, h₁, h₂⟩ :=
    behind_eq h.heads.order hhead
  rw [hbehind] at hlinked
  refine ⟨s', l₁ ++ q :: l₂, hadd, hrun, hlinked.congr rfl rfl, ?_, ?_,
    ?_, hmirrors, ?_⟩
  · exact List.perm_middle.trans (h.perm.cons q)
  · have hheads : Heads s (l₁ ++ q :: l₂) := by
      apply h.heads.insert halloc.rate halloc.aligned _ h₁
      · exact fun m hm => Nat.le_of_lt (h₂ m hm)
      · exact fun m hm => halloc.own m (h.perm.mem_iff.1 hm)
    exact hheads.congr ⟨hfix.pqh, hfix.rate⟩
  · exact fun hnone => absurd hnone hflist
  · intro _ i hi
    show s'.shadowFlist i = (l₁ ++ q :: l₂).find? (polledIn s' i)
    rw [hshadow i hi, polledIn_congr hfix]
    by_cases hpoll : polledIn s i q = true
    · rw [if_pos hpoll]
      exact (find?_placed h₁ h₂ hpoll).symm
    · rw [if_neg hpoll]
      exact (find?_not (Bool.eq_false_iff.2 hpoll)).symm

/-- A queue head that is there already. -/
theorem Sorted.add_listed (h : Sorted s l) (hq : q ∈ l) {fuel : Nat}
    (hfuel : l.length ≤ fuel) :
    ∃ s', ehciAddQhnPeriodic fuel s q = .ok s' ∧ Sorted s' l
      ∧ s'.scheduled = s.scheduled := by
  obtain ⟨h₀, -, -⟩ := h.allocFlist
  refine ⟨Ehci.allocFlist s, ?_, h₀, ?_⟩
  · unfold ehciAddQhnPeriodic
    simp only [isListed_eq h₀.linked.leads hfuel, hq, decide_true, if_true,
      Bind.bind, Except.bind]
  · unfold Ehci.allocFlist
    cases s.flist <;> rfl

-- ============================================================= removals

/-- The descriptor is not part of the schedule. -/
theorem Sorted.setTdns (h : Sorted s l) (tdns : TdId → TDn) :
    Sorted { s with tdns := tdns } l :=
  ⟨h.running, h.linked.congr rfl rfl, h.perm,
    h.heads.congr ⟨fun _ => rfl, fun _ => rfl⟩, h.empty, h.mirrors,
      h.first⟩

/-- A queue head that is removed. -/
theorem Sorted.del (h : Sorted s (l₁ ++ q :: l₂)) {t : TdId}
    (ht : (s.qhns q).tdns = some t) (htd : (s.tdns t).td = true)
    {fuel : Nat}
    (hfuel : (l₁ ++ q :: l₂).length ≤ fuel) :
    ∃ s', ehciDelQhnPeriodic fuel s q = .ok s'
      ∧ Sorted { s' with scheduled := s.scheduled.erase q }
        (l₁ ++ l₂) := by
  have h₀ := h.setTdns (Function.update s.tdns t (s.tdns t).clearActive)
  unfold ehciDelQhnPeriodic deactivate
  simp only [ht, htd, Bool.true_eq_false, if_false, Bind.bind, Except.bind]
  have hrate := h.heads.rates q (by simp)
  generalize hs₀ : ({ s with tdns := _ } : PeriodicHost) = s₀ at h₀ ⊢
  have hqhns : s₀.qhns = s.qhns := by rw [← hs₀]
  have hsched : s₀.scheduled = s.scheduled := by rw [← hs₀]
  obtain ⟨s₁, hunlink, hfix, hframes, hsame, hlinked⟩ :=
    h₀.linked.unlinkQhn hfuel
  simp only [hunlink, hsame, hqhns]
  have hleads := (Leads.split_iff.1 h₀.linked.leads).2
  have hqnext : s₁.nextOf q = s₀.nextOf q := by
    unfold PeriodicHost.nextOf
    rw [hsame]
  have hlink : (s₁.qhns q).qhlptr = s₁.linkTo (s₁.nextOf q) := by
    rw [hfix.linkTo, hqnext, hsame]
    exact h₀.linked.links q (by simp)
  -- a queue head is in the list once, so it does not link to itself
  have hne : s₁.nextOf q ≠ some q := by
    rw [hqnext, hleads.eq_head]
    intro heq
    have hnot := (List.nodup_cons.1 (List.nodup_middle.1 h.linked.nodup)).1
    exact hnot (List.mem_append_right _ (List.mem_of_head? heq))
  have hframed := framed_delFrame hlink hne (frameIndices (s.qhns q).rate)
  have hshadow := hframed.shadow
  rw [hqnext, hleads.eq_head] at hshadow
  generalize (frameIndices (s.qhns q).rate).foldl (delFrame q) s₁ = s'
    at hframed hshadow ⊢
  have hflist : s'.flist = none → False := by
    intro hnone
    have hnil := h₀.empty (hframes.flist ▸ hframed.flist hnone)
    simp at hnil
  have hfix' : SameFixed s s' := by
    constructor
    · intro m
      rw [hframed.qhns, hfix.pqh m, hqhns]
    · intro m
      rw [hframed.qhns, hfix.rate m, hqhns]
  refine ⟨s', rfl, ?_, ?_, ?_, ?_, ?_, ?_, ?_⟩
  · show s'.crashed = false
    rw [hframed.crashed, hframes.crashed, h₀.running]
  · exact (hlinked.congr hframed.qhns hframed.intnList).congr rfl rfl
  · have hperm := (List.perm_middle.symm.trans h.perm).erase q
    rw [List.erase_cons_head] at hperm
    exact hperm
  · have hsub : (l₁ ++ l₂).Sublist (l₁ ++ q :: l₂) :=
      (List.sublist_cons_self q l₂).append_left l₁
    exact (h.heads.sublist hsub).congr ⟨hfix'.pqh, hfix'.rate⟩
  · exact fun hnone => absurd hnone hflist
  · apply hframed.mirrors
    intro f hf i
    rw [hframes.flist] at hf
    rw [hfix.linkTo, hframes.shadowFlist]
    exact h₀.mirrors f hf i
  · intro hsome i hi
    show s'.shadowFlist i = (l₁ ++ l₂).find? (polledIn s' i)
    have hflist₀ : s₀.flist ≠ none := by
      intro hnone
      have hnil := h₀.empty hnone
      simp at hnil
    have hpolled : polledIn s₀ i = polledIn s i := by
      unfold polledIn
      rw [hqhns]
    rw [hshadow i, hframes.shadowFlist, h₀.first hflist₀ i hi,
      polledIn_congr hfix', hpolled]
    -- a frame that began with the queue head begins with the one behind
    -- it; the others are as before
    by_cases hpoll : polledIn s i q = true
    · have hmem : i ∈ frameIndices (s.qhns q).rate :=
        (mem_frameIndices hrate).2 ⟨hi, of_decide_eq_true hpoll⟩
      rw [if_pos hmem]
      exact (find?_removed h.linked.nodup hpoll
        (h.heads.polled_behind hpoll)).symm
    · have hmem : i ∉ frameIndices (s.qhns q).rate := by
        intro hmem
        exact hpoll (decide_eq_true ((mem_frameIndices hrate).1 hmem).2)
      rw [if_neg hmem]
      exact find?_not (Bool.eq_false_iff.2 hpoll)

-- ========================================================== the mistake

/-- A queue head of a lower rate than the second goes right behind the
first. -/
theorem behind_head {rate : QhId → Nat} {x : QhId} {t : List QhId}
    (h : ∀ m ∈ t, rate m < rate q) :
    behind rate q (x :: t) = x :: q :: t := by
  cases t with
  | nil => rfl
  | cons y t =>
      have hy := Nat.not_le.2 (h y (List.mem_cons_self ..))
      simp [behind, hy]

/-- A queue head with a higher rate than the first one of the list: in
its first frame the controller does not reach the first one. -/
theorem add_behind_head {x : QhId} {t : List QhId}
    (h : Sorted s (x :: t)) (hq : q ∉ x :: t) (halloc : Allocated s q)
    (hlt : (s.qhns x).rate < (s.qhns q).rate) {fuel : Nat}
    (hfuel : (x :: t).length ≤ fuel) :
    ∃ s', ehciAddQhnPeriodic fuel s q = .ok s'
      ∧ ¬ScheduleExact { s' with scheduled := q :: s.scheduled } := by
  obtain ⟨s', hadd, hfix, hrun, hflist, hmirrors, hlinked, hshadow⟩ :=
    h.add_eq hq halloc.rate hfuel
  have hle : ∀ m ∈ x :: t, (s.qhns m).rate ≤ (s.qhns x).rate := by
    intro m hm
    rcases List.mem_cons.1 hm with rfl | hm
    · exact Nat.le_refl _
    · exact (List.pairwise_cons.1 h.heads.order).1 m hm
  -- it goes behind the first one
  have hbehind : behind (fun m => (s.qhns m).rate) q (x :: t)
      = x :: q :: t := by
    apply behind_head
    intro m hm
    exact Nat.lt_of_le_of_lt (hle m (List.mem_cons_of_mem x hm)) hlt
  rw [hbehind] at hlinked
  have hheads : Heads s (q :: x :: t) := by
    have hheads : Heads s ([] ++ x :: t) := h.heads
    apply hheads.insert halloc.rate halloc.aligned
    · exact fun m hm => halloc.own m (h.perm.mem_iff.1 hm)
    · nofun
    · intro m hm
      have hm := hle m hm
      omega
  refine ⟨s', hadd, ?_⟩
  intro hexact
  -- the first frame of the new one leads to it
  obtain ⟨f, hf⟩ := Option.ne_none_iff_exists'.1 hflist
  have hidx : (s.qhns q).rate - 1 + 1 = (s.qhns q).rate :=
    Nat.sub_add_cancel (IsRate.pos halloc.rate)
  have hi : (s.qhns q).rate - 1 < flistSize := by
    have hdvd := Nat.le_of_dvd (by decide) (IsRate.dvd_size halloc.rate)
    omega
  have hdvd : (s.qhns x).rate ∣ (s.qhns q).rate :=
    (h.heads.rates x (by simp)).dvd halloc.rate (Nat.le_of_lt hlt)
  have hword : f ((s.qhns q).rate - 1) = s'.linkTo (some q) := by
    rw [hmirrors f hf, hshadow _ hi, if_pos, List.find?_cons_of_pos]
    · simp [placed, hlt]
    · simp [polledIn, hidx, hdvd]
    · simp [polledIn, hidx]
  obtain ⟨l, hl, -, hmem⟩ := hexact.frames f hf _ hi
  rw [hword] at hl
  -- and from there to the others, but not to the first one
  have hscheduled : (q :: x :: t).Perm (q :: s.scheduled) := h.perm.cons q
  have hpath : HwLeads { s' with scheduled := q :: s.scheduled }
      (s'.linkTo (some q)) (q :: t) := by
    have hsub : (q :: t).Sublist (q :: x :: t) :=
      (List.sublist_cons_self x t).cons_cons q
    have hheads' : Heads { s' with scheduled := q :: s.scheduled } (q :: t) :=
      (hheads.sublist hsub).congr ⟨hfix.pqh, hfix.rate⟩
    refine hheads'.hwLeads (p := some q) ?_ ?_ ?_
    · intro m hm
      exact hlinked.links m (List.mem_cons_of_mem x hm)
    · exact fun m hm => hscheduled.mem_iff.1 (hsub.subset hm)
    · exact ⟨rfl, hlinked.leads.2.2⟩
  have hown := (hheads.congr hfix).own
  have hlq : l = q :: t := by
    apply HwLeads.unique _ hl hpath
    intro a ha b hb
    exact hown a (hscheduled.mem_iff.2 ha) b (hscheduled.mem_iff.2 hb)
  have hx : x ∈ l := by
    rw [hmem, hidx]
    refine ⟨hscheduled.mem_iff.1 (by simp), ?_⟩
    show (s'.qhns x).rate ∣ _
    rw [hfix.rate x]
    exact hdvd
  have hnd := hlinked.nodup
  rw [hlq] at hx
  exact (List.nodup_cons.1 hnd).1 hx

-- =================================================================== runs

/-- The calls can be followed in full. -/
theorem Sorted.fuel (h : Sorted s l) : l.length ≤ fuelOf s := by
  unfold fuelOf
  rw [h.perm.length_eq]
  exact Nat.le_succ _

/-- What a step can be. -/
theorem periodicStep_cases {op : PeriodicOp}
    (h : periodicStep s op = some s') :
    (∃ q, op = .add q ∧ q ∈ s.scheduled
        ∧ outcome s s.scheduled (ehciAddQhnPeriodic (fuelOf s) s q) = s')
      ∨ (∃ q, op = .add q ∧ q ∉ s.scheduled ∧ Allocated s q
        ∧ outcome s (q :: s.scheduled)
          (ehciAddQhnPeriodic (fuelOf s) s q) = s')
      ∨ ∃ q, op = .del q ∧ q ∈ s.scheduled
        ∧ outcome s (s.scheduled.erase q)
          (ehciDelQhnPeriodic (fuelOf s) s q) = s' := by
  cases op with
  | add q =>
      simp only [periodicStep] at h
      split_ifs at h with _ hq halloc
      · exact .inl ⟨q, rfl, hq, Option.some.inj h⟩
      · exact .inr (.inl ⟨q, rfl, hq, halloc, Option.some.inj h⟩)
  | del q =>
      simp only [periodicStep] at h
      split_ifs at h with hq
      exact .inr (.inr ⟨q, rfl, hq.2, Option.some.inj h⟩)

/-- A call that meets the condition keeps the schedule sorted. -/
theorem Sorted.step (h : Sorted s l) {op : PeriodicOp}
    (hok : PeriodicOk s op) (hstep : periodicStep s op = some s') :
    ∃ l', Sorted s' l' := by
  rcases periodicStep_cases hstep with ⟨q, rfl, hq, rfl⟩
    | ⟨q, rfl, hq, halloc, rfl⟩ | ⟨q, rfl, hq, rfl⟩
  · obtain ⟨t, hadd, ht, hsched⟩ :=
      h.add_listed (h.perm.mem_iff.2 hq) h.fuel
    rw [hadd, outcome, ← hsched]
    exact ⟨l, ht⟩
  · have hhead : ∀ x ∈ l.head?, (s.qhns q).rate ≤ (s.qhns x).rate := by
      intro x hx
      apply hok hq x
      rw [h.linked.leads.eq_head]
      exact hx
    obtain ⟨t, l', hadd, ht⟩ := h.add
      (fun hm => hq (h.perm.mem_iff.1 hm)) halloc hhead h.fuel
    rw [hadd]
    exact ⟨l', ht⟩
  · obtain ⟨td, hfirst, htd⟩ := hok
    obtain ⟨l₁, l₂, rfl⟩ := List.append_of_mem (h.perm.mem_iff.2 hq)
    obtain ⟨t, hdel, ht⟩ := h.del hfirst htd h.fuel
    rw [hdel]
    exact ⟨l₁ ++ l₂, ht⟩

/-- A call that does not meet the condition ends the exactness. -/
theorem Sorted.step_bad (h : Sorted s l) {op : PeriodicOp}
    (hok : ¬PeriodicOk s op) (hstep : periodicStep s op = some s') :
    ¬ScheduleExact s' := by
  rcases periodicStep_cases hstep with ⟨q, rfl, hq, rfl⟩
    | ⟨q, rfl, hq, halloc, rfl⟩ | ⟨q, rfl, hq, rfl⟩
  · exact absurd (fun hnot => absurd hq hnot) hok
  · unfold PeriodicOk at hok
    push Not at hok
    obtain ⟨-, x, hx, hlt⟩ := hok
    rw [h.linked.leads.eq_head] at hx
    obtain ⟨t, rfl⟩ := List.head?_eq_some_iff.1 hx
    obtain ⟨t, hadd, ht⟩ := add_behind_head h
      (fun hm => hq (h.perm.mem_iff.1 hm)) halloc hlt h.fuel
    rw [hadd]
    exact ht
  · intro hexact
    have hrunning := hexact.running
    unfold ehciDelQhnPeriodic deactivate at hrunning
    cases htdns : (s.qhns q).tdns with
    | none =>
        rw [htdns] at hrunning
        cases hrunning
    | some t =>
        have hnull : (s.tdns t).td = false :=
          Bool.eq_false_iff.2 fun htd => hok ⟨t, htdns, htd⟩
        simp only [htdns, hnull, if_true] at hrunning
        cases hrunning

theorem PeriodicInit.sorted (h : PeriodicInit s) : Sorted s [] := by
  refine ⟨h.crashed, ⟨h.intnList, List.nodup_nil, nofun⟩, ?_,
    ⟨List.Pairwise.nil, nofun, nofun, nofun⟩, fun _ => rfl, ?_, ?_⟩
  · rw [h.scheduled]
  · intro f hf
    rw [h.flist] at hf
    cases hf
  · exact fun hne => absurd h.flist hne

/-- The schedule is exact throughout a run of additions and removals
exactly if each call meets the condition: a queue head that is added has
no higher rate than the first one of the list, and one that is removed
has a descriptor with its `struct TD`. -/
theorem schedule_exact {ops : List PeriodicOp} (hinit : PeriodicInit s)
    (hrun : run periodicStep s ops = some s') :
    Always periodicStep ScheduleExact s ops
      ↔ AllSteps periodicStep PeriodicOk s ops := by
  apply always_iff_of_good (J := fun s => ∃ l, Sorted s l) _ _ _
    ⟨[], hinit.sorted⟩ hrun
  · rintro t ⟨l, h⟩
    exact h.exact
  · rintro t op t' ⟨l, h⟩ hok hstep
    exact h.step hok hstep
  · rintro t op t' ⟨l, h⟩ hok hstep
    exact h.step_bad hok hstep

/-- Queue heads with the rates 1, 2, 4 and so on, none of them
scheduled. -/
def emptySchedule : PeriodicHost where
  qhns q := {
    pqh := UInt32.ofNat (32 * q)
    qhlptr := 0
    epc0 := 0
    tdCur := 0
    overlayNext := 0
    tdns := some q
    rate := 2 ^ q
    wasCancelled := 0
    next := none }
  tdns t :=
    ⟨true, UInt32.ofNat (32 * t), 0, mask tdtokSactive, some t, none⟩
  flist := none
  shadowFlist _ := none
  intnList := none
  scheduled := []
  crashed := false

theorem emptySchedule_init : PeriodicInit emptySchedule :=
  ⟨rfl, rfl, rfl, rfl⟩

/-- The higher rate first, and one of two is removed. -/
theorem schedule_exact_sample :
    (run periodicStep emptySchedule
        [.add 10, .add 9, .add 10, .del 10]).isSome
      ∧ Always periodicStep ScheduleExact emptySchedule
        [.add 10, .add 9, .add 10, .del 10] := by
  have hsome : (run periodicStep emptySchedule
      [.add 10, .add 9, .add 10, .del 10]).isSome := by decide +kernel
  obtain ⟨s', hrun⟩ := Option.isSome_iff_exists.1 hsome
  refine ⟨hsome, (schedule_exact emptySchedule_init hrun).2 ?_⟩
  decide +kernel

/-- The lower rate first: the last frame then leads to the queue head 10
only, and the queue head 9 is not polled in it. -/
theorem first_not_polled :
    ∃ s', run periodicStep emptySchedule [.add 9, .add 10] = some s'
      ∧ s'.flist.map (fun f => f 1023) = some (qhLink (s'.qhns 10))
      ∧ (s'.qhns 10).qhlptr = linkInvalid
      ∧ 9 ∈ s'.scheduled ∧ (s'.qhns 9).rate ∣ 1024
      ∧ ¬ScheduleExact s' := by
  have hany : (periodicStep emptySchedule (.add 9)).any (fun s =>
      (periodicStep s (.add 10)).any fun s' => decide (
        ¬PeriodicOk s (.add 10)
        ∧ s'.flist.map (fun f => f 1023) = some (qhLink (s'.qhns 10))
        ∧ (s'.qhns 10).qhlptr = linkInvalid
        ∧ 9 ∈ s'.scheduled ∧ (s'.qhns 9).rate ∣ 1024)) = true := by
    decide +kernel
  obtain ⟨s, hfirst, hany'⟩ := (Option.any_eq_true ..).1 hany
  obtain ⟨s', hsecond, hbool⟩ := (Option.any_eq_true ..).1 hany'
  obtain ⟨hbad, hword, hend, hmem, hrate⟩ := of_decide_eq_true hbool
  obtain ⟨l, hsorted⟩ : ∃ l, Sorted s l := by
    have hok : PeriodicOk emptySchedule (.add 9) := by decide
    exact emptySchedule_init.sorted.step hok hfirst
  refine ⟨s', ?_, hword, hend, hmem, hrate, hsorted.step_bad hbad hsecond⟩
  simp only [run, hfirst, hsecond]

end ProjectsLibs.Ehci
