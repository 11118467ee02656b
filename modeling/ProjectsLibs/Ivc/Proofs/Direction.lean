/-
One direction of an IVC session: the writer's half of a channel, the
reader's half, and what they have to do with the frames written and
read.

`Direction` is the invariant of a session in use. The counters are the
numbers of frames modulo `2 ^ 32`, the positions are the same numbers
modulo `nframes`; neither determines the other when `nframes` does not
divide `2 ^ 32`, so both are tied to the two histories.

# The moves

A frame goes through three hands. The client of the writer gets the slot
at the writer's position, fills it any number of times and publishes it;
the client of the reader gets the slot at its position and gives it back.
Each of these is one lemma about `Direction` (`get`, `fill`, `write`,
`read`), and none of them speaks of the session's state machine, so the
invariant of a whole session is two directions and what the resets do.

The slots are those of a bounded queue (`RingHolds`), and what the module
adds is the arithmetic of the counters: the difference of the two 32-bit
words is the number of unread frames (`avail_eq`), at most `nframes`.
-/
import ProjectsLibs.Lib.Ring
import ProjectsLibs.Ivc.Basic

namespace ProjectsLibs.Ivc

open Lib

variable {α : Type}

-- ========================================================= the halves

/-- The writer's half of a channel. -/
structure Writer (α : Type) where
  count : UInt32
  pos : UInt32
  frames : Nat → α
  held : Option Nat
  log : List α

/-- The reader's half. -/
structure Reader (α : Type) where
  count : UInt32
  pos : UInt32
  log : List α

/-- The writer has cleared its part and not used it since. -/
structure Writer.Clean (wr : Writer α) : Prop where
  count_eq : wr.count = 0
  pos_eq : wr.pos = 0
  log_eq : wr.log = []

/-- Likewise for the reader. -/
structure Reader.Clean (rd : Reader α) : Prop where
  count_eq : rd.count = 0
  pos_eq : rd.pos = 0
  log_eq : rd.log = []

/-- A channel in use: what was read is a prefix of what was written, the
unread frames are in their slots and the client holds none of them. -/
structure Direction (nframes : UInt32) (wr : Writer α) (rd : Reader α) :
    Prop where
  w_count : wr.count = UInt32.ofNat wr.log.length
  w_pos : wr.pos.toNat = wr.log.length % nframes.toNat
  r_count : rd.count = UInt32.ofNat rd.log.length
  r_pos : rd.pos.toNat = rd.log.length % nframes.toNat
  holds : RingHolds nframes.toNat wr.frames wr.log rd.log.length
  read_eq : rd.log = wr.log.take rd.log.length
  held_free : ∀ h, wr.held = some h → ∀ n, rd.log.length ≤ n →
    n < wr.log.length → n % nframes.toNat ≠ h

-- ========================================================== arithmetic

/-- The position behind `n % nframes`. -/
theorem nextPos_toNat {nframes pos : UInt32} {n : Nat}
    (hnf : 0 < nframes.toNat) (hpos : pos.toNat = n % nframes.toNat) :
    (nextPos nframes pos).toNat = (n + 1) % nframes.toNat := by
  have hlt := nframes.toNat_lt
  have hone : (1 : UInt32) ≤ nframes := by
    rw [UInt32.le_iff_toNat_le]
    exact hnf
  have hlast : (nframes - 1).toNat = nframes.toNat - 1 :=
    UInt32.toNat_sub_of_le _ _ hone
  have hmod := Nat.mod_lt n hnf
  unfold nextPos
  by_cases heq : pos = nframes - 1
  · rw [if_pos heq]
    rw [heq, hlast] at hpos
    rw [← Nat.mod_add_mod, ← hpos, Nat.sub_add_cancel hnf, Nat.mod_self]
    rfl
  · rw [if_neg heq]
    have hne : pos.toNat ≠ nframes.toNat - 1 := by
      intro h
      exact heq (UInt32.toNat_inj.1 (h.trans hlast.symm))
    have hsucc : (pos + 1).toNat = pos.toNat + 1 := by
      rw [UInt32.toNat_add]
      exact Nat.mod_eq_of_lt (by show pos.toNat + 1 < 2 ^ 32; omega)
    have hfit : (n % nframes.toNat + 1) % nframes.toNat
        = n % nframes.toNat + 1 := Nat.mod_eq_of_lt (by omega)
    rw [hsucc, hpos, ← hfit, Nat.mod_add_mod]

namespace Direction

variable {nframes : UInt32} {wr : Writer α} {rd : Reader α}

/-- The machine's `w_count - r_count` is the number of unread frames. -/
theorem avail_eq (h : Direction nframes wr rd) :
    (wr.count - rd.count).toNat = wr.log.length - rd.log.length := by
  have hfits := h.holds.fits
  have hlt := nframes.toNat_lt
  rw [h.w_count, h.r_count, ← UInt32.ofNat_sub h.holds.taken_le]
  refine UInt32.toNat_ofNat_of_lt' ?_
  show wr.log.length - rd.log.length < 2 ^ 32
  omega

/-- There are never more than `nframes` unread frames. -/
theorem avail_le (h : Direction nframes wr rd) :
    (wr.count - rd.count).toNat ≤ nframes.toNat := by
  have hfits := h.holds.fits
  rw [h.avail_eq]
  omega

/-- The reader's position is the writer's less the unread frames. -/
theorem r_pos_int (h : Direction nframes wr rd) :
    (rd.pos.toNat : Int)
      = (wr.pos.toNat - (wr.count - rd.count).toNat : Int)
        % nframes.toNat := by
  have hle := h.holds.taken_le
  rw [h.avail_eq, h.r_pos, h.w_pos, Int.natCast_emod, Int.natCast_emod,
    Int.emod_sub_emod, Int.ofNat_sub hle, Int.sub_sub_self]

/-- What was read is a prefix of what was written. -/
theorem read_prefix (h : Direction nframes wr rd) : rd.log <+: wr.log := by
  rw [h.read_eq]
  exact List.take_prefix _ _

-- =========================================================== the moves

/-- Two halves just cleared. -/
theorem fresh (hwr : wr.Clean) (hrd : rd.Clean) :
    Direction nframes wr rd where
  w_count := by
    rw [hwr.count_eq, hwr.log_eq]
    rfl
  w_pos := by
    rw [hwr.pos_eq, hwr.log_eq]
    exact (Nat.zero_mod _).symm
  r_count := by
    rw [hrd.count_eq, hrd.log_eq]
    rfl
  r_pos := by
    rw [hrd.pos_eq, hrd.log_eq]
    exact (Nat.zero_mod _).symm
  holds := by
    rw [hwr.log_eq, hrd.log_eq]
    exact RingHolds.nil _ _
  read_eq := by
    rw [hrd.log_eq]
    rfl
  held_free := by
    intro h _ n _ hn
    rw [hwr.log_eq] at hn
    cases hn

/-- With room the writer's slot is none of the unread ones. -/
theorem pos_free (h : Direction nframes wr rd)
    (hroom : wr.count - rd.count < nframes) (n : Nat)
    (hn : rd.log.length ≤ n) (hlt : n < wr.log.length) :
    n % nframes.toNat ≠ wr.pos.toNat := by
  rw [UInt32.lt_iff_toNat_lt, h.avail_eq] at hroom
  rw [h.w_pos]
  exact slot_ne hlt (by omega)

/-- The client gets the frame at the writer's position. -/
theorem get (h : Direction nframes wr rd)
    (hroom : wr.count - rd.count < nframes) :
    Direction nframes { wr with held := some wr.pos.toNat } rd :=
  { h with
    held_free := by
      intro k hk n hn hlt
      cases hk
      exact h.pos_free hroom n hn hlt }

/-- The client stores to the frame it holds. -/
theorem fill (h : Direction nframes wr rd) {k : Nat}
    (hk : wr.held = some k) (x : α) :
    Direction nframes { wr with frames := Function.update wr.frames k x }
      rd :=
  { h with
    holds :=
      { h.holds with
        slot_eq := by
          intro n y hn hy
          have hlt := (List.getElem?_eq_some_iff.1 hy).1
          show Function.update wr.frames k x (n % nframes.toNat) = y
          rw [Function.update_of_ne (h.held_free k hk n hn hlt)]
          exact h.holds.slot_eq n y hn hy } }

/-- The frame at the writer's position is published. -/
theorem write (h : Direction nframes wr rd)
    (hroom : wr.count - rd.count < nframes) :
    Direction nframes
      { wr with
        count := wr.count + 1
        pos := nextPos nframes wr.pos
        held := none
        log := wr.log ++ [wr.frames wr.pos.toNat] } rd := by
  have hlt := hroom
  rw [UInt32.lt_iff_toNat_lt, h.avail_eq] at hlt
  have hput := h.holds.put (by omega) (wr.frames wr.pos.toNat)
  -- the store `put` models has already been made
  rw [h.w_pos, Function.update_eq_self] at hput
  exact
    { w_count := by
        rw [h.w_count, List.length_append, List.length_singleton,
          UInt32.ofNat_add]
        rfl
      w_pos := by
        rw [List.length_append, List.length_singleton]
        exact nextPos_toNat (by omega) h.w_pos
      r_count := h.r_count
      r_pos := h.r_pos
      holds := by
        rw [h.w_pos]
        exact hput
      read_eq := by
        rw [List.take_append_of_le_length h.holds.taken_le]
        exact h.read_eq
      held_free := by
        intro k hk
        cases hk }

/-- A channel that does not look empty has an unread frame. -/
theorem read_lt (h : Direction nframes wr rd)
    (hne : wr.count ≠ rd.count) : rd.log.length < wr.log.length := by
  refine Nat.lt_of_le_of_ne h.holds.taken_le fun heq => hne ?_
  rw [h.w_count, h.r_count, heq]

/-- The frame at the reader's position is given back. -/
theorem read (hnf : 0 < nframes.toNat) (h : Direction nframes wr rd)
    (hne : wr.count ≠ rd.count) :
    Direction nframes wr
      { count := rd.count + 1
        pos := nextPos nframes rd.pos
        log := rd.log ++ [wr.frames rd.pos.toNat] } where
  w_count := h.w_count
  w_pos := h.w_pos
  r_count := by
    rw [h.r_count, List.length_append, List.length_singleton,
      UInt32.ofNat_add]
    rfl
  r_pos := by
    rw [List.length_append, List.length_singleton]
    exact nextPos_toNat hnf h.r_pos
  holds := by
    rw [List.length_append, List.length_singleton]
    exact h.holds.take (h.read_lt hne)
  read_eq := by
    rw [List.length_append, List.length_singleton,
      h.holds.take_succ (h.read_lt hne), ← h.read_eq, h.r_pos]
  held_free := by
    intro k hk n hn hlt
    rw [List.length_append, List.length_singleton] at hn
    exact h.held_free k hk n (by omega) hlt

end Direction

end ProjectsLibs.Ivc
