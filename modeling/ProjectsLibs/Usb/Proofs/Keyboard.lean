/-
The character buffer of the keyboard is a FIFO of 100 characters
(`keyboard_refines`): whatever strings are produced and counts are read,
every call answers as the FIFO does, and the stored characters lie between
head and tail.

`Stores` is the relation between the two. A character put or taken keeps
it (`Stores.put`, `Stores.take`); the loops of `rb_produce` and `kbd_read`
go through by induction on what is left to do.

# Widths

The code counts in `int` and compares in `size_t`, whose width depends on
the target. So the lemmas about arithmetic come first: values in range are
not cut (`int_of_lt`, `Target.sizeT_of_lt`), and an index is put back to
zero at the end (`rbAdvance_eq`). The test for room, made in `size_t`, is
then the one that the FIFO makes (`room_iff`), for strings of any length.

All 100 slots may be filled: head and tail are equal both in an empty and
in a full buffer, and it is the field `size` that tells them apart, so the
relation ties all three to the characters stored.
-/
import ProjectsLibs.Usb.Keyboard

namespace ProjectsLibs.Usb

open Lib

variable {target : Target} {rb : Ringbuf} {stored : List UInt8}

-- ============================================================ arithmetic

/-- A value of 32 bits is not cut on either target. -/
theorem Target.sizeT_of_lt {n : Nat} (hn : n < 2 ^ 32) :
    target.sizeT n = n := by
  have hmod : (n : Int) % 2 ^ target.width = n := by
    apply Int.emod_eq_of_lt (Int.natCast_nonneg n)
    cases target with
    | ilp32 => show (n : Int) < 2 ^ 32; omega
    | lp64 => show (n : Int) < 2 ^ 64; omega
  rw [Target.sizeT, hmod, Int.toNat_natCast]

/-- A value in range is kept by an `int`. -/
theorem int_of_lt {x : Int} (hlo : -2 ^ 31 ≤ x) (hhi : x < 2 ^ 31) :
    int x = some x := if_pos ⟨hlo, hhi⟩

/-- The next index, put back to zero at the end. -/
theorem rbAdvance_eq {n : Nat} (hn : n < rbSlots) :
    rbAdvance target n = some (((n + 1) % rbSlots : Nat) : Int) := by
  have hsmall : n + 1 ≤ 100 := hn
  have hint : int ((n : Int) + 1) = some ((n + 1 : Nat) : Int) :=
    int_of_lt (by omega) (by omega)
  simp only [rbAdvance, hint, Option.bind_eq_bind, Option.bind_some]
  rw [Target.sizeT_of_lt (by omega), succ_mod hn]
  split
  · rfl
  · rfl

/-- An index below the number of slots is in bounds. -/
theorem rbIndex_eq {n : Nat} (hn : n < rbSlots) :
    rbIndex n = some n := by
  have hlt : (n : Int) < rbSlots := by omega
  rw [rbIndex, if_pos ⟨Int.natCast_nonneg n, hlt⟩, Int.toNat_natCast]

-- ============================================================= one character

namespace Stores

/-- The indices of a buffer that stores characters. -/
theorem indices (h : Stores rb stored) :
    ∃ start, start < rbSlots ∧ rb.head = (start : Nat)
      ∧ rb.tail = (((start + stored.length) % rbSlots : Nat) : Int)
      ∧ LiesFrom rbSlots rb.b start stored := by
  obtain ⟨start, hstart⟩ := Int.eq_ofNat_of_zero_le h.head_range.1
  have hlt := h.head_range.2
  have htail := h.tail_eq
  have hbetween := h.between
  rw [hstart] at hlt htail hbetween
  rw [h.size_eq] at htail
  refine ⟨start, by omega, hstart, ?_, hbetween⟩
  rw [htail, Int.natCast_emod, Int.natCast_add]

/-- Indices at `start` and behind the characters. -/
theorem of_indices {b : Nat → UInt8} {start : Nat} (hstart : start < rbSlots)
    (hfits : stored.length ≤ rbSlots)
    (hbetween : LiesFrom rbSlots b start stored) :
    Stores ⟨b, start, ((start + stored.length) % rbSlots : Nat),
      stored.length⟩ stored where
  head_range := ⟨Int.natCast_nonneg start, Int.ofNat_lt.2 hstart⟩
  tail_range := ⟨Int.natCast_nonneg _,
    Int.ofNat_lt.2 (Nat.mod_lt _ (by decide))⟩
  size_eq := rfl
  fits := hfits
  tail_eq := by
    rw [Int.natCast_emod, Int.natCast_add]
  between := hbetween

/-- The buffer after `rb_init`. -/
theorem init (rb : Ringbuf) : Stores (rbInit rb) [] :=
  of_indices (by decide) (by decide) (LiesFrom.nil _ _ _)

variable (target)

/-- A character that fits is put behind the others. -/
theorem put (h : Stores rb stored) (hroom : stored.length < rbSlots)
    (c : UInt8) :
    ∃ rb', rbPut target rb c = some rb' ∧ Stores rb' (stored ++ [c]) := by
  obtain ⟨start, hstart, hhead, htail, hlies⟩ := h.indices
  have hsize := h.size_eq
  have htlt : (start + stored.length) % rbSlots < rbSlots :=
    Nat.mod_lt _ (by decide)
  have hlen : stored.length < 100 := hroom
  have hint : int ((stored.length : Int) + 1)
      = some ((stored.length + 1 : Nat) : Int) :=
    int_of_lt (by omega) (by omega)
  have hnext : ((start + stored.length) % rbSlots + 1) % rbSlots
      = (start + (stored ++ [c]).length) % rbSlots := by
    rw [Nat.mod_add_mod, List.length_append]
    rfl
  have hstores := of_indices hstart
    (show (stored ++ [c]).length ≤ rbSlots by
      rw [List.length_append]
      exact hroom)
    (hlies.put hroom c)
  refine ⟨_, ?_, hstores⟩
  rw [rbPut, htail, rbIndex_eq htlt, Option.bind_eq_bind, Option.bind_some,
    rbAdvance_eq htlt, Option.bind_eq_bind, Option.bind_some, hsize, hint,
    hnext, hhead, List.length_append]
  rfl

/-- The oldest character is taken out. -/
theorem take {c : UInt8} (h : Stores rb (c :: stored)) :
    ∃ rb', rbConsume target rb = some ((c.toNat : Int), rb')
      ∧ Stores rb' stored := by
  obtain ⟨start, hstart, hhead, htail, hlies⟩ := h.indices
  have hsize : rb.size = ((stored.length + 1 : Nat) : Int) := h.size_eq
  have hfits : stored.length + 1 ≤ 100 := h.fits
  have hint : int (rb.size - 1) = some (stored.length : Int) := by
    rw [hsize, int_of_lt (by omega) (by omega)]
    congr 1
    omega
  have hnext : (start + (stored.length + 1)) % rbSlots
      = ((start + 1) % rbSlots + stored.length) % rbSlots := by
    rw [Nat.mod_add_mod]
    congr 1
    omega
  have hstores := of_indices (Nat.mod_lt (start + 1) (by decide))
    (Nat.le_trans (Nat.le_succ _) h.fits) hlies.rest
  refine ⟨_, ?_, hstores⟩
  rw [rbConsume, if_pos (by omega), hhead, rbIndex_eq hstart,
    Option.bind_eq_bind, Option.bind_some, rbAdvance_eq hstart,
    Option.bind_eq_bind, Option.bind_some, hint, hlies.first hstart, htail,
    ← hnext]
  rfl

/-- An empty buffer has none. -/
theorem take_nil (h : Stores rb []) : rbConsume target rb = some (-1, rb) := by
  rw [rbConsume, if_neg]
  · rfl
  · rw [h.size_eq]
    exact fun hne => hne rfl

-- ============================================================== the loops

/-- A string that fits is put behind the others. -/
theorem putAll (h : Stores rb stored) {str : List UInt8}
    (hroom : stored.length + str.length ≤ rbSlots) :
    ∃ rb', rbPutAll target rb str = some rb'
      ∧ Stores rb' (stored ++ str) := by
  induction str generalizing rb stored with
  | nil => exact ⟨rb, rfl, by rwa [List.append_nil]⟩
  | cons c str ih =>
      rw [List.length_cons] at hroom
      obtain ⟨rb₁, hput, h₁⟩ := h.put target (by omega) c
      have hroom₁ : (stored ++ [c]).length + str.length ≤ rbSlots := by
        rw [List.length_append, List.length_singleton]
        omega
      obtain ⟨rb', hrest, h'⟩ := ih h₁ hroom₁
      rw [List.append_assoc] at h'
      refine ⟨rb', ?_, h'⟩
      rw [rbPutAll, hput]
      exact hrest

/-- The test of `rb_produce`, made in `size_t`, is that of the FIFO. -/
theorem room_iff (h : Stores rb stored) (str : Str) :
    target.sizeT (rbSlots - rb.size) ≥ target.sizeT str.chars.length
      ↔ str.chars.length ≤ rbSlots - stored.length := by
  have hfits : stored.length ≤ 100 := h.fits
  have hlt := str.length_lt
  have hfree : (rbSlots : Int) - rb.size
      = ((rbSlots - stored.length : Nat) : Int) := by
    rw [h.size_eq]
    have := h.fits
    omega
  have hslots : rbSlots - stored.length < 2 ^ 32 :=
    Nat.lt_of_le_of_lt (Nat.sub_le _ _) (by decide)
  rw [hfree, Target.sizeT_of_lt hslots, Target.sizeT_of_lt (by omega)]

/-- The loop of `kbd_read`: it delivers what is stored until the count is
reached. -/
theorem readLoop (h : Stores rb stored) (left n : Nat) (data : List UInt8)
    (hn : n + stored.length ≤ rbSlots) :
    ∃ rb', Usb.readLoop target rb n data left
        = some (((n + min left stored.length : Nat) : Int),
            data ++ stored.take left, rb')
      ∧ Stores rb' (stored.drop left) := by
  induction left generalizing rb stored n data with
  | zero =>
      refine ⟨rb, ?_, h⟩
      rw [Usb.readLoop, Nat.zero_min, Nat.add_zero, List.take_zero,
        List.append_nil]
  | succ left ih =>
      cases stored with
      | nil =>
          refine ⟨rb, ?_, h⟩
          rw [Usb.readLoop, h.take_nil]
          simp
      | cons c stored =>
          obtain ⟨rb₁, htake, h₁⟩ := h.take target
          have hlen : n + (stored.length + 1) ≤ 100 := hn
          have hint : int ((n : Int) + 1) = some ((n + 1 : Nat) : Int) :=
            int_of_lt (by omega) (by omega)
          have hchar : UInt8.ofNat ((c.toNat : Int)).toNat = c := by
            rw [Int.toNat_natCast, UInt8.ofNat_toNat]
          obtain ⟨rb', hloop, h'⟩ := ih h₁ (n + 1) (data ++ [c])
            (show n + 1 + stored.length ≤ 100 by omega)
          refine ⟨rb', ?_, h'⟩
          rw [Usb.readLoop, htake]
          simp only [ge_iff_le, Int.natCast_nonneg, if_true, hint, hchar]
          rw [hloop, List.length_cons, Nat.add_min_add_right,
            List.append_assoc]
          have hcount : n + 1 + min left stored.length
              = n + (min left stored.length + 1) := by omega
          rw [hcount]
          rfl

-- ============================================================== the calls

/-- A string that does not fit leaves the buffer as it is. -/
theorem refused (h : Stores rb stored) (str : Str)
    (hfull : ¬str.chars.length ≤ rbSlots - stored.length) :
    rbProduce target rb str = some (1, rb) :=
  if_neg fun hge => hfull ((h.room_iff target str).1 hge)

/-- Every call answers as the FIFO does. -/
theorem call (h : Stores rb stored) (call : KbdCall) :
    ∃ rb',
      kbdCall target rb call = some ((fifoCall rbSlots stored call).1, rb')
      ∧ Stores rb' (fifoCall rbSlots stored call).2 := by
  cases call with
  | produce str =>
      have hiff := h.room_iff target str
      have hfits := h.fits
      rw [kbdCall, fifoCall]
      by_cases hroom : str.chars.length ≤ rbSlots - stored.length
      · have hroom' : stored.length + str.chars.length ≤ rbSlots := by omega
        obtain ⟨rb', hput, h'⟩ := h.putAll target hroom'
        rw [rbProduce, if_pos (hiff.2 hroom), if_pos hroom, hput]
        exact ⟨rb', rfl, h'⟩
      · rw [h.refused target str hroom, if_neg hroom]
        exact ⟨rb, rfl, h⟩
  | read bytes =>
      obtain ⟨rb', hloop, h'⟩ := h.readLoop target bytes 0 []
        (by have := h.fits; omega)
      refine ⟨rb', ?_, h'⟩
      rw [kbdCall, kbdRead]
      rw [Nat.cast_zero] at hloop
      rw [hloop, Nat.zero_add]
      rfl

end Stores

/-- The character buffer refines a FIFO of 100 characters, for every
sequence of calls and on both targets, and a string that is refused changes
nothing. -/
theorem keyboard_refines (target : Target) (rb : Ringbuf)
    (calls : List KbdCall) :
    ∃ rb' results stored,
      replayTotal (fifoCall rbSlots) [] calls = (results, stored)
      ∧ replay (kbdCall target) (rbInit rb) calls = some (results, rb')
      ∧ Stores rb' stored
      ∧ ∀ str : Str, ¬str.chars.length ≤ rbSlots - stored.length →
          rbProduce target rb' str = some (1, rb') := by
  obtain ⟨rb', hrun, h⟩ := replay_refines (R := Stores)
    (fun _ _ call h => h.call target call) (Stores.init rb) calls
  exact ⟨rb', _, _, rfl, hrun, h, h.refused target⟩

end ProjectsLibs.Usb
