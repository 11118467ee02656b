/-
What the functions of utf.c say of UTF-8: `utf8_encode` writes it,
`utf8_iterate` takes the next character of it, and `utf8_check_string`
accepts it and nothing else.

# How the two sides meet

A code point is written with one to four bytes, and the code that writes
it and the code that reads it both work with shifts and masks. Each is
brought to arithmetic first: masking the lowest bits is a remainder, and
a field of bits is what is left when those below it are divided away. The
bytes of the format are defined by the same divisions (Utf.lean), so the
encoder is an equation by cases over the ranges.

In the other direction a character is read in two steps, as the code does
it: the first byte says how many bytes there are, and the others are
added one at a time. `leading` is the value known after some of them, and
the loop of `utf8_check_full` is followed by induction with it. That
overlong forms and surrogates are refused comes from the test of the
range at the end. `utf8_check_string` then goes by characters, with an
induction on the length of the text.
-/
import ProjectsLibs.Jansson.Utf

namespace ProjectsLibs.Jansson

open Lib

-- ============================================================== encoding

/-- A field of bits: `m` is `j` ones, `k` places up. -/
theorem and_field {m k j : Nat} (c : Nat) (hm : m >>> k = 2 ^ j - 1) :
    (c &&& m) >>> k = c / 2 ^ k % 2 ^ j := by
  rw [Nat.shiftRight_and_distrib, hm, Nat.and_two_pow_sub_one_eq_mod,
    Nat.shiftRight_eq_div_pow]

/-- Masking the lowest bits is taking the remainder. -/
theorem and_low {m j : Nat} (c : Nat) (hm : m = 2 ^ j - 1) :
    c &&& m = c % 2 ^ j := by
  rw [hm, Nat.and_two_pow_sub_one_eq_mod]

/-- `utf8_encode` writes the bytes of a code point, be it a surrogate or
not, and fails on all other numbers. -/
theorem utf8Encode_eq (codepoint : Int) :
    utf8Encode codepoint
      = if 0 ≤ codepoint ∧ codepoint < 0x110000
        then some (utf8 codepoint.toNat) else none := by
  unfold utf8Encode
  dsimp only
  by_cases hneg : codepoint < 0
  · rw [if_pos hneg,
      if_neg (show ¬ (0 ≤ codepoint ∧ codepoint < 0x110000) by omega)]
  rw [if_neg hneg]
  generalize hc : codepoint.toNat = c
  by_cases hbig : 0x110000 ≤ c
  · rw [if_neg (show ¬ c < 0x80 by omega),
      if_neg (show ¬ c < 0x800 by omega),
      if_neg (show ¬ c < 0x10000 by omega),
      if_neg (show ¬ c ≤ 0x10ffff by omega),
      if_neg (show ¬ (0 ≤ codepoint ∧ codepoint < 0x110000) by omega)]
  rw [if_pos (show 0 ≤ codepoint ∧ codepoint < 0x110000 by omega)]
  unfold utf8
  rw [and_field c (show 0x7c0 >>> 6 = 2 ^ 5 - 1 by decide),
    and_low c (show 0x03f = 2 ^ 6 - 1 by decide),
    and_field c (show 0xf000 >>> 12 = 2 ^ 4 - 1 by decide),
    and_field c (show 0x0fc0 >>> 6 = 2 ^ 6 - 1 by decide),
    and_field c (show 0x1c0000 >>> 18 = 2 ^ 3 - 1 by decide),
    and_field c (show 0x03f000 >>> 12 = 2 ^ 6 - 1 by decide)]
  by_cases hone : c < 0x80
  · rw [if_pos hone, if_pos hone]
  rw [if_neg hone, if_neg hone]
  by_cases htwo : c < 0x800
  · rw [if_pos htwo, if_pos htwo, Nat.mod_eq_of_lt (by omega)]
    rfl
  rw [if_neg htwo, if_neg htwo]
  by_cases hthree : c < 0x10000
  · rw [if_pos hthree, if_pos hthree, Nat.mod_eq_of_lt (by omega)]
    rfl
  · rw [if_neg hthree, if_neg hthree, if_pos (by omega),
      Nat.mod_eq_of_lt (by omega)]
    rfl

-- ============================================================= characters

section Iterate

variable {c n : Nat} {bytes rest : List UInt8}

/-- What the first byte says about the length of its character. -/
theorem checkFirst_cases (b : UInt8) :
    (utf8CheckFirst b = 1 ∧ b.toNat < 0x80)
      ∨ (utf8CheckFirst b = 0 ∧ 0x80 ≤ b.toNat
        ∧ (b.toNat < 0xc2 ∨ 0xf4 < b.toNat))
      ∨ (utf8CheckFirst b = 2 ∧ 0xc2 ≤ b.toNat ∧ b.toNat < 0xe0)
      ∨ (utf8CheckFirst b = 3 ∧ 0xe0 ≤ b.toNat ∧ b.toNat < 0xf0)
      ∨ (utf8CheckFirst b = 4 ∧ 0xf0 ≤ b.toNat ∧ b.toNat ≤ 0xf4) := by
  unfold utf8CheckFirst
  dsimp only
  grind

/-- The loop of `utf8_check_full` over one byte more. -/
theorem checkContinuation_cons (value : Nat) (u : UInt8) :
    checkContinuation value (u :: rest)
      = if u.toNat < 0x80 ∨ 0xbf < u.toNat then none
        else checkContinuation (value * 64 + u.toNat % 64) rest := by
  rw [checkContinuation, and_low _ (show 0x3f = 2 ^ 6 - 1 by decide),
    Nat.shiftLeft_eq]
  rfl

/-- The code point that is so far known from the first of `size` bytes. -/
def leading (size : Nat) (a : UInt8) : Nat :=
  if size = 2 then a.toNat % 32
  else if size = 3 then a.toNat % 16
  else a.toNat % 8

/-- The check of a character: the continuation bytes, then the range of the
value. -/
theorem checkFull_eq (a : UInt8) (bytes : List UInt8) {size : Nat}
    (hsize : size = 2 ∨ size = 3 ∨ size = 4) :
    utf8CheckFull (a :: bytes) size
      = (checkContinuation (leading size a) (bytes.take (size - 1))).bind
        (checkRange size) := by
  unfold utf8CheckFull
  dsimp only
  rw [and_low _ (show 0x1f = 2 ^ 5 - 1 by decide),
    and_low _ (show 0xf = 2 ^ 4 - 1 by decide),
    and_low _ (show 0x7 = 2 ^ 3 - 1 by decide)]
  rcases hsize with rfl | rfl | rfl
  · rfl
  · rfl
  · rfl

/-- `utf8_check_full` accepts the bytes of a scalar, and gives it. -/
theorem checkFull_shape (rest : List UInt8) (h : Scalar c)
    (hshape : Shape c bytes)
    (hlong : bytes.length ≠ 1) :
    utf8CheckFull (bytes ++ rest) bytes.length = some c := by
  obtain ⟨hlt, hsurrogate⟩ := h
  have hrange : ∀ size, (size = 2 → 0x80 ≤ c) →
      (size = 3 → 0x800 ≤ c) →
      (size = 4 → 0x10000 ≤ c) → checkRange size c = some c := by
    intro size htwo hthree hfour
    unfold checkRange
    rw [if_neg (by omega), if_neg hsurrogate, if_neg (by omega)]
  cases hshape with
  | one _ _ => exact absurd rfl hlong
  | @two a b hlo hhi ha hb =>
      refine (checkFull_eq a (b :: rest) (.inl rfl)).trans ?_
      show Option.bind (checkContinuation (a.toNat % 32) [b]) _ = _
      rw [checkContinuation_cons, if_neg (by omega), checkContinuation,
        show a.toNat % 32 * 64 + b.toNat % 64 = c by omega]
      exact hrange 2 (fun _ => hlo) nofun nofun
  | @three a b d hlo hhi ha hb hd =>
      refine (checkFull_eq a (b :: d :: rest) (.inr (.inl rfl))).trans ?_
      show Option.bind (checkContinuation (a.toNat % 16) [b, d]) _ = _
      rw [checkContinuation_cons, if_neg (by omega), checkContinuation_cons,
        if_neg (by omega), checkContinuation,
        show (a.toNat % 16 * 64 + b.toNat % 64) * 64 + d.toNat % 64 = c by
          omega]
      exact hrange 3 nofun (fun _ => hlo) nofun
  | @four a b d e hlo _ ha hb hd he =>
      refine (checkFull_eq a (b :: d :: e :: rest) (.inr (.inr rfl))).trans ?_
      show Option.bind (checkContinuation (a.toNat % 8) [b, d, e]) _ = _
      rw [checkContinuation_cons, if_neg (by omega), checkContinuation_cons,
        if_neg (by omega), checkContinuation_cons, if_neg (by omega),
        checkContinuation,
        show ((a.toNat % 8 * 64 + b.toNat % 64) * 64 + d.toNat % 64) * 64
          + e.toNat % 64 = c by omega]
      exact hrange 4 nofun nofun fun _ => hlo

/-- A value in range is a code point that needs this many bytes. -/
theorem checkRange_some {size value : Nat}
    (h : checkRange size value = some c) :
    value = c ∧ Scalar c ∧ (size = 2 → 0x80 ≤ c)
      ∧ (size = 3 → 0x800 ≤ c)
      ∧ (size = 4 → 0x10000 ≤ c) := by
  unfold checkRange at h
  unfold Scalar
  split_ifs at h with hbig hsurrogate hlong
  cases h
  omega

/-- A byte of a character behind the first. -/
theorem checkContinuation_some {value : Nat} {u : UInt8}
    (h : checkContinuation value (u :: rest) = some c) :
    0x80 ≤ u.toNat ∧ u.toNat < 0xc0
      ∧ checkContinuation (value * 64 + u.toNat % 64) rest = some c := by
  rw [checkContinuation_cons] at h
  split_ifs at h with hbyte
  exact ⟨by omega, by omega, h⟩

/-- What `utf8_check_full` accepts as a character of so many bytes as
`utf8_check_first` has said is a scalar with its bytes. -/
theorem checkFull_some {a : UInt8} (hfirst : 1 < utf8CheckFirst a)
    (hlen : utf8CheckFirst a ≤ (a :: rest).length)
    (h : utf8CheckFull (a :: rest) (utf8CheckFirst a) = some c) :
    Scalar c ∧ (a :: rest).take (utf8CheckFirst a) = utf8 c := by
  have hfirsts := checkFirst_cases a
  generalize utf8CheckFirst a = size at *
  have hsize : size = 2 ∨ size = 3 ∨ size = 4 := by omega
  rw [checkFull_eq a rest hsize, Option.bind_eq_some_iff] at h
  obtain ⟨value, hvalue, hrange⟩ := h
  obtain ⟨rfl, hscalar, htwo, hthree, hfour⟩ := checkRange_some hrange
  have hlt := hscalar.1
  refine ⟨hscalar, Shape.eq ?_⟩
  rw [List.length_cons] at hlen
  -- one case for each length
  rcases hsize with rfl | rfl | rfl
  · obtain ⟨b, rest, rfl⟩ : ∃ b rest', rest = b :: rest' :=
      List.exists_cons_of_length_pos (by omega)
    obtain ⟨hlo, hhi, hvalue⟩ := checkContinuation_some hvalue
    obtain rfl : a.toNat % 32 * 64 + b.toNat % 64 = value :=
      Option.some.inj hvalue
    exact .two (by omega) (by omega) (by omega) (by omega)
  · obtain ⟨b, rest, rfl⟩ : ∃ b rest', rest = b :: rest' :=
      List.exists_cons_of_length_pos (by omega)
    rw [List.length_cons] at hlen
    obtain ⟨d, rest, rfl⟩ : ∃ d rest', rest = d :: rest' :=
      List.exists_cons_of_length_pos (by omega)
    obtain ⟨hlo, hhi, hvalue⟩ := checkContinuation_some hvalue
    obtain ⟨hlo', hhi', hvalue⟩ := checkContinuation_some hvalue
    obtain rfl : (a.toNat % 16 * 64 + b.toNat % 64) * 64 + d.toNat % 64
        = value := Option.some.inj hvalue
    exact .three (by omega) (by omega) (by omega) (by omega) (by omega)
  · obtain ⟨b, rest, rfl⟩ : ∃ b rest', rest = b :: rest' :=
      List.exists_cons_of_length_pos (by omega)
    rw [List.length_cons] at hlen
    obtain ⟨d, rest, rfl⟩ : ∃ d rest', rest = d :: rest' :=
      List.exists_cons_of_length_pos (by omega)
    rw [List.length_cons] at hlen
    obtain ⟨e, rest, rfl⟩ : ∃ e rest', rest = e :: rest' :=
      List.exists_cons_of_length_pos (by omega)
    obtain ⟨hlo, hhi, hvalue⟩ := checkContinuation_some hvalue
    obtain ⟨hlo', hhi', hvalue⟩ := checkContinuation_some hvalue
    obtain ⟨hlo'', hhi'', hvalue⟩ := checkContinuation_some hvalue
    obtain rfl : ((a.toNat % 8 * 64 + b.toNat % 64) * 64 + d.toNat % 64) * 64
        + e.toNat % 64 = value := Option.some.inj hvalue
    exact .four (by omega) (by omega) (by omega) (by omega) (by omega)
      (by omega)

/-- The first byte of a character says how many there are. -/
theorem checkFirst_shape {a : UInt8} (hlt : c < 0x110000)
    (hshape : Shape c (a :: rest)) :
    utf8CheckFirst a = rest.length + 1 := by
  have hcases := checkFirst_cases a
  cases hshape with
  | one _ ha =>
      show _ = 1
      omega
  | two hlo hhi ha _ =>
      show _ = 2
      omega
  | three hlo hhi ha _ _ =>
      show _ = 3
      omega
  | four hlo hhi ha _ _ _ =>
      show _ = 4
      omega

/-- `utf8_iterate` takes the next scalar, whatever comes behind it. -/
theorem utf8Iterate_scalar (h : Scalar c) (rest : List UInt8) :
    utf8Iterate (utf8 c ++ rest) = some ((utf8 c).length, some c) := by
  have hshape := utf8_shape h.1
  cases hbytes : utf8 c with
  | nil => exact absurd hbytes (utf8_ne_nil c)
  | cons a tail =>
      rw [hbytes] at hshape
      have hfirst := checkFirst_shape h.1 hshape
      show utf8Iterate (a :: (tail ++ rest)) = _
      unfold utf8Iterate
      dsimp only
      rw [hfirst, if_neg (Nat.succ_ne_zero _)]
      by_cases hone : tail.length + 1 = 1
      · obtain rfl := List.length_eq_zero_iff.1 (Nat.succ.inj hone)
        rw [if_pos hone]
        cases hshape with
        | one _ ha => rw [ha]; rfl
      · have hfull := checkFull_shape rest h hshape hone
        rw [if_neg hone, if_neg (by
          rw [List.length_cons, List.length_append]
          omega)]
        exact congrArg (Option.map fun value => (_, some value)) hfull

/-- What `utf8_iterate` takes is a scalar. -/
theorem utf8Iterate_some {a : UInt8} {r : Option Nat}
    (h : utf8Iterate (a :: rest) = some (n, r)) :
    ∃ c tail, r = some c ∧ Scalar c ∧ n = (utf8 c).length
      ∧ a :: rest = utf8 c ++ tail := by
  have hcases := checkFirst_cases a
  unfold utf8Iterate at h
  dsimp only at h
  split_ifs at h with hzero hone hlen
  · cases h
    have hlt : a.toNat < 0x80 := by omega
    refine ⟨a.toNat, rest, rfl, ⟨by omega, by omega⟩, ?_, ?_⟩
    · rw [← Shape.eq (.one hlt rfl)]
      rfl
    · rw [← Shape.eq (.one hlt rfl)]
      rfl
  · obtain ⟨c, hc, heq⟩ := Option.map_eq_some_iff.1 h
    cases heq
    have hle := Nat.not_lt.1 hlen
    obtain ⟨hscalar, htake⟩ := checkFull_some (by omega) hle hc
    refine ⟨c, (a :: rest).drop (utf8CheckFirst a), rfl, hscalar, ?_, ?_⟩
    · rw [← htake, List.length_take_of_le hle]
    · rw [← htake, List.take_append_drop]

end Iterate

-- =============================================================== strings

/-- `utf8_check_string` goes by characters. -/
theorem utf8CheckString_cons (a : UInt8) (rest : List UInt8) :
    utf8CheckString (a :: rest)
      = match utf8Iterate (a :: rest) with
        | none => false
        | some (n, _) => utf8CheckString ((a :: rest).drop n) := by
  have hcases := checkFirst_cases a
  rw [utf8CheckString]
  unfold utf8Iterate
  dsimp only
  by_cases hzero : utf8CheckFirst a = 0
  · rw [if_pos hzero, if_pos hzero]
  rw [if_neg hzero, if_neg hzero]
  by_cases hone : utf8CheckFirst a = 1
  · rw [if_neg (by omega), if_pos hone]
    rfl
  rw [if_pos (by omega), if_neg hone, List.length_cons]
  by_cases hlen : rest.length + 1 < utf8CheckFirst a
  · rw [if_pos hlen, if_pos hlen]
  rw [if_neg hlen, if_neg hlen]
  cases utf8CheckFull (a :: rest) (utf8CheckFirst a) with
  | none => rfl
  | some value =>
      have hdrop : (a :: rest).drop (utf8CheckFirst a)
          = rest.drop (utf8CheckFirst a - 1) := by
        obtain ⟨n, hn⟩ := Nat.exists_eq_succ_of_ne_zero hzero
        rw [hn]
        rfl
      show utf8CheckString _ = utf8CheckString _
      rw [hdrop]

/-- `utf8_check_string` accepts UTF-8 and nothing else. -/
theorem utf8CheckString_iff (string : List UInt8) :
    utf8CheckString string = true ↔ IsUtf8 string := by
  induction hn : string.length using Nat.strongRecOn generalizing string with
  -- on the length: each round of the check takes one character off the
  -- front
  | ind n ih =>
      constructor
      · intro h
        cases string with
        | nil => exact ⟨[], nofun, rfl⟩
        | cons a rest =>
            rw [utf8CheckString_cons] at h
            cases hnext : utf8Iterate (a :: rest) with
            | none =>
                rw [hnext] at h
                cases h
            | some r =>
                rw [hnext] at h
                obtain ⟨c, tail, -, hc, hlen, hsplit⟩ :=
                  utf8Iterate_some hnext
                dsimp only at h
                rw [hsplit, hlen, List.drop_left] at h
                have hpos := List.length_pos_iff.2 (utf8_ne_nil c)
                have hlt : tail.length < n := by
                  rw [← hn, hsplit, List.length_append]
                  omega
                obtain ⟨cs, hcs, htail⟩ := (ih _ hlt tail rfl).1 h
                refine ⟨c :: cs, List.forall_mem_cons.2 ⟨hc, hcs⟩, ?_⟩
                rw [hsplit, htail]
                rfl
      · rintro ⟨cs, hcs, rfl⟩
        cases cs with
        | nil =>
            rw [utf8Text, List.flatMap_nil, utf8CheckString]
        | cons c cs =>
            obtain ⟨hc, hcs⟩ := List.forall_mem_cons.1 hcs
            have hnext := utf8Iterate_scalar hc (utf8Text cs)
            have hsplit : utf8Text (c :: cs) = utf8 c ++ utf8Text cs := rfl
            have hpos := List.length_pos_iff.2 (utf8_ne_nil c)
            rw [hsplit] at hn ⊢
            have hlt : (utf8Text cs).length < n := by
              rw [← hn, List.length_append]
              omega
            have htail := (ih _ hlt _ rfl).2 ⟨cs, hcs, rfl⟩
            obtain ⟨a, tail, hbytes⟩ := List.exists_cons_of_ne_nil
              (List.append_ne_nil_of_left_ne_nil (utf8_ne_nil c)
                (utf8Text cs))
            rw [hbytes] at hnext ⊢
            rw [utf8CheckString_cons, hnext]
            dsimp only
            rw [← hbytes, List.drop_left]
            exact htail

end ProjectsLibs.Jansson
