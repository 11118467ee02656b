/-
`lex_scan_string` reads strings, and nothing else.

Its first loop finds the quotation mark at the end and checks the escapes
without their meaning (`Escaped`); its second loop gives them a meaning
(`Chars`) and refuses surrogates that do not come in pairs. Both go through
the text in the same steps, so that the second never meets what the first
has not checked.

# The two loops

The first loop keeps the bytes as they are and ends behind the quotation
mark. It knows that a backslash has a letter behind it and that a `u` has
four digits, and no more. The second loop rewrites the bytes that the
first has kept, and its lemmas have one case for each kind of character:
a byte that stands for itself, a short escape, a code point, a pair of
surrogates. Completeness is an induction on the characters of the string.

For soundness the induction is on what the first loop has gone through
(`Escaped`), and the second loop decides which characters these are. A
first surrogate has to be followed by a second one; each of the ways in
which it may not be has a lemma that says that the loop refuses it.
-/
import ProjectsLibs.Jansson.Proofs.Numbers

namespace ProjectsLibs.Jansson

open Lib

variable {ρ : Type}

-- ================================================================= escapes

/-- The hexadecimal digits, in both cases of letters. -/
theorem isXDigit_iff (c : UInt8) : isXDigit c = true ↔
    (0x30 ≤ c.toNat ∧ c.toNat ≤ 0x39)
      ∨ (0x41 ≤ c.toNat ∧ c.toNat ≤ 0x46)
      ∨ (0x61 ≤ c.toNat ∧ c.toNat ≤ 0x66) := by
  unfold isXDigit isDigit
  simp [UInt8.le_iff_toNat_le]

/-- Every hexadecimal digit has a value. -/
theorem isXDigit_value {c : UInt8} (h : isXDigit c = true) :
    ∃ n, HexDigit c n := by
  rcases (isXDigit_iff c).1 h with ⟨hlow, hhigh⟩ | ⟨hlow, hhigh⟩
    | ⟨hlow, hhigh⟩
  · exact ⟨_, .digit hlow hhigh⟩
  · exact ⟨_, .upper hlow hhigh⟩
  · exact ⟨_, .lower hlow hhigh⟩

/-- A digit with a value is one of them. -/
theorem HexDigit.isXDigit {c : UInt8} {n : Nat} (h : HexDigit c n) :
    isXDigit c = true := by
  rw [isXDigit_iff]
  cases h with
  | digit hlow hhigh => exact .inl ⟨hlow, hhigh⟩
  | upper hlow hhigh => exact .inr (.inl ⟨hlow, hhigh⟩)
  | lower hlow hhigh => exact .inr (.inr ⟨hlow, hhigh⟩)

theorem HexDigit.lt {c : UInt8} {n : Nat} (h : HexDigit c n) : n < 16 := by
  cases h with
  | digit hlow hhigh => omega
  | upper hlow hhigh => omega
  | lower hlow hhigh => omega

/-- The source computes the value of a digit. -/
theorem HexDigit.hexValue {c : UInt8} {n : Nat} (h : HexDigit c n) :
    hexValue c = some n := by
  have hdigit := isDigit_iff c
  unfold ProjectsLibs.Jansson.hexValue
  simp only [UInt8.le_iff_toNat_le]
  cases h with
  | digit hlow hhigh => rw [if_pos (hdigit.2 ⟨hlow, hhigh⟩)]
  | upper hlow hhigh =>
      rw [if_neg fun hd => by have := (hdigit.1 hd).2; omega,
        if_neg fun hd => absurd hd.1 (by show ¬ 0x61 ≤ c.toNat; omega),
        if_pos ⟨hlow, show c.toNat ≤ 0x5a by omega⟩]
  | lower hlow hhigh =>
      rw [if_neg fun hd => by have := (hdigit.1 hd).2; omega,
        if_pos ⟨hlow, show c.toNat ≤ 0x7a by omega⟩]

/-- `decode_unicode_escape` gives the number of an escape. -/
theorem decodeUnicodeEscape_unit (rest : List UInt8) {u : List UInt8}
    {n : Nat} (h : Unit16 u n) :
    ∃ a b c d, u = [0x5c, 0x75, a, b, c, d]
      ∧ (isXDigit a ∧ isXDigit b ∧ isXDigit c ∧ isXDigit d)
      ∧ decodeUnicodeEscape (0x75 :: a :: b :: c :: d :: rest) = some n := by
  cases h with
  | @mk a b c d i j k l ha hb hc hd =>
      refine ⟨a, b, c, d, rfl,
        ⟨ha.isXDigit, hb.isXDigit, hc.isXDigit, hd.isXDigit⟩, ?_⟩
      show decodeDigits 0 [a, b, c, d] = _
      simp only [decodeDigits, ha.hexValue, hb.hexValue, hc.hexValue,
        hd.hexValue, Nat.shiftLeft_eq, Nat.zero_mul, Nat.zero_add]

/-- Four digits are an escape. -/
theorem exists_unit {a b c d : UInt8} (ha : isXDigit a = true)
    (hb : isXDigit b = true) (hc : isXDigit c = true)
    (hd : isXDigit d = true) : ∃ n, Unit16 [0x5c, 0x75, a, b, c, d] n := by
  obtain ⟨i, hi⟩ := isXDigit_value ha
  obtain ⟨j, hj⟩ := isXDigit_value hb
  obtain ⟨k, hk⟩ := isXDigit_value hc
  obtain ⟨l, hl⟩ := isXDigit_value hd
  exact ⟨_, .mk hi hj hk hl⟩

/-- Four of them are below 2 to the power of 16. -/
theorem Unit16.lt {u : List UInt8} {n : Nat} (h : Unit16 u n) :
    n < 0x10000 := by
  cases h with
  | mk ha hb hc hd =>
      have := ha.lt
      have := hb.lt
      have := hc.lt
      have := hd.lt
      omega

/-- The short escapes of the source are those of the format. -/
theorem shortEscape_mem {c b : UInt8} :
    (c, b) ∈ shortEscapes ↔ isEscape c = true ∧ b = shortEscape c := by
  unfold shortEscapes isEscape shortEscape
  simp only [List.mem_cons, Prod.mk.injEq, List.not_mem_nil, or_false,
    decide_eq_true_eq]
  constructor
  · rintro (⟨rfl, rfl⟩ | ⟨rfl, rfl⟩ | ⟨rfl, rfl⟩
      | ⟨rfl, rfl⟩ | ⟨rfl, rfl⟩
      | ⟨rfl, rfl⟩ | ⟨rfl, rfl⟩ | ⟨rfl, rfl⟩)
    all_goals decide
  · rintro ⟨rfl | rfl | rfl | rfl | rfl | rfl | rfl | rfl, rfl⟩
    all_goals decide

/-- The letter `u` is no short escape. -/
theorem isEscape_ne {c : UInt8} (h : isEscape c = true) : c ≠ 0x75 := by
  rintro rfl
  revert h
  decide

-- =========================================================== the first loop

/-- The bytes that the first loop goes through: escapes are complete, but
nothing is said about surrogates. -/
inductive Escaped : List UInt8 → Prop
  | nil : Escaped []
  | plain {b : UInt8} {raw : List UInt8} : 0x20 ≤ b.toNat → b ≠ 0x22 →
      b ≠ 0x5c → Escaped raw → Escaped (b :: raw)
  | short {c : UInt8} {raw : List UInt8} : isEscape c = true → Escaped raw →
      Escaped (0x5c :: c :: raw)
  | unit {a b c d : UInt8} {raw : List UInt8} : isXDigit a = true →
      isXDigit b = true → isXDigit c = true → isXDigit d = true →
      Escaped raw → Escaped (0x5c :: 0x75 :: a :: b :: c :: d :: raw)

/-- The text of a string is escaped. -/
theorem Chars.escaped {value raw : List UInt8} (h : Chars value raw) :
    Escaped raw := by
  induction h with
  | nil => exact .nil
  | plain hlow hquote hslash _ ih => exact .plain hlow hquote hslash ih
  | short hmem _ ih => exact .short (shortEscape_mem.1 hmem).1 ih
  | unit hu _ _ ih =>
      obtain ⟨a, b, c, d, rfl, ⟨ha, hb, hc, hd⟩, -⟩ :=
        decodeUnicodeEscape_unit [] hu
      exact .unit ha hb hc hd ih
  | pair hu hv _ _ _ _ _ ih =>
      obtain ⟨a, b, c, d, rfl, ⟨ha, hb, hc, hd⟩, -⟩ :=
        decodeUnicodeEscape_unit [] hu
      obtain ⟨a', b', c', d', rfl, ⟨ha', hb', hc', hd'⟩, -⟩ :=
        decodeUnicodeEscape_unit [] hv
      exact .unit ha hb hc hd (.unit ha' hb' hc' hd' ih)

section First

variable {r : Got × Lex ρ} {bytes saved rest raw : List UInt8} {fin : Got}

@[simp] theorem scanHex_token (n : Nat) (r : Got × Lex ρ) :
    (scanHex n r).2.2.token = r.2.token := by
  induction n generalizing r with
  | zero => rfl
  | succ n ih =>
      rw [scanHex]
      split_ifs
      · exact (ih _).trans (lexGetSave_token _)
      · rfl

/-- Scanning a string does not set the token. -/
theorem scanChars_token (n : Nat) (r : Got × Lex ρ) :
    (scanChars n r).2.token = r.2.token := by
  induction n generalizing r with
  | zero => rfl
  | succ n ih =>
      obtain ⟨got, l⟩ := r
      cases got with
      | error => rfl
      | eof => exact errorSet_token _ _
      | byte c =>
          simp only [scanChars]
          split_ifs
          all_goals simp [ih]

/-- The digits of an escape, if there are as many. -/
theorem scanHex_spec (hne : ∀ b, fin ≠ .byte b) {n : Nat}
    (h : Next true fin bytes saved r) (htrue : (scanHex n r).1 = true) :
    ∃ digits rest, bytes = digits ++ rest ∧ digits.length = n
      ∧ (∀ c ∈ digits, isXDigit c = true)
      ∧ Next true fin rest (saved ++ digits) (scanHex n r).2 := by
  induction n generalizing r bytes saved with
  | zero => exact ⟨[], bytes, rfl, rfl, nofun, by simpa [scanHex] using h⟩
  | succ n ih =>
      rw [scanHex] at htrue ⊢
      split_ifs at htrue ⊢ with hdigit
      cases h with
      | fin hat =>
          cases fin with
          | byte b => exact absurd rfl (hne b)
          | eof => cases hdigit
          | error => cases hdigit
      | @byte b rest _ l hat hbehind =>
          obtain ⟨digits, rest', rfl, hlen, hall, hnext⟩ :=
            ih (lexGetSave_next hat) htrue
          refine ⟨b :: digits, rest', rfl, by rw [List.length_cons, hlen],
            List.forall_mem_cons.2 ⟨hdigit, hall⟩, ?_⟩
          rw [if_pos rfl, List.append_assoc] at hnext
          exact hnext

/-- Four hexadecimal digits are scanned as such. -/
theorem scanHex_digits {n : Nat} (digits : List UInt8)
    (h : Next true fin (digits ++ rest) saved r) (hlen : digits.length = n)
    (hall : ∀ c ∈ digits, isXDigit c = true) :
    (scanHex n r).1 = true
      ∧ Next true fin rest (saved ++ digits) (scanHex n r).2 := by
  induction n generalizing r digits saved with
  | zero =>
      obtain rfl := List.length_eq_zero_iff.1 hlen
      exact ⟨rfl, by simpa [scanHex] using h⟩
  | succ n ih =>
      cases digits with
      | nil => cases hlen
      | cons b digits =>
          obtain ⟨hb, hall⟩ := List.forall_mem_cons.1 hall
          obtain ⟨hbyte, hat⟩ := h.at
          rw [scanHex, if_pos (by rw [hbyte]; exact hb)]
          obtain ⟨htrue, hnext⟩ := ih digits (lexGetSave_next hat)
            (Nat.succ.inj hlen) hall
          rw [if_pos rfl, List.append_assoc] at hnext
          exact ⟨htrue, hnext⟩

/-- The first loop ends behind a quotation mark. -/
theorem scanChars_sound (hne : ∀ b, fin ≠ .byte b) {n : Nat}
    (h : Next true fin bytes saved r) (htrue : (scanChars n r).1 = true) :
    ∃ raw rest, bytes = raw ++ 0x22 :: rest ∧ Escaped raw
      ∧ (scanChars n r).2.At rest fin (saved ++ (raw ++ [0x22])) := by
  induction n generalizing r bytes saved with
  | zero => cases htrue
  | succ n ih =>
      cases h with
      | fin hat =>
          cases fin with
          | byte b => exact absurd rfl (hne b)
          | eof => cases htrue
          | error => cases htrue
      | @byte c rest _ l hat hbehind =>
          rw [if_pos rfl] at hat
          simp only [scanChars] at htrue ⊢
          split_ifs at htrue ⊢ with hquote hctrl hslash hu hhex hescape
          · subst hquote
            exact ⟨[], rest, rfl, .nil, hat⟩
          · -- `\u` and four digits
            subst hslash
            have hnext := lexGetSave_next hat
            obtain ⟨more, rfl⟩ : ∃ more, rest = 0x75 :: more := by
              have hhead := (hnext.eq_byte_iff hne).1 hu
              cases rest with
              | nil => cases hhead
              | cons d more => exact ⟨more, by cases hhead; rfl⟩
            obtain ⟨digits, rest', rfl, hlen, hall, hnext'⟩ :=
              scanHex_spec hne (lexGetSave_next hnext.at.2) hhex
            obtain ⟨raw, rest, rfl, hraw, hend⟩ := ih hnext' htrue
            obtain ⟨a, b, c, d, rfl⟩ : ∃ a b c d,
                digits = [a, b, c, d] := by
              match digits, hlen with
              | [a, b, c, d], _ => exact ⟨a, b, c, d, rfl⟩
            simp only [List.forall_mem_cons] at hall
            obtain ⟨ha, hb, hc, hd, -⟩ := hall
            refine ⟨0x5c :: 0x75 :: a :: b :: c :: d :: raw, rest, rfl,
              .unit ha hb hc hd hraw, ?_⟩
            simpa using hend
          · -- a short escape
            subst hslash
            have hnext := lexGetSave_next hat
            cases rest with
            | nil =>
                obtain ⟨b, hb, -⟩ := (hnext.is_iff hne _).1 hescape
                cases hb
            | cons d rest =>
                obtain ⟨b, ⟨⟩, hb⟩ := (hnext.is_iff hne _).1 hescape
                obtain ⟨raw, rest, rfl, hraw, hend⟩ :=
                  ih (lexGetSave_next hnext.at.2) htrue
                refine ⟨0x5c :: d :: raw, rest, rfl, .short hb hraw, ?_⟩
                simpa using hend
          · -- a byte that stands for itself
            obtain ⟨raw, rest, rfl, hraw, hend⟩ :=
              ih (lexGetSave_next hat) htrue
            refine ⟨c :: raw, rest, rfl, .plain ?_ hquote hslash hraw, ?_⟩
            · rw [UInt8.le_iff_toNat_le] at hctrl
              exact Nat.not_le.1 hctrl
            · simpa using hend

/-- Characters up to a quotation mark are gone through. -/
theorem scanChars_escaped {n : Nat} (hraw : Escaped raw)
    (h : Next true fin (raw ++ 0x22 :: rest) saved r) (hn : raw.length < n) :
    (scanChars n r).1 = true
      ∧ (scanChars n r).2.At rest fin (saved ++ (raw ++ [0x22])) := by
  -- one case for each kind of escape; each round of the scanner consumes
  -- one
  induction hraw generalizing n r saved with
  | nil =>
      obtain ⟨n, rfl⟩ :=
        Nat.exists_eq_succ_of_ne_zero (Nat.ne_zero_of_lt hn)
      cases h with
      | byte hat _ =>
          simp only [scanChars, if_true]
          exact ⟨trivial, hat⟩
  | @plain b raw hlow hquote hslash hraw ih =>
      obtain ⟨n, rfl⟩ :=
        Nat.exists_eq_succ_of_ne_zero (Nat.ne_zero_of_lt hn)
      cases h with
      | byte hat _ =>
          have hctrl : ¬ b ≤ 0x1f := by
            rw [UInt8.le_iff_toNat_le]
            exact Nat.not_le.2 hlow
          simp only [scanChars, if_neg hquote, if_neg hctrl, if_neg hslash]
          obtain ⟨htrue, hend⟩ := ih (lexGetSave_next hat)
            (Nat.lt_of_succ_lt_succ hn)
          refine ⟨htrue, ?_⟩
          simpa using hend
  | @short c raw hescape hraw ih =>
      obtain ⟨n, rfl⟩ :=
        Nat.exists_eq_succ_of_ne_zero (Nat.ne_zero_of_lt hn)
      cases h with
      | @byte _ _ _ l hat _ =>
          obtain ⟨hbyte, hat'⟩ := (lexGetSave_next hat).at
          have hu : (lexGetSave l).1 ≠ .byte 0x75 := fun hu =>
            isEscape_ne hescape (Got.byte.inj (hbyte.symm.trans hu))
          have his : (lexGetSave l).1.is isEscape = true := by
            rw [hbyte]
            exact hescape
          simp only [scanChars]
          rw [if_neg (by decide), if_neg (by decide), if_pos trivial, if_neg hu,
            if_pos his]
          obtain ⟨htrue, hend⟩ := ih (n := n) (lexGetSave_next hat') (by
            simp only [List.length_cons] at hn
            omega)
          refine ⟨htrue, ?_⟩
          simpa using hend
  | @unit a b c d raw ha hb hc hd hraw ih =>
      obtain ⟨n, rfl⟩ :=
        Nat.exists_eq_succ_of_ne_zero (Nat.ne_zero_of_lt hn)
      cases h with
      | byte hat _ =>
          obtain ⟨hbyte, hat'⟩ := (lexGetSave_next hat).at
          obtain ⟨hhex, hnext⟩ := scanHex_digits (n := 4) [a, b, c, d]
            (lexGetSave_next hat') rfl (by simp [ha, hb, hc, hd])
          simp only [scanChars]
          rw [if_neg (by decide), if_neg (by decide), if_pos trivial,
            if_pos hbyte, if_pos hhex]
          obtain ⟨htrue, hend⟩ := ih (n := n) hnext (by
            simp only [List.length_cons] at hn
            omega)
          refine ⟨htrue, ?_⟩
          simpa using hend

end First

-- ========================================================== the second loop

section Second

variable {raw tail value : List UInt8} {n : Nat}

/-- A code point is encoded as UTF-8 has it. -/
theorem utf8Encode_scalar {n : Nat} (h : n < 0x110000) :
    utf8Encode (n : Int) = some (utf8 n) := by
  rw [utf8Encode_eq, if_pos ⟨Int.natCast_nonneg n, by omega⟩,
    Int.toNat_natCast]

/-- The number that a pair of surrogates is. -/
theorem pair_eq (n m : Nat) :
    (n - 0xd800) <<< 10 + (m - 0xdc00) + 0x10000
      = 0x10000 + (n - 0xd800) * 0x400 + (m - 0xdc00) := by
  rw [Nat.shiftLeft_eq]
  omega

/-- A byte that stands for itself. -/
theorem unescape_plain {b : UInt8} (hquote : b ≠ 0x22) (hslash : b ≠ 0x5c)
    (p : List UInt8) :
    unescape (n + 1) (b :: p) = (b :: ·) <$> unescape n p := by
  rw [unescape]
  simp only [List.getD_cons_zero, List.drop_succ_cons, List.drop_zero,
    if_neg hquote, if_neg hslash]

/-- A short escape. -/
theorem unescape_short {c : UInt8} (hu : c ≠ 0x75) (p : List UInt8) :
    unescape (n + 1) (0x5c :: c :: p)
      = (shortEscape c :: ·) <$> unescape n p := by
  rw [unescape]
  simp only [List.getD_cons_zero, List.drop_succ_cons, List.drop_zero,
    if_neg hu]
  rw [if_neg (by decide), if_pos trivial]

/-- An escape of one code point, which is no surrogate. -/
theorem unescape_unit {u p : List UInt8} {m : Nat} (hu : Unit16 u m)
    (hm : Scalar m) :
    unescape (n + 1) (u ++ p) = (utf8 m ++ ·) <$> unescape n p := by
  obtain ⟨a, b, c, d, rfl, -, hdecode⟩ :=
    decodeUnicodeEscape_unit p hu
  simp only [List.cons_append, List.nil_append]
  rw [unescape]
  simp only [List.getD_cons_zero, List.drop_succ_cons, List.drop_zero]
  rw [if_neg (by decide), if_pos trivial, if_pos trivial, hdecode]
  obtain ⟨hlt, hno⟩ := hm
  dsimp only
  rw [if_neg (by omega), if_neg (by omega), utf8Encode_scalar hlt]
  rfl

/-- A pair of surrogates. -/
theorem unescape_pair {u v p : List UInt8} {m k : Nat} (hu : Unit16 u m)
    (hv : Unit16 v k) (hm : 0xd800 ≤ m) (hm' : m < 0xdc00) (hk : 0xdc00 ≤ k)
    (hk' : k < 0xe000) :
    unescape (n + 1) (u ++ (v ++ p))
      = (utf8 (0x10000 + (m - 0xd800) * 0x400 + (k - 0xdc00)) ++ ·)
        <$> unescape n p := by
  obtain ⟨a', b', c', d', rfl, -, hdecode'⟩ :=
    decodeUnicodeEscape_unit p hv
  obtain ⟨a, b, c, d, rfl, -, hdecode⟩ := decodeUnicodeEscape_unit
    (0x5c :: 0x75 :: a' :: b' :: c' :: d' :: p) hu
  simp only [List.cons_append, List.nil_append]
  rw [unescape]
  simp only [List.getD_cons_zero, List.getD_cons_succ, List.drop_succ_cons,
    List.drop_zero]
  rw [if_neg (by decide), if_pos trivial, if_pos trivial, hdecode]
  dsimp only
  rw [if_pos ⟨hm, by omega⟩, if_pos ⟨trivial, trivial⟩, hdecode']
  dsimp only
  rw [if_pos ⟨hk, by omega⟩, pair_eq, utf8Encode_scalar (by omega),
    Option.getD_some]

/-- A map has succeeded if what it maps has. -/
theorem map_ok {α β ε : Type} {f : α → β} {x : Except ε α} {y : β}
    (h : f <$> x = .ok y) : ∃ a, x = .ok a ∧ y = f a := by
  cases x with
  | error e => cases h
  | ok a =>
      cases h
      exact ⟨a, rfl, rfl⟩

/-- The second loop gives the value of the characters. -/
theorem unescape_chars (tail : List UInt8) (h : Chars value raw)
    (hn : raw.length < n) :
    unescape n (raw ++ 0x22 :: tail) = .ok value := by
  induction h generalizing n with
  | nil =>
      obtain ⟨n, rfl⟩ :=
        Nat.exists_eq_succ_of_ne_zero (Nat.ne_zero_of_lt hn)
      rfl
  | @plain b value raw hlow hquote hslash _ ih =>
      obtain ⟨n, rfl⟩ :=
        Nat.exists_eq_succ_of_ne_zero (Nat.ne_zero_of_lt hn)
      rw [List.cons_append, Nat.succ_eq_add_one,
        unescape_plain hquote hslash, ih (Nat.lt_of_succ_lt_succ hn)]
      rfl
  | @short c b value raw hmem _ ih =>
      obtain ⟨n, rfl⟩ :=
        Nat.exists_eq_succ_of_ne_zero (Nat.ne_zero_of_lt hn)
      obtain ⟨hescape, rfl⟩ := shortEscape_mem.1 hmem
      rw [List.cons_append, List.cons_append, Nat.succ_eq_add_one,
        unescape_short (isEscape_ne hescape), ih (by
          simp only [List.length_cons] at hn
          omega)]
      rfl
  | @unit u m value raw hu hm _ ih =>
      obtain ⟨n, rfl⟩ :=
        Nat.exists_eq_succ_of_ne_zero (Nat.ne_zero_of_lt hn)
      have hlen : 0 < u.length := by
        cases hu with
        | mk => exact Nat.succ_pos _
      rw [List.append_assoc, Nat.succ_eq_add_one, unescape_unit hu hm,
        ih (by
          rw [List.length_append] at hn
          omega)]
      rfl
  | @pair u v m k value raw hu hv hm hm' hk hk' _ ih =>
      obtain ⟨n, rfl⟩ :=
        Nat.exists_eq_succ_of_ne_zero (Nat.ne_zero_of_lt hn)
      have hlen : 0 < u.length := by
        cases hu with
        | mk => exact Nat.succ_pos _
      rw [List.append_assoc, List.append_assoc, Nat.succ_eq_add_one,
        unescape_pair hu hv hm hm' hk hk', ih (by
          rw [List.length_append, List.length_append] at hn
          omega)]
      rfl

/-- The second loop refuses a surrogate that has no second one. -/
theorem unescape_high {u p : List UInt8} {m : Nat} (hu : Unit16 u m)
    (hm : 0xd800 ≤ m) (hm' : m < 0xdc00)
    (hp : ¬ (p.getD 0 0 = 0x5c ∧ p.getD 1 0 = 0x75)) :
    unescape (n + 1) (u ++ p) ≠ .ok value := by
  obtain ⟨a, b, c, d, rfl, -, hdecode⟩ :=
    decodeUnicodeEscape_unit p hu
  simp only [List.cons_append, List.nil_append]
  rw [unescape]
  simp only [List.getD_cons_zero, List.drop_succ_cons, List.drop_zero]
  rw [if_neg (by decide), if_pos trivial, if_pos trivial, hdecode]
  dsimp only
  rw [if_pos ⟨hm, by omega⟩, if_neg hp]
  exact nofun

/-- It refuses one that is followed by another number. -/
theorem unescape_unpaired {u v p : List UInt8} {m k : Nat} (hu : Unit16 u m)
    (hv : Unit16 v k) (hm : 0xd800 ≤ m) (hm' : m < 0xdc00)
    (hk : ¬ (0xdc00 ≤ k ∧ k ≤ 0xdfff)) :
    unescape (n + 1) (u ++ (v ++ p)) ≠ .ok value := by
  obtain ⟨a', b', c', d', rfl, -, hdecode'⟩ :=
    decodeUnicodeEscape_unit p hv
  obtain ⟨a, b, c, d, rfl, -, hdecode⟩ := decodeUnicodeEscape_unit
    (0x5c :: 0x75 :: a' :: b' :: c' :: d' :: p) hu
  simp only [List.cons_append, List.nil_append]
  rw [unescape]
  simp only [List.getD_cons_zero, List.getD_cons_succ, List.drop_succ_cons,
    List.drop_zero]
  rw [if_neg (by decide), if_pos trivial, if_pos trivial, hdecode]
  dsimp only
  rw [if_pos ⟨hm, by omega⟩, if_pos ⟨trivial, trivial⟩, hdecode']
  dsimp only
  rw [if_neg hk]
  exact nofun

/-- It refuses a second surrogate on its own. -/
theorem unescape_low {u p : List UInt8} {m : Nat} (hu : Unit16 u m)
    (hm : 0xdc00 ≤ m) (hm' : m ≤ 0xdfff) :
    unescape (n + 1) (u ++ p) ≠ .ok value := by
  obtain ⟨a, b, c, d, rfl, -, hdecode⟩ :=
    decodeUnicodeEscape_unit p hu
  simp only [List.cons_append, List.nil_append]
  rw [unescape]
  simp only [List.getD_cons_zero, List.drop_succ_cons, List.drop_zero]
  rw [if_neg (by decide), if_pos trivial, if_pos trivial, hdecode]
  dsimp only
  rw [if_neg (by omega), if_pos ⟨hm, hm'⟩]
  exact nofun

/-- What the first loop has checked either begins with an escape of a code
point, or does not. -/
theorem Escaped.unit_or (h : Escaped raw) (tail : List UInt8) :
    (∃ v k more, raw = v ++ more ∧ Unit16 v k ∧ Escaped more
        ∧ more.length < raw.length)
      ∨ ¬ ((raw ++ 0x22 :: tail).getD 0 0 = 0x5c
        ∧ (raw ++ 0x22 :: tail).getD 1 0 = 0x75) := by
  cases h with
  | nil =>
      exact .inr fun hor =>
        absurd hor.1 (show ¬ (0x22 : UInt8) = 0x5c by decide)
  | plain _ _ hslash _ => exact .inr fun hor => hslash hor.1
  | short hescape _ => exact .inr fun hor => isEscape_ne hescape hor.2
  | unit ha hb hc hd hraw =>
      obtain ⟨k, hk⟩ := exists_unit ha hb hc hd
      refine .inl ⟨_, k, _, rfl, hk, hraw, ?_⟩
      simp only [List.length_cons]
      omega

/-- What the second loop takes are characters with this value. -/
theorem unescape_sound (tail : List UInt8) (hraw : Escaped raw)
    (hn : raw.length < n)
    (h : unescape n (raw ++ 0x22 :: tail) = .ok value) : Chars value raw := by
  induction n generalizing raw value with
  | zero => exact absurd hn (Nat.not_lt_zero _)
  | succ n ih =>
      cases hraw with
      | nil =>
          cases h
          exact .nil
      | plain hlow hquote hslash hraw =>
          rw [List.cons_append, unescape_plain hquote hslash] at h
          obtain ⟨more, hmore, rfl⟩ := map_ok h
          exact .plain hlow hquote hslash
            (ih hraw (Nat.lt_of_succ_lt_succ hn) hmore)
      | short hescape hraw =>
          rw [List.cons_append, List.cons_append,
            unescape_short (isEscape_ne hescape)] at h
          obtain ⟨more, hmore, rfl⟩ := map_ok h
          exact .short (shortEscape_mem.2 ⟨hescape, rfl⟩) (ih hraw (by
            simp only [List.length_cons] at hn
            omega) hmore)
      | @unit a b c d raw ha hb hc hd hraw =>
          obtain ⟨m, hu⟩ := exists_unit ha hb hc hd
          have hlt := hu.lt
          have hlen : raw.length < n := by
            simp only [List.length_cons] at hn
            omega
          change unescape (n + 1)
            ([0x5c, 0x75, a, b, c, d] ++ (raw ++ 0x22 :: tail)) = _ at h
          -- the first half of a surrogate pair must be followed by the
          -- second
          by_cases hhigh : 0xd800 ≤ m ∧ m < 0xdc00
          · rcases hraw.unit_or tail with ⟨v, k, more, rfl, hv, hescaped,
              hmore⟩ | hno
            · rw [List.append_assoc] at h
              by_cases hk : 0xdc00 ≤ k ∧ k ≤ 0xdfff
              · rw [unescape_pair hu hv hhigh.1 hhigh.2 hk.1
                  (by omega)] at h
                obtain ⟨val, hval, hvalue⟩ := map_ok h
                rw [hvalue]
                exact .pair hu hv hhigh.1 hhigh.2 hk.1 (by omega)
                  (ih hescaped (by omega) hval)
              · exact absurd h
                  (unescape_unpaired hu hv hhigh.1 hhigh.2 hk)
            · exact absurd h (unescape_high hu hhigh.1 hhigh.2 hno)
          · by_cases hlow : 0xdc00 ≤ m ∧ m ≤ 0xdfff
            · exact absurd h (unescape_low hu hlow.1 hlow.2)
            · have hm : Scalar m := ⟨by omega, by omega⟩
              rw [unescape_unit hu hm] at h
              obtain ⟨val, hval, rfl⟩ := map_ok h
              exact .unit hu hm (ih hraw hlen hval)

end Second

-- ================================================================= strings

section Scan

variable {w : Nat} {lib : Doubles ρ} {l : Lex ρ}
  {bytes rest raw value : List UInt8} {fin : Got}

/-- The second loop after the first. -/
theorem lexScanString_eq (hraw : Escaped raw)
    (h : l.At (raw ++ 0x22 :: rest) fin [0x22]) :
    ∃ l', l'.At rest fin (0x22 :: (raw ++ [0x22]))
      ∧ l'.token = .invalid
      ∧ lexScanString l = match unescape (raw.length + 2) (raw ++ [0x22]) with
        | .error msg => errorSet l' msg
        | .ok value => { l' with token := .string value } := by
  have hat : ({ l with token := .invalid } : Lex ρ).At (raw ++ 0x22 :: rest)
      fin [0x22] := ⟨h.feeds, h.saved⟩
  have hnext := lexGetSave_next hat
  have hlen : raw.length
      < (lexGetSave ({ l with token := .invalid } : Lex ρ)).2.left := by
    refine Nat.lt_of_lt_of_le ?_ hnext.le_left
    rw [List.length_append, List.length_cons]
    omega
  obtain ⟨htrue, hend⟩ := scanChars_escaped hraw hnext hlen
  refine ⟨_, hend, (scanChars_token _ _).trans (lexGetSave_token _), ?_⟩
  unfold lexScanString
  dsimp only
  rw [if_neg (by rw [htrue]; decide), hend.saved]
  have hcount : ([0x22] ++ (raw ++ [0x22])).length = raw.length + 2 := by
    simp only [List.length_append, List.length_cons, List.length_nil]
    omega
  rw [hcount]
  rfl

/-- Strings are read. -/
theorem lexScanString_chars (hchars : Chars value raw)
    (h : l.At (raw ++ 0x22 :: rest) fin [0x22]) :
    (lexScanString l).token = .string value
      ∧ (lexScanString l).At rest fin (0x22 :: (raw ++ [0x22])) := by
  obtain ⟨l', hat, -, heq⟩ := lexScanString_eq hchars.escaped h
  rw [unescape_chars [] hchars (by omega)] at heq
  rw [heq]
  exact ⟨rfl, hat.feeds, hat.saved⟩

/-- Strings are all that is read. -/
theorem lexScanString_sound (w : Nat) (lib : Doubles ρ)
    (hne : ∀ b, fin ≠ .byte b)
    (h : l.At bytes fin [0x22]) :
    (lexScanString l).token = .invalid
      ∨ (lexScanString l).Read w lib (0x22 :: bytes) fin := by
  have hat : ({ l with token := .invalid } : Lex ρ).At bytes fin [0x22] :=
    ⟨h.feeds, h.saved⟩
  cases htrue : (scanChars (lexGetSave { l with token := .invalid }).2.left
      (lexGetSave { l with token := .invalid })).1 with
  | false =>
      left
      unfold lexScanString
      dsimp only
      rw [if_pos htrue]
      exact (scanChars_token _ _).trans (lexGetSave_token _)
  | true =>
      obtain ⟨raw, rest, rfl, hraw, -⟩ :=
        scanChars_sound hne (lexGetSave_next hat) htrue
      obtain ⟨l', hat', htok, heq⟩ := lexScanString_eq hraw h
      cases hval : unescape (raw.length + 2) (raw ++ [0x22]) with
      | error msg =>
          left
          rw [heq, hval]
          exact (errorSet_token _ _).trans htok
      | ok value =>
          right
          rw [heq, hval]
          refine ⟨0x22 :: (raw ++ [0x22]), rest, by simp, ?_, hat'.feeds,
            hat'.saved⟩
          exact .string (unescape_sound [] hraw (by omega) hval)

end Scan

end ProjectsLibs.Jansson
