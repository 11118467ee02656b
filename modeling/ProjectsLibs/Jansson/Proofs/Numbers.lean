/-
`lex_scan_number` reads numbers, and nothing else.

What each part of it does is said with the digits that come next
(`takeWhile isDigit`). `lexScanNumber_sound`, `lexScanNumber_integer` and
`lexScanNumber_real` put them together.

# How a number is followed

The scanner is a nest of branches with a loop in each, and it reads one
byte too many before it finds out that a part is over. Every part has one
lemma: given what comes next in the text, it says which bytes are taken,
which are left and what the token is then. A run of digits is
`takeWhile`, and `Stops` says that the text behind a number does not go
on with a character of the run; with it the runs are read off a text that
is known (completeness), and the text is put together from what was read
(soundness).

The parts are put together from the end of the number to its beginning:
the exponent, then the fraction, then the digits of the integer, then the
sign. Soundness makes the same steps backwards. The value of an integer
is that of `strtol` over the bytes kept, so the lemmas about the token
(the section on what is kept) are needed once for every function that
reads a byte.
-/
import ProjectsLibs.Jansson.Text
import ProjectsLibs.Jansson.Proofs.Stream

namespace ProjectsLibs.Jansson

open Lib

variable {ρ : Type}

-- ============================================================ what is kept

section Token

variable {l : Lex ρ}

@[simp] theorem streamTake_token (l : Lex ρ) :
    (streamTake l).2.token = l.token := rfl

/-- Reading a byte does not set the token. -/
@[simp] theorem streamGet_token (l : Lex ρ) :
    (streamGet l).2.token = l.token := by
  unfold streamGet streamOut
  dsimp only
  split
  · rfl
  · rfl
  · split
    · split
      · rfl
      · split_ifs
        · simp
        · simp
        · rfl
        · rfl
    · rfl

@[simp] theorem lexGetSave_token (l : Lex ρ) :
    (lexGetSave l).2.token = l.token := by
  unfold lexGetSave
  dsimp only
  split
  · exact streamGet_token l
  · exact streamGet_token l

@[simp] theorem streamUnget_token (l : Lex ρ) (c : Got) :
    (streamUnget l c).token = l.token := by
  unfold streamUnget
  split <;> rfl

@[simp] theorem lexUngetUnsave_token (l : Lex ρ) (c : Got) :
    (lexUngetUnsave l c).token = l.token := by
  unfold lexUngetUnsave
  split
  · exact streamUnget_token l _
  · rfl

theorem lexWhile_token {p : UInt8 → Bool} {get : Lex ρ → Got × Lex ρ}
    (hget : ∀ l, (get l).2.token = l.token) (n : Nat) (r : Got × Lex ρ) :
    (lexWhile p get n r).2.token = r.2.token := by
  induction n generalizing r with
  | zero => rfl
  | succ n ih =>
      rw [lexWhile]
      split
      · exact (ih _).trans (hget r.2)
      · rfl

@[simp] theorem lexWhile_save_token (p : UInt8 → Bool) (n : Nat)
    (r : Got × Lex ρ) : (lexWhile p lexGetSave n r).2.token = r.2.token :=
  lexWhile_token lexGetSave_token n r

end Token

-- ================================================================= stopping

section Stops

variable {p q : UInt8 → Bool} {xs rest : List UInt8}

/-- Where a run of characters stops, none of them is taken. -/
theorem Stops.takeWhile (h : Stops p rest) : rest.takeWhile p = [] := by
  cases rest with
  | nil => rfl
  | cons c rest =>
      exact List.takeWhile_cons_of_neg (by rw [h c rfl]; decide)

theorem Stops.dropWhile (h : Stops p rest) : rest.dropWhile p = rest := by
  cases rest with
  | nil => rfl
  | cons c rest =>
      exact List.dropWhile_cons_of_neg (by rw [h c rfl]; decide)

/-- What is left behind a run begins with no more of it. -/
theorem stops_dropWhile (p : UInt8 → Bool) (xs : List UInt8) :
    Stops p (xs.dropWhile p) := by
  induction xs with
  | nil => exact nofun
  | cons c xs ih =>
      by_cases hc : p c = true
      · rw [List.dropWhile_cons_of_pos hc]
        exact ih
      · rw [List.dropWhile_cons_of_neg hc]
        rintro d ⟨⟩
        exact Bool.eq_false_iff.2 hc

/-- A run stops for fewer characters, too. -/
theorem Stops.mono (h : Stops p rest) (hpq : ∀ c, q c = true → p c = true) :
    Stops q rest := by
  intro c hc
  have hp := h c hc
  by_contra hq
  rw [hpq c (Bool.eq_true_of_not_eq_false hq)] at hp
  cases hp

/-- A run is taken whole, up to where it stops. -/
theorem takeWhile_stops (hxs : ∀ c ∈ xs, p c = true) (h : Stops p rest) :
    (xs ++ rest).takeWhile p = xs := by
  rw [List.takeWhile_append_of_pos hxs, h.takeWhile, List.append_nil]

theorem dropWhile_stops (hxs : ∀ c ∈ xs, p c = true) (h : Stops p rest) :
    (xs ++ rest).dropWhile p = rest := by
  rw [List.dropWhile_append_of_pos hxs, h.dropWhile]

/-- The digits that come next. -/
theorem digits_takeWhile (h : rest.takeWhile isDigit ≠ []) :
    Digits (rest.takeWhile isDigit) :=
  ⟨h, List.all_eq_true.1 List.all_takeWhile⟩

end Stops

-- ==================================================================== parts

section Parts

variable {w : Nat} {lib : Doubles ρ} {l : Lex ρ} {r : Got × Lex ρ}
  {bytes saved : List UInt8} {fin : Got}

/-- Digits behind one that has been got. -/
theorem digits_next (hne : ∀ b, fin ≠ .byte b) {c : UInt8}
    (hc : isDigit c = true) (h : l.At bytes fin (saved ++ [c])) :
    Next true fin ((c :: bytes).dropWhile isDigit)
      (saved ++ (c :: bytes).takeWhile isDigit)
      (lexWhile isDigit lexGetSave (lexGetSave l).2.left (lexGetSave l)) := by
  have hnext := lexGetSave_next h
  have hwhile := lexWhile_next (p := isDigit)
    (fun l bytes saved h => lexGetSave_next h) hne hnext hnext.le_left
  rw [List.dropWhile_cons_of_pos hc, List.takeWhile_cons_of_pos hc]
  simp only [if_true, List.append_assoc] at hwhile
  exact hwhile

/-- The fraction: digits, at least one. -/
theorem scanFraction_spec (hne : ∀ b, fin ≠ .byte b)
    (h : l.At bytes fin saved) :
    (bytes.takeWhile isDigit = [] → (scanFraction l).1 = false)
      ∧ (bytes.takeWhile isDigit ≠ [] → (scanFraction l).1 = true
        ∧ Next true fin (bytes.dropWhile isDigit)
          (saved ++ bytes.takeWhile isDigit) (scanFraction l).2) := by
  have hnext := streamGet_next h
  unfold scanFraction
  dsimp only
  generalize streamGet l = r at hnext ⊢
  cases hnext with
  | @byte b rest _ l' hat _ =>
      dsimp only
      by_cases hb : isDigit b = true
      · rw [if_pos hb]
        refine ⟨fun hnil => ?_, fun _ => ⟨rfl, ?_⟩⟩
        · rw [List.takeWhile_cons_of_pos hb] at hnil
          cases hnil
        · exact digits_next hne hb
            ⟨hat.feeds, congrArg (· ++ [b]) hat.saved⟩
      · rw [if_neg hb, List.takeWhile_cons_of_neg hb]
        exact ⟨fun _ => rfl, fun hnil => absurd rfl hnil⟩
  | fin hat =>
      refine ⟨fun _ => ?_, fun hnil => absurd rfl hnil⟩
      cases fin with
      | byte b => exact absurd rfl (hne b)
      | eof => rfl
      | error => rfl

/-- The sign of an exponent, if there is one. -/
def expSign (bytes : List UInt8) : List UInt8 :=
  if bytes.head? = some 0x2b ∨ bytes.head? = some 0x2d then bytes.take 1
  else []

/-- The sign of the exponent, if there is one, is in front. -/
theorem expSign_append (bytes : List UInt8) :
    bytes = expSign bytes ++ bytes.drop (expSign bytes).length := by
  unfold expSign
  split
  · cases bytes with
    | nil => rfl
    | cons b rest => rfl
  · rfl

theorem expSign_cases (bytes : List UInt8) :
    expSign bytes = [] ∨ expSign bytes = [0x2b]
      ∨ expSign bytes = [0x2d] := by
  unfold expSign
  split
  · rename_i hsign
    cases bytes with
    | nil => exact .inl rfl
    | cons b rest =>
        rcases hsign with hsign | hsign
        · cases hsign
          exact .inr (.inl rfl)
        · cases hsign
          exact .inr (.inr rfl)
  · exact .inl rfl

/-- The exponent: a sign or none, and digits, at least one. -/
theorem scanExponent_spec (hne : ∀ b, fin ≠ .byte b)
    (h : l.At bytes fin saved) {sign digits : List UInt8}
    (hsign : sign = expSign bytes)
    (hdigits : digits = (bytes.drop sign.length).takeWhile isDigit) :
    (digits = [] → (scanExponent l).1 = false)
      ∧ (digits ≠ [] → (scanExponent l).1 = true
        ∧ Next true fin ((bytes.drop sign.length).dropWhile isDigit)
          (saved ++ (sign ++ digits)) (scanExponent l).2) := by
  -- the sign is taken first, if there is one
  have hfirst : ∃ r, Next true fin (bytes.drop sign.length) (saved ++ sign) r
      ∧ scanExponent l = if r.1.is isDigit then
        (true, lexWhile isDigit lexGetSave (lexGetSave r.2).2.left
          (lexGetSave r.2)) else (false, r.1, lexUngetUnsave r.2 r.1) := by
    have hnext := lexGetSave_next h
    unfold scanExponent
    dsimp only
    simp only [hnext.eq_byte_iff hne]
    unfold expSign at hsign
    split at hsign
    · rename_i hhead
      rw [if_pos hhead]
      cases bytes with
      | nil => simp at hhead
      | cons b rest =>
          obtain ⟨-, hat⟩ := hnext.at
          refine ⟨_, ?_, rfl⟩
          rw [hsign]
          exact lexGetSave_next hat
    · rename_i hhead
      rw [if_neg hhead]
      refine ⟨_, ?_, rfl⟩
      rw [hsign, List.append_nil]
      exact hnext
  obtain ⟨r, hnext, heq⟩ := hfirst
  rw [heq]
  generalize hbytes : bytes.drop sign.length = bytes' at hnext hdigits ⊢
  cases hnext with
  | @byte b rest _ l' hat _ =>
      by_cases hb : isDigit b = true
      · rw [if_pos (show (Got.byte b).is isDigit = true from hb)]
        refine ⟨fun hnil => ?_, fun _ => ⟨rfl, ?_⟩⟩
        · rw [hdigits, List.takeWhile_cons_of_pos hb] at hnil
          cases hnil
        · rw [hdigits, ← List.append_assoc]
          exact digits_next hne hb hat
      · rw [if_neg (show ¬ (Got.byte b).is isDigit = true from hb)]
        rw [List.takeWhile_cons_of_neg hb] at hdigits
        exact ⟨fun _ => rfl, fun hnil => absurd hdigits hnil⟩
  | fin hat =>
      refine ⟨fun _ => ?_, fun hnil => absurd hdigits hnil⟩
      cases fin with
      | byte b => exact absurd rfl (hne b)
      | eof => rfl
      | error => rfl

/-- The end of an integer. -/
theorem scanInteger_spec (w : Nat) (hne : ∀ b, fin ≠ .byte b)
    (h : Next true fin bytes saved r) :
    (strtol w saved = none → (scanInteger w r).2.token = r.2.token)
      ∧ ∀ i, strtol w saved = some i →
        (scanInteger w r).2.token = .integer i
        ∧ (scanInteger w r).2.At bytes fin saved := by
  have hat := lexUngetUnsave_at hne h
  unfold scanInteger
  dsimp only
  rw [hat.saved]
  constructor
  · intro hnone
    rw [hnone]
    simp
  · intro i hsome
    rw [hsome]
    exact ⟨rfl, hat.feeds, rfl⟩

/-- The end of a real number. -/
theorem scanReal_spec (lib : Doubles ρ) (hne : ∀ b, fin ≠ .byte b)
    (h : Next true fin bytes saved r) :
    (lib.strtod saved = none → (scanReal lib r).2.token = r.2.token)
      ∧ ∀ d, lib.strtod saved = some d →
        (scanReal lib r).2.token = .real d
        ∧ (scanReal lib r).2.At bytes fin saved := by
  have hat := lexUngetUnsave_at hne h
  unfold scanReal
  dsimp only
  rw [hat.saved]
  constructor
  · intro hnone
    rw [hnone]
    simp
  · intro d hsome
    rw [hsome]
    exact ⟨rfl, hat.feeds, rfl⟩

@[simp] theorem scanFraction_token (l : Lex ρ) :
    (scanFraction l).2.2.token = l.token := by
  unfold scanFraction lexSave
  dsimp only
  split
  · split_ifs
    · simp
    · simp
  · simp

@[simp] theorem scanExponent_token (l : Lex ρ) :
    (scanExponent l).2.2.token = l.token := by
  unfold scanExponent
  dsimp only
  split_ifs
  all_goals simp

end Parts

-- ================================================================= integers

/-- The integer with which a text begins. -/
def intPart (text : List UInt8) : List UInt8 :=
  if text.head? = some 0x2d then 0x2d :: (text.drop 1).takeWhile isDigit
  else text.takeWhile isDigit

section Integers

variable {w : Nat} {lib : Doubles ρ} {l : Lex ρ} {r : Got × Lex ρ}
  {bytes saved rest raw : List UInt8} {fin : Got} {i : Int} {c : UInt8}

/-- The digits are the ten of ASCII. -/
theorem isDigit_iff (c : UInt8) :
    isDigit c = true ↔ 0x30 ≤ c.toNat ∧ c.toNat ≤ 0x39 := by
  unfold isDigit
  simp [UInt8.le_iff_toNat_le]

/-- The digits of an integer are those up to where it stops. -/
theorem intPart_append (h : IntText i raw) (hstops : Stops isDigit rest) :
    intPart (raw ++ rest) = raw := by
  unfold intPart
  cases h with
  | @pos digits hdigits =>
      obtain ⟨⟨hne, hall⟩, -⟩ := hdigits
      cases raw with
      | nil => exact absurd rfl hne
      | cons d raw =>
          have hd := (isDigit_iff d).1 (hall d (List.mem_cons_self ..))
          rw [if_neg]
          · exact takeWhile_stops hall hstops
          · rintro ⟨⟩
            exact absurd hd.1 (by decide)
  | neg hdigits =>
      rw [List.cons_append, List.head?_cons, if_pos rfl]
      exact congrArg _ (takeWhile_stops hdigits.1.2 hstops)

/-- An integer that begins with a digit. -/
theorem intText_digits (hdigits : ∀ d ∈ raw, isDigit d = true)
    (h : IntText i raw) : IntDigits raw := by
  cases h with
  | pos hint => exact hint
  | neg hint => exact absurd (hdigits _ (List.mem_cons_self ..)) (by decide)

/-- An integer that begins with a sign. -/
theorem intText_minus (h : IntText i (0x2d :: raw)) : IntDigits raw := by
  cases h with
  | pos hint =>
      exact absurd (hint.1.2 _ (List.mem_cons_self ..)) (by decide)
  | neg hint => exact hint

/-- Digits that are an integer, or that are none because there are none or
the first is a zero of several. -/
theorem intDigits_or (digits : List UInt8) (h : ∀ c ∈ digits, isDigit c) :
    IntDigits digits ∨ digits = []
      ∨ ∃ d more, digits = 0x30 :: d :: more := by
  cases digits with
  | nil => exact .inr (.inl rfl)
  | cons c digits =>
      by_cases hc : c = 0x30
      · subst hc
        cases digits with
        | nil => exact .inl ⟨⟨List.cons_ne_nil _ _, h⟩, fun _ => rfl⟩
        | cons d more => exact .inr (.inr ⟨d, more, rfl⟩)
      · exact .inl ⟨⟨List.cons_ne_nil _ _, h⟩, fun hhead =>
          absurd (Option.some.inj hhead) hc⟩

/-- `lex_scan_number` behind its sign. -/
def scanDigits (w : Nat) (lib : Doubles ρ) (r : Got × Lex ρ) :
    Bool × Lex ρ :=
  if r.1 = .byte 0x30 then
    let r := lexGetSave r.2
    if r.1.is isDigit then (false, lexUngetUnsave r.2 r.1)
    else scanRest w lib r
  else if r.1.is isDigit then
    let r := lexGetSave r.2
    scanRest w lib (lexWhile isDigit lexGetSave r.2.left r)
  else (false, lexUngetUnsave r.2 r.1)

/-- The digits of the integer. -/
theorem scanDigits_spec (w : Nat) (lib : Doubles ρ)
    (hne : ∀ b, fin ≠ .byte b)
    (h : Next true fin bytes saved r) :
    (¬ IntDigits (bytes.takeWhile isDigit) →
        (scanDigits w lib r).2.token = r.2.token)
      ∧ (IntDigits (bytes.takeWhile isDigit) →
        ∃ r', Next true fin (bytes.dropWhile isDigit)
            (saved ++ bytes.takeWhile isDigit) r'
          ∧ r'.2.token = r.2.token
          ∧ scanDigits w lib r = scanRest w lib r') := by
  have hall : ∀ c ∈ bytes.takeWhile isDigit, isDigit c = true :=
    List.all_eq_true.1 List.all_takeWhile
  unfold scanDigits
  cases h with
  | fin hat =>
      constructor
      · intro _
        cases fin with
        | byte b => exact absurd rfl (hne b)
        | eof => rfl
        | error => rfl
      · intro hdigits
        exact absurd rfl hdigits.1.1
  | @byte b rest _ l' hat hbehind =>
      -- a zero must stand alone; any other digit begins a run
      by_cases hzero : b = 0x30
      · subst hzero
        rw [if_pos rfl]
        have hnext := lexGetSave_next hat
        have hcons : (0x30 :: rest).takeWhile isDigit
            = 0x30 :: rest.takeWhile isDigit :=
          List.takeWhile_cons_of_pos (by decide)
        have hdrop : (0x30 :: rest).dropWhile isDigit
            = rest.dropWhile isDigit :=
          List.dropWhile_cons_of_pos (by decide)
        rw [hcons, hdrop]
        dsimp only
        by_cases hdigit : (lexGetSave l').1.is isDigit = true
        · rw [if_pos hdigit]
          obtain ⟨d, hd, hdig⟩ := (hnext.is_iff hne isDigit).1 hdigit
          refine ⟨fun _ => ?_, fun hint => ?_⟩
          · simp
          · have hone := hint.2 rfl
            cases rest with
            | nil => cases hd
            | cons e rest =>
                cases hd
                rw [List.takeWhile_cons_of_pos hdig] at hone
                cases hone
        · rw [if_neg hdigit]
          have hstops : Stops isDigit rest := by
            intro d hd
            exact Bool.eq_false_iff.2 fun hdig =>
              hdigit ((hnext.is_iff hne isDigit).2 ⟨d, hd, hdig⟩)
          rw [hstops.takeWhile, hstops.dropWhile]
          refine ⟨fun hint => absurd ?_ hint, fun _ => ?_⟩
          · exact ⟨⟨List.cons_ne_nil _ _,
              List.forall_mem_singleton.2 (by decide)⟩, fun _ => rfl⟩
          · exact ⟨_, hnext, lexGetSave_token _, rfl⟩
      · rw [if_neg fun heq => hzero (Got.byte.inj heq)]
        by_cases hb : isDigit b = true
        · rw [if_pos (show (Got.byte b).is isDigit = true from hb)]
          refine ⟨fun hint => absurd ?_ hint, fun _ => ?_⟩
          · refine (intDigits_or _ hall).resolve_right ?_
            rw [List.takeWhile_cons_of_pos hb]
            rintro (hnil | ⟨d, more, heq⟩)
            · cases hnil
            · exact hzero (List.cons.inj heq).1
          · exact ⟨_, digits_next hne hb hat, by simp, rfl⟩
        · rw [if_neg (show ¬ (Got.byte b).is isDigit = true from hb)]
          refine ⟨fun _ => by simp, fun hint => ?_⟩
          rw [List.takeWhile_cons_of_neg hb] at hint
          exact absurd rfl hint.1.1

/-- A number is scanned from behind its sign. -/
theorem lexScanNumber_eq (w : Nat) (lib : Doubles ρ) (l : Lex ρ)
    (c : UInt8) : lexScanNumber w lib l c = scanDigits w lib
      (if c = 0x2d then lexGetSave { l with token := .invalid }
        else (.byte c, { l with token := .invalid })) := rfl

/-- The integer with which a number begins. -/
theorem lexScanNumber_int (w : Nat) (lib : Doubles ρ)
    (hne : ∀ b, fin ≠ .byte b)
    (h : l.At bytes fin [c]) (hbehind : l.stream.Behind c) :
    ((∀ i, ¬ IntText i (intPart (c :: bytes))) →
        (lexScanNumber w lib l c).2.token = .invalid)
      ∧ ∀ i, IntText i (intPart (c :: bytes)) →
        ∃ r rest, Next true fin rest (intPart (c :: bytes)) r
          ∧ c :: bytes = intPart (c :: bytes) ++ rest ∧ Stops isDigit rest
          ∧ r.2.token = .invalid
          ∧ lexScanNumber w lib l c = scanRest w lib r := by
  have hat : ({ l with token := .invalid } : Lex ρ).At bytes fin [c] :=
    ⟨h.feeds, h.saved⟩
  rw [lexScanNumber_eq]
  unfold intPart
  rw [List.head?_cons]
  by_cases hminus : c = 0x2d
  · subst hminus
    rw [if_pos rfl, if_pos rfl, List.drop_one, List.tail_cons]
    obtain ⟨hbad, hgood⟩ := scanDigits_spec w lib hne
      (lexGetSave_next hat)
    rw [lexGetSave_token] at hbad hgood
    refine ⟨fun hint => hbad fun hdigits => hint _ (.neg hdigits),
      fun i hint => ?_⟩
    obtain ⟨r, hnext, htok, heq⟩ := hgood (intText_minus hint)
    refine ⟨r, _, hnext, ?_, stops_dropWhile _ _, htok, heq⟩
    rw [List.cons_append, List.takeWhile_append_dropWhile]
  · rw [if_neg fun heq => hminus (Option.some.inj heq), if_neg hminus]
    have hnext : Next true fin (c :: bytes) []
        (.byte c, { l with token := .invalid }) := .byte hat hbehind
    obtain ⟨hbad, hgood⟩ := scanDigits_spec w lib hne hnext
    refine ⟨fun hint => hbad fun hdigits => hint _ (.pos hdigits),
      fun i hint => ?_⟩
    obtain ⟨r, hnext', htok, heq⟩ := hgood
      (intText_digits (List.all_eq_true.1 List.all_takeWhile) hint)
    refine ⟨r, _, hnext', ?_, stops_dropWhile _ _, htok, heq⟩
    rw [List.takeWhile_append_dropWhile]

/-- The number that an integer is. -/
theorem strtol_int (h : IntText i raw) :
    strtol w raw = if -(2 ^ (w - 1)) ≤ i ∧ i < 2 ^ (w - 1) then some i
      else none := by
  unfold strtol
  cases h with
  | pos hint =>
      have hhead : raw.headD 0 ≠ 0x2d := by
        intro hhead
        cases raw with
        | nil => exact absurd rfl hint.1.1
        | cons d raw =>
            obtain rfl : d = 0x2d := hhead
            exact absurd (hint.1.2 _ (List.mem_cons_self ..)) (by decide)
      rw [if_neg hhead]
  | neg hint => rfl

end Integers

-- ============================================================ real numbers

/-- The letter of an exponent. -/
def isE (c : UInt8) : Bool := c = 0x45 ∨ c = 0x65

/-- The analyzer has read a token of the text, and its bytes. -/
def Lex.Read (w : Nat) (lib : Doubles ρ) (l : Lex ρ) (text : List UInt8)
    (fin : Got) : Prop :=
  ∃ raw rest, text = raw ++ rest ∧ Lexeme w lib l.token raw rest
    ∧ l.At rest fin raw

section Reals

variable {w : Nat} {lib : Doubles ρ} {l : Lex ρ} {r : Got × Lex ρ}
  {bytes saved rest raw exp : List UInt8} {fin : Got} {i : Int} {c e : UInt8}
  {d : ρ}

/-- The scanner sees an exponent exactly if the next byte is its letter. -/
theorem isE_iff (hne : ∀ b, fin ≠ .byte b)
    (h : Next true fin bytes saved r) :
    (r.1 = .byte 0x45 ∨ r.1 = .byte 0x65) ↔ ¬ Stops isE bytes := by
  rw [h.eq_byte_iff hne, h.eq_byte_iff hne]
  unfold Stops isE
  cases bytes with
  | nil => simp
  | cons b rest =>
      simp
      tauto

/-- Without an exponent the number ends here. -/
theorem scanPower_stops (hne : ∀ b, fin ≠ .byte b)
    (h : Next true fin bytes saved r) (hstops : Stops isE bytes) :
    scanPower lib r = scanReal lib r := by
  unfold scanPower
  rw [if_neg fun hor => (isE_iff hne h).1 hor hstops]

/-- With the letter of an exponent there is one, or the text is wrong. -/
theorem scanPower_spec (lib : Doubles ρ) (hne : ∀ b, fin ≠ .byte b)
    (h : Next true fin (e :: bytes) saved r) (he : isE e = true)
    {sign digits : List UInt8} (hsign : sign = expSign bytes)
    (hdigits : digits = (bytes.drop sign.length).takeWhile isDigit) :
    (digits = [] → (scanPower lib r).2.token = r.2.token)
      ∧ (digits ≠ [] → ∃ r', Next true fin
            ((bytes.drop sign.length).dropWhile isDigit)
            (saved ++ e :: (sign ++ digits)) r'
          ∧ r'.2.token = r.2.token
          ∧ scanPower lib r = scanReal lib r') := by
  have hor := (isE_iff hne h).2 fun hstops => by
    rw [hstops e rfl] at he
    cases he
  obtain ⟨hbad, hgood⟩ := scanExponent_spec hne h.at.2 hsign hdigits
  unfold scanPower
  rw [if_pos hor]
  dsimp only
  constructor
  · intro hnil
    rw [if_pos (hbad hnil)]
    exact scanExponent_token _
  · intro hnil
    obtain ⟨htrue, hnext⟩ := hgood hnil
    rw [if_neg (by rw [htrue]; decide)]
    refine ⟨_, ?_, scanExponent_token _, rfl⟩
    rw [if_pos rfl, List.append_assoc] at hnext
    exact hnext

/-- An exponent that comes next. -/
theorem exponent_parts {sign digits : List UInt8}
    (hsign : sign = [] ∨ sign = [0x2b] ∨ sign = [0x2d])
    (hdigits : Digits digits) (hstops : Stops isDigit rest) :
    expSign (sign ++ (digits ++ rest)) = sign
      ∧ ((sign ++ (digits ++ rest)).drop sign.length).takeWhile isDigit
        = digits
      ∧ ((sign ++ (digits ++ rest)).drop sign.length).dropWhile isDigit
        = rest := by
  refine ⟨?_, ?_, ?_⟩
  · rcases hsign with rfl | rfl | rfl
    · obtain ⟨hnil, hall⟩ := hdigits
      obtain ⟨d, digits, rfl⟩ := List.exists_cons_of_ne_nil hnil
      have hd := (isDigit_iff d).1 (hall d (List.mem_cons_self ..))
      unfold expSign
      rw [if_neg]
      rintro (⟨⟨⟩⟩ | ⟨⟨⟩⟩)
      · exact absurd hd.1 (by decide)
      · exact absurd hd.1 (by decide)
    · rfl
    · rfl
  · rw [List.drop_left, takeWhile_stops hdigits.2 hstops]
  · rw [List.drop_left, dropWhile_stops hdigits.2 hstops]

/-- A number with an exponent is read. -/
theorem scanPower_exponent (hne : ∀ b, fin ≠ .byte b)
    (h : Next true fin (exp ++ rest) saved r) (hexp : Exponent exp)
    (hstops : Stops isDigit rest) (hd : lib.strtod (saved ++ exp) = some d) :
    (scanPower lib r).2.token = .real d
      ∧ (scanPower lib r).2.At rest fin (saved ++ exp) := by
  obtain ⟨e, sign, digits, he, hsign, hdigits, rfl⟩ := hexp
  rw [List.cons_append, List.append_assoc] at h
  obtain ⟨hone, htwo, hthree⟩ := exponent_parts hsign hdigits hstops
  obtain ⟨r', hnext, -, heq⟩ := (scanPower_spec lib hne h
    (by simpa [isE] using he) hone.symm htwo.symm).2 hdigits.1
  rw [hthree] at hnext
  rw [heq]
  exact (scanReal_spec lib hne hnext).2 d hd

/-- What is read behind an integer or a fraction is a number. -/
theorem scanPower_sound (w : Nat) (lib : Doubles ρ)
    (hne : ∀ b, fin ≠ .byte b)
    (h : Next true fin bytes saved r) (htok : r.2.token = .invalid)
    (hstops : Stops isDigit bytes)
    (hreal : Stops isE bytes → RealText saved false)
    (hexp : ∀ exp, Exponent exp → RealText (saved ++ exp) true) :
    (scanPower lib r).2.token = .invalid
      ∨ (scanPower lib r).2.Read w lib (saved ++ bytes) fin := by
  -- without an exponent the number ends here
  by_cases hE : Stops isE bytes
  · rw [scanPower_stops hne h hE]
    obtain ⟨hbad, hgood⟩ := scanReal_spec lib hne h
    cases hd : lib.strtod saved with
    | none => exact .inl ((hbad hd).trans htok)
    | some d =>
        obtain ⟨htoken, hat⟩ := hgood d hd
        refine .inr ⟨saved, bytes, rfl, ?_, hat⟩
        rw [htoken]
        refine .fraction (hreal hE) hd fun c hc => ?_
        have h1 := hstops c hc
        have h2 := hE c hc
        unfold fractionGoesOn
        unfold isE at h2
        simp_all
  · cases bytes with
    | nil => exact absurd nofun hE
    | cons e bytes =>
        have he : isE e = true := by
          by_contra hfalse
          refine hE ?_
          rintro c ⟨⟩
          exact Bool.eq_false_iff.2 hfalse
        obtain ⟨hbad, hgood⟩ := scanPower_spec lib hne h he rfl rfl
        by_cases hnil : (bytes.drop (expSign bytes).length).takeWhile isDigit
            = []
        · exact .inl ((hbad hnil).trans htok)
        obtain ⟨r', hnext, htok', heq⟩ := hgood hnil
        rw [heq]
        obtain ⟨hbad', hgood'⟩ := scanReal_spec lib hne hnext
        cases hd : lib.strtod (saved ++ e :: (expSign bytes
            ++ (bytes.drop (expSign bytes).length).takeWhile isDigit)) with
        | none => exact .inl ((hbad' hd).trans (htok'.trans htok))
        | some d =>
            obtain ⟨htoken, hat⟩ := hgood' d hd
            refine .inr ⟨_, _, ?_, ?_, hat⟩
            · rw [List.append_assoc, List.cons_append, List.append_assoc,
                List.takeWhile_append_dropWhile, ← expSign_append]
            · rw [htoken]
              refine .exponent (hexp _ ⟨e, _, _, by simpa [isE] using he,
                expSign_cases bytes, digits_takeWhile hnil, rfl⟩) hd
                (stops_dropWhile _ _)

/-- What is read behind the digits of an integer is a number. -/
theorem scanRest_sound (hne : ∀ b, fin ≠ .byte b)
    (h : Next true fin bytes saved r) (htok : r.2.token = .invalid)
    (hstops : Stops isDigit bytes) (hint : IntText i saved) :
    (scanRest w lib r).2.token = .invalid
      ∨ (scanRest w lib r).2.Read w lib (saved ++ bytes) fin := by
  unfold scanRest
  have hE := isE_iff hne h
  -- an integer, a fraction with or without an exponent, or an exponent
  -- right behind the digits
  split_ifs with hend hpoint
  · obtain ⟨hbad, hgood⟩ := scanInteger_spec w hne h
    cases hi : strtol w saved with
    | none => exact .inl ((hbad hi).trans htok)
    | some i' =>
        obtain ⟨htoken, hat⟩ := hgood i' hi
        rw [strtol_int hint] at hi
        split_ifs at hi with hrange
        cases hi
        refine .inr ⟨saved, bytes, rfl, ?_, hat⟩
        rw [htoken]
        refine .integer hint hrange.1 hrange.2 fun c hc => ?_
        have h1 := hstops c hc
        have hbyte : r.1 = .byte c := (h.eq_byte_iff hne).2 hc
        rw [hbyte] at hend
        unfold goesOn
        simp_all
  · cases h with
    | fin hat => exact absurd hpoint (hne _)
    | @byte b rest _ l' hat hbehind =>
        cases hpoint
        obtain ⟨hbad, hgood⟩ := scanFraction_spec hne hat
        by_cases hnil : rest.takeWhile isDigit = []
        · rw [if_pos (hbad hnil)]
          exact .inl ((scanFraction_token _).trans htok)
        · obtain ⟨htrue, hnext⟩ := hgood hnil
          rw [if_neg (by rw [htrue]; decide)]
          have hfrac : Fraction (0x2e :: rest.takeWhile isDigit) :=
            ⟨_, digits_takeWhile hnil, rfl⟩
          rw [if_pos rfl, List.append_assoc] at hnext
          have hpower := scanPower_sound w lib hne hnext
            ((scanFraction_token _).trans htok) (stops_dropWhile _ _)
            (fun _ => .fraction hint hfrac)
            (fun exp hexp => by
              rw [List.append_assoc]
              exact .both hint hfrac hexp)
          rw [List.append_assoc, List.append_assoc,
            List.takeWhile_append_dropWhile] at hpower
          exact hpower
  · refine scanPower_sound w lib hne h htok hstops (fun hE' => ?_)
      (fun exp hexp => .exponent hint hexp)
    have hno := mt hE.1 (not_not.2 hE')
    rw [not_or] at hno
    exact absurd ⟨hpoint, hno.1, hno.2⟩ hend

/-- Numbers are all that is read. -/
theorem lexScanNumber_sound (w : Nat) (lib : Doubles ρ)
    (hne : ∀ b, fin ≠ .byte b)
    (h : l.At bytes fin [c]) (hbehind : l.stream.Behind c) :
    (lexScanNumber w lib l c).2.token = .invalid
      ∨ (lexScanNumber w lib l c).2.Read w lib (c :: bytes) fin := by
  obtain ⟨hbad, hgood⟩ := lexScanNumber_int w lib hne h
    hbehind
  by_cases hint : ∃ i, IntText i (intPart (c :: bytes))
  · obtain ⟨i, hint⟩ := hint
    obtain ⟨r, rest, hnext, hsplit, hstops, htok, heq⟩ := hgood i hint
    rw [heq, hsplit]
    exact scanRest_sound hne hnext htok hstops hint
  · exact .inl (hbad (not_exists.1 hint))

/-- The integer with which a number begins is read. -/
theorem lexScanNumber_begins (w : Nat) (lib : Doubles ρ)
    (hne : ∀ b, fin ≠ .byte b)
    (h : l.At bytes fin [c]) (hbehind : l.stream.Behind c)
    (hint : IntText i raw) (hsplit : c :: bytes = raw ++ rest)
    (hstops : Stops isDigit rest) :
    ∃ r, Next true fin rest raw r
      ∧ lexScanNumber w lib l c = scanRest w lib r := by
  have hpart : intPart (c :: bytes) = raw := by
    rw [hsplit]
    exact intPart_append hint hstops
  obtain ⟨-, hgood⟩ := lexScanNumber_int w lib hne h hbehind
  rw [hpart] at hgood
  obtain ⟨r, rest', hnext, hsplit', -, -, heq⟩ := hgood i hint
  rw [hsplit] at hsplit'
  obtain rfl := List.append_cancel_left hsplit'
  exact ⟨r, hnext, heq⟩

/-- A number that goes on with nothing does not go on with a digit. -/
theorem stops_digit (h : Stops goesOn rest) : Stops isDigit rest :=
  h.mono fun c hc => by simp [goesOn, hc]

/-- Integers are read. -/
theorem lexScanNumber_integer (hne : ∀ b, fin ≠ .byte b)
    (h : l.At bytes fin [c]) (hbehind : l.stream.Behind c)
    (hint : IntText i raw) (hlow : -(2 ^ (w - 1)) ≤ i)
    (hhigh : i < 2 ^ (w - 1))
    (hsplit : c :: bytes = raw ++ rest) (hstops : Stops goesOn rest) :
    (lexScanNumber w lib l c).2.token = .integer i
      ∧ (lexScanNumber w lib l c).2.At rest fin raw := by
  obtain ⟨r, hnext, heq⟩ := lexScanNumber_begins w lib hne h
    hbehind hint hsplit (stops_digit hstops)
  have hend : ∀ b, goesOn b = true → r.1 ≠ .byte b := by
    intro b hb hr
    have hhead := (hnext.eq_byte_iff hne).1 hr
    rw [hstops b hhead] at hb
    cases hb
  rw [heq]
  unfold scanRest
  rw [if_pos ⟨hend _ (by decide), hend _ (by decide), hend _ (by decide)⟩]
  exact (scanInteger_spec w hne hnext).2 i
    (by rw [strtol_int hint, if_pos ⟨hlow, hhigh⟩])

/-- The fraction of a number is read. -/
theorem scanRest_fraction (w : Nat) (lib : Doubles ρ)
    (hne : ∀ b, fin ≠ .byte b) {frac : List UInt8}
    (h : Next true fin (frac ++ rest) saved r) (hfrac : Fraction frac)
    (hstops : Stops isDigit rest) :
    ∃ r', Next true fin rest (saved ++ frac) r'
      ∧ scanRest w lib r = scanPower lib r' := by
  obtain ⟨digits, hdigits, rfl⟩ := hfrac
  rw [List.cons_append] at h
  obtain ⟨hbyte, hat⟩ := h.at
  obtain ⟨htrue, hnext⟩ := (scanFraction_spec hne hat).2
    (by rw [takeWhile_stops hdigits.2 hstops]; exact hdigits.1)
  rw [takeWhile_stops hdigits.2 hstops, dropWhile_stops hdigits.2 hstops,
    if_pos rfl, List.append_assoc] at hnext
  refine ⟨_, hnext, ?_⟩
  unfold scanRest
  rw [if_neg fun hor => hor.1 hbyte, if_pos hbyte]
  dsimp only
  rw [if_neg (by rw [htrue]; decide)]

/-- A fraction ends where the exponent begins. -/
theorem stops_fraction (hexp : Exponent exp) : Stops isDigit (exp ++ rest) := by
  obtain ⟨e, sign, digits, he, -, -, rfl⟩ := hexp
  rintro c ⟨⟩
  rcases he with rfl | rfl
  · decide
  · decide

/-- Real numbers are read. -/
theorem lexScanNumber_real (hne : ∀ b, fin ≠ .byte b)
    (h : l.At bytes fin [c]) (hbehind : l.stream.Behind c) {power : Bool}
    (hreal : RealText raw power) (hd : lib.strtod raw = some d)
    (hsplit : c :: bytes = raw ++ rest)
    (hstops : Stops (if power then isDigit else fractionGoesOn) rest) :
    (lexScanNumber w lib l c).2.token = .real d
      ∧ (lexScanNumber w lib l c).2.At rest fin raw := by
  -- the text has a fraction, an exponent or both
  cases hreal with
  | @fraction i int frac hint hfrac =>
      rw [List.append_assoc] at hsplit
      have hdigit : Stops isDigit rest :=
        Stops.mono hstops fun c hc => by simp [fractionGoesOn, hc]
      have hE : Stops isE rest := Stops.mono hstops fun c hc => by
        simp only [isE, decide_eq_true_eq] at hc
        simp [fractionGoesOn, hc]
      have hpoint : Stops isDigit (frac ++ rest) := by
        obtain ⟨digits, -, rfl⟩ := hfrac
        rintro c ⟨⟩
        decide
      obtain ⟨r, hnext, heq⟩ := lexScanNumber_begins w lib
        hne h hbehind hint hsplit hpoint
      obtain ⟨r', hnext', heq'⟩ := scanRest_fraction w lib
        hne hnext hfrac hdigit
      rw [heq, heq', scanPower_stops hne hnext' hE]
      exact (scanReal_spec lib hne hnext').2 d hd
  | @exponent i int exp hint hexp =>
      rw [List.append_assoc] at hsplit
      obtain ⟨r, hnext, heq⟩ := lexScanNumber_begins w lib
        hne h hbehind hint hsplit (stops_fraction hexp)
      have hrest : scanRest w lib r = scanPower lib r := by
        obtain ⟨e, sign, digits, he, -, -, rfl⟩ := hexp
        obtain ⟨hbyte, -⟩ := hnext.at
        unfold scanRest
        rw [hbyte]
        rcases he with rfl | rfl
        · rfl
        · rfl
      rw [heq, hrest]
      exact scanPower_exponent hne hnext hexp hstops hd
  | @both i int frac exp hint hfrac hexp =>
      rw [List.append_assoc, List.append_assoc] at hsplit
      have hpoint : Stops isDigit (frac ++ (exp ++ rest)) := by
        obtain ⟨digits, -, rfl⟩ := hfrac
        rintro c ⟨⟩
        decide
      obtain ⟨r, hnext, heq⟩ := lexScanNumber_begins w lib
        hne h hbehind hint hsplit hpoint
      obtain ⟨r', hnext', heq'⟩ := scanRest_fraction w lib
        hne hnext hfrac (stops_fraction hexp)
      rw [heq, heq', ← List.append_assoc]
      exact scanPower_exponent hne hnext' hexp hstops
        (by rw [List.append_assoc]; exact hd)

end Reals

end ProjectsLibs.Jansson
