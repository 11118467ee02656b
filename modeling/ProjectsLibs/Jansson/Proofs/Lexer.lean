/-
`lex_scan` reads the tokens of the format.

`lexScan_sound` says what a token that has been read stands for in the
text, and `lexScan_lexeme` that the next token of a text is read; `Lexes`
is then followed token by token.

# One token

Behind the blanks the first byte decides which kind of token there is: a
bracket or another mark, a string, a number, a name, or nothing that the
format knows. `lexToken` is what `lex_scan` does from there, and it has a
lemma in each direction. Soundness is a case split over its branches; the
string and number branches are those of Strings and Numbers. Completeness
is a case split over the tokens of the format, and each case has to show
that its first byte leads to the right branch (`number_byte`,
`lexeme_head`).

The text of a token is kept by the analyzer as well, and later modules
need it for names and numbers only, so `Lex.Scanned` speaks of the token
and of what is left of the text.
-/
import Mathlib.Data.List.TakeWhile
import ProjectsLibs.Jansson.Proofs.Strings

namespace ProjectsLibs.Jansson

open Lib

variable {ρ : Type} {w : Nat} {lib : Doubles ρ} {l : Lex ρ}
  {r : Got × Lex ρ} {bytes blank text rest raw saved : List UInt8} {fin : Got}
  {t : Token ρ}

-- ==================================================================== names

/-- Letters are no null bytes. -/
theorem takeWhile_alpha {name : List UInt8}
    (h : ∀ c ∈ name, isAlpha c = true) :
    name.takeWhile (· ≠ 0) = name := by
  refine List.takeWhile_eq_self_iff.2 fun c hc => ?_
  refine decide_eq_true fun hzero => ?_
  have halpha := h c hc
  rw [hzero] at halpha
  revert halpha
  decide

/-- The name that begins with a letter, up to where it ends. -/
theorem name_next (hne : ∀ b, fin ≠ .byte b) {c : UInt8}
    (h : l.At bytes fin [c]) :
    (lexUngetUnsave (lexWhile isAlpha lexGetSave (lexGetSave l).2.left
        (lexGetSave l)).2 (lexWhile isAlpha lexGetSave (lexGetSave l).2.left
        (lexGetSave l)).1).At (bytes.dropWhile isAlpha) fin
      (c :: bytes.takeWhile isAlpha) := by
  have hnext := lexGetSave_next h
  have hwhile := lexWhile_next (p := isAlpha)
    (fun l bytes saved h => lexGetSave_next h) hne hnext hnext.le_left
  rw [if_pos rfl] at hwhile
  exact lexUngetUnsave_at hne hwhile

/-- A name that is known is one of three. -/
theorem nameToken_cases (w : Nat) (lib : Doubles ρ) (name : List UInt8) :
    (nameToken name : Token ρ) = .invalid
      ∨ ∀ rest, Stops isAlpha rest →
        Lexeme w lib (nameToken name) name rest := by
  unfold nameToken
  split_ifs with htrue hfalse hnull
  · subst htrue
    exact .inr fun rest hrest => .true hrest
  · subst hfalse
    exact .inr fun rest hrest => .false hrest
  · subst hnull
    exact .inr fun rest hrest => .null hrest
  · exact .inl rfl

-- =================================================================== tokens

/-- What the analyzer can say of a text: nothing, that it has ended, or its
first token. -/
def Lex.Scanned (w : Nat) (lib : Doubles ρ) (l : Lex ρ) (text : List UInt8)
    (fin : Got) : Prop :=
  l.token = .invalid ∨ (l.token = .eof ∧ text = [] ∧ fin = .eof)
    ∨ l.Read w lib text fin

/-- Blanks are skipped. -/
theorem lexScan_blank (w : Nat) (lib : Doubles ρ)
    (hne : ∀ b, fin ≠ .byte b) (h : l.At bytes fin saved) :
    ∃ r, Next false fin (bytes.dropWhile isBlank) [] r
      ∧ lexScan w lib l = lexToken w lib r := by
  have hat : ({ l with savedText := [] } : Lex ρ).At bytes fin [] :=
    ⟨h.feeds, rfl⟩
  have hnext := streamGet_next hat
  have hwhile := lexWhile_next (p := isBlank)
    (fun l bytes saved h => streamGet_next h) hne hnext hnext.le_left
  exact ⟨_, hwhile, rfl⟩

/-- Saving a byte appends it to the text of the token. -/
theorem lexSave_at {c : UInt8} (h : l.At bytes fin []) :
    (lexSave l c).At bytes fin [c] :=
  ⟨h.feeds, congrArg (· ++ [c]) h.saved⟩

/-- Tokens are all that is read. -/
theorem lexToken_sound (hne : ∀ b, fin ≠ .byte b)
    (h : Next false fin text [] r) :
    (lexToken w lib r).Scanned w lib text fin := by
  unfold lexToken
  cases h with
  | fin hat =>
      cases fin with
      | byte b => exact absurd rfl (hne b)
      | eof => exact .inr (.inl ⟨rfl, rfl, rfl⟩)
      | error => exact .inl rfl
  | @byte c rest _ l hat hbehind =>
      have hsave : (lexSave l c).At rest fin [c] := lexSave_at hat
      dsimp only
      split_ifs with hpunct hquote hnumber halpha
      · exact .inr (.inr ⟨[c], rest, rfl, .char hpunct, hsave.feeds,
          hsave.saved⟩)
      · subst hquote
        rcases lexScanString_sound w lib hne hsave with
          hbad | hread
        · exact .inl hbad
        · exact .inr (.inr hread)
      · rcases lexScanNumber_sound w lib hne hsave hbehind with
          hbad | hread
        · exact .inl hbad
        · exact .inr (.inr hread)
      · have hname := name_next hne hsave
        have hall : ∀ d ∈ c :: rest.takeWhile isAlpha, isAlpha d = true :=
          List.forall_mem_cons.2
            ⟨halpha, List.all_eq_true.1 List.all_takeWhile⟩
        rw [hname.saved, takeWhile_alpha hall]
        rcases nameToken_cases w lib
          (c :: rest.takeWhile isAlpha) with hbad | hgood
        · exact .inl hbad
        · refine .inr (.inr ⟨c :: rest.takeWhile isAlpha,
            rest.dropWhile isAlpha, ?_, hgood _ (stops_dropWhile _ _),
            hname.feeds, rfl⟩)
          rw [List.cons_append, List.takeWhile_append_dropWhile]
      · exact .inl rfl

/-- What `lex_scan` says of a text, behind its blanks. -/
theorem lexScan_sound (w : Nat) (lib : Doubles ρ)
    (hne : ∀ b, fin ≠ .byte b) (h : l.At bytes fin saved) :
    ∃ blank text, bytes = blank ++ text ∧ Blank blank
      ∧ (lexScan w lib l).Scanned w lib text fin := by
  obtain ⟨r, hnext, heq⟩ := lexScan_blank w lib hne h
  refine ⟨bytes.takeWhile isBlank, _,
    List.takeWhile_append_dropWhile.symm,
    List.all_eq_true.1 List.all_takeWhile, ?_⟩
  rw [heq]
  exact lexToken_sound hne hnext

/-- The first byte of an integer. -/
theorem intText_head {i : Int} (h : IntText i raw) :
    ∃ c more, raw = c :: more ∧ (isDigit c = true ∨ c = 0x2d) := by
  cases h with
  | pos hint =>
      obtain ⟨c, more, rfl⟩ := List.exists_cons_of_ne_nil hint.1.1
      exact ⟨c, more, rfl, .inl (hint.1.2 c (List.mem_cons_self ..))⟩
  | neg hint => exact ⟨_, _, rfl, .inr rfl⟩

/-- A real number begins with a digit or the minus sign. -/
theorem realText_head {power : Bool} (h : RealText raw power) :
    ∃ c more, raw = c :: more ∧ (isDigit c = true ∨ c = 0x2d) := by
  cases h with
  | fraction hint _ =>
      obtain ⟨c, more, rfl, hc⟩ := intText_head hint
      exact ⟨c, _, rfl, hc⟩
  | exponent hint _ =>
      obtain ⟨c, more, rfl, hc⟩ := intText_head hint
      exact ⟨c, _, rfl, hc⟩
  | both hint _ _ =>
      obtain ⟨c, more, rfl, hc⟩ := intText_head hint
      exact ⟨c, _, rfl, hc⟩

/-- A byte that begins a number begins nothing else. -/
theorem number_byte {c : UInt8} (h : isDigit c = true ∨ c = 0x2d) :
    isPunctuation c = false ∧ c ≠ 0x22 ∧ isBlank c = false
      ∧ isAlpha c = false := by
  have hrange : 0x2d ≤ c.toNat ∧ c.toNat ≤ 0x39 := by
    rcases h with h | rfl
    · have := (isDigit_iff c).1 h
      omega
    · decide
  have hfin : ∀ n : Fin 0x3a, 0x2d ≤ n.val → n.val ≠ 0x2e →
      n.val ≠ 0x2f →
      isPunctuation (UInt8.ofNat n) = false ∧ UInt8.ofNat n ≠ 0x22
        ∧ isBlank (UInt8.ofNat n) = false
        ∧ isAlpha (UInt8.ofNat n) = false := by
    decide
  have hne : c.toNat ≠ 0x2e ∧ c.toNat ≠ 0x2f := by
    rcases h with h | rfl
    · have := (isDigit_iff c).1 h
      omega
    · decide
  have hc := hfin ⟨c.toNat, by omega⟩ hrange.1 hne.1 hne.2
  rwa [UInt8.ofNat_toNat] at hc

/-- No token begins with a blank. -/
theorem lexeme_head (h : Lexeme w lib t raw rest) :
    ∃ c more, raw = c :: more ∧ isBlank c = false := by
  cases h with
  | @char c _ hpunct =>
      refine ⟨c, [], rfl, Bool.eq_false_iff.2 fun hblank => ?_⟩
      unfold isBlank at hblank
      simp only [decide_eq_true_eq] at hblank
      rcases hblank with rfl | rfl | rfl | rfl
      all_goals exact absurd hpunct (by decide)
  | string _ => exact ⟨_, _, rfl, by decide⟩
  | integer hint _ _ _ =>
      obtain ⟨c, more, rfl, hc⟩ := intText_head hint
      exact ⟨c, more, rfl, (number_byte hc).2.2.1⟩
  | fraction hreal _ _ =>
      obtain ⟨c, more, rfl, hc⟩ := realText_head hreal
      exact ⟨c, more, rfl, (number_byte hc).2.2.1⟩
  | exponent hreal _ _ =>
      obtain ⟨c, more, rfl, hc⟩ := realText_head hreal
      exact ⟨c, more, rfl, (number_byte hc).2.2.1⟩
  | true _ => exact ⟨_, _, rfl, by decide⟩
  | false _ => exact ⟨_, _, rfl, by decide⟩
  | null _ => exact ⟨_, _, rfl, by decide⟩

/-- A number is read where it begins. -/
theorem lexToken_number {c : UInt8} (hc : isDigit c = true ∨ c = 0x2d) :
    lexToken w lib (.byte c, l)
      = (lexScanNumber w lib (lexSave l c) c).2 := by
  obtain ⟨hpunct, hquote, -, -⟩ := number_byte hc
  unfold lexToken
  dsimp only
  rw [if_neg (by rw [hpunct]; decide), if_neg hquote, if_pos hc]

/-- A name is read where it begins. -/
theorem lexToken_name (hne : ∀ b, fin ≠ .byte b) {c : UInt8}
    {more : List UInt8} (hat : l.At (more ++ rest) fin [])
    (hall : ∀ d ∈ c :: more, isAlpha d = true) (hstops : Stops isAlpha rest)
    (hplain : isPunctuation c = false ∧ c ≠ 0x22
      ∧ ¬ (isDigit c = true ∨ c = 0x2d)) :
    (lexToken w lib (.byte c, l)).token = nameToken (c :: more)
      ∧ (lexToken w lib (.byte c, l)).At rest fin (c :: more) := by
  obtain ⟨hc, hmore⟩ := List.forall_mem_cons.1 hall
  have hname := name_next hne (lexSave_at (c := c) hat)
  rw [takeWhile_stops hmore hstops, dropWhile_stops hmore hstops] at hname
  unfold lexToken
  dsimp only
  rw [if_neg (by rw [hplain.1]; decide), if_neg hplain.2.1,
    if_neg hplain.2.2, if_pos hc, hname.saved, takeWhile_alpha hall]
  exact ⟨rfl, hname.feeds, rfl⟩

/-- The next token of a text is read. -/
theorem lexToken_lexeme (hne : ∀ b, fin ≠ .byte b)
    (hlexeme : Lexeme w lib t raw rest)
    (h : Next false fin (raw ++ rest) [] r) :
    (lexToken w lib r).token = t ∧ (lexToken w lib r).At rest fin raw := by
  -- the first byte decides which scanner is called
  cases hlexeme with
  | @char c _ hpunct =>
      cases h with
      | byte hat _ =>
          have hsave := lexSave_at (c := c) hat
          unfold lexToken
          dsimp only
          rw [if_pos hpunct]
          exact ⟨rfl, hsave.feeds, hsave.saved⟩
  | @string value raw _ hchars =>
      rw [List.cons_append, List.append_assoc] at h
      cases h with
      | byte hat _ =>
          unfold lexToken
          dsimp only
          rw [if_neg (by decide), if_pos rfl]
          exact lexScanString_chars hchars (lexSave_at hat)
  | integer hint hlow hhigh hstops =>
      obtain ⟨c, more, rfl, hc⟩ := intText_head hint
      cases h with
      | byte hat hbehind =>
          rw [lexToken_number hc]
          exact lexScanNumber_integer hne (lexSave_at hat) hbehind hint hlow
            hhigh rfl hstops
  | fraction hreal hd hstops =>
      obtain ⟨c, more, rfl, hc⟩ := realText_head hreal
      cases h with
      | byte hat hbehind =>
          rw [lexToken_number hc]
          exact lexScanNumber_real hne (lexSave_at hat) hbehind hreal hd rfl
            hstops
  | exponent hreal hd hstops =>
      obtain ⟨c, more, rfl, hc⟩ := realText_head hreal
      cases h with
      | byte hat hbehind =>
          rw [lexToken_number hc]
          exact lexScanNumber_real hne (lexSave_at hat) hbehind hreal hd rfl
            hstops
  | true hstops =>
      cases h with
      | byte hat _ =>
          exact lexToken_name hne hat (List.all_eq_true.1 (by decide)) hstops
            (by decide)
  | false hstops =>
      cases h with
      | byte hat _ =>
          exact lexToken_name hne hat (List.all_eq_true.1 (by decide)) hstops
            (by decide)
  | null hstops =>
      cases h with
      | byte hat _ =>
          exact lexToken_name hne hat (List.all_eq_true.1 (by decide)) hstops
            (by decide)

/-- The next token of a text is read behind its blanks. -/
theorem lexScan_lexeme (hne : ∀ b, fin ≠ .byte b) (hblank : Blank blank)
    (hlexeme : Lexeme w lib t raw rest)
    (h : l.At (blank ++ (raw ++ rest)) fin saved) :
    (lexScan w lib l).token = t ∧ (lexScan w lib l).At rest fin raw := by
  obtain ⟨r, hnext, heq⟩ := lexScan_blank w lib hne h
  have hstops : Stops isBlank (raw ++ rest) := by
    obtain ⟨c, more, rfl, hc⟩ := lexeme_head hlexeme
    rintro d ⟨⟩
    exact hc
  rw [dropWhile_stops hblank hstops] at hnext
  rw [heq]
  exact lexToken_lexeme hne hlexeme hnext

/-- At the end of a text there are no more tokens. -/
theorem lexScan_eof (hne : ∀ b, Got.eof ≠ .byte b) (hblank : Blank bytes)
    (h : l.At bytes .eof saved) : (lexScan w lib l).token = .eof := by
  obtain ⟨r, hnext, heq⟩ := lexScan_blank w lib hne h
  rw [List.dropWhile_eq_nil_iff.2 hblank] at hnext
  rw [heq]
  cases hnext with
  | fin hat => rfl

end ProjectsLibs.Jansson
