/-
`json_loads` accepts the texts of values, and builds what they say.

`Before` is all that the parser needs to know of the analyzer: the text that
comes behind the token it has read. What each function of the parser does is
said once (`parseValue_iff`, `parseMembers_iff`, `parseElements_iff`);
`parse_sound` and `parse_complete` follow these by induction on the number
of calls, and `loads_iff` puts them together.

# How the parser is followed

The three functions call each other with a bound on the depth. The lemmas
with `iff` say what one call does, given what the calls in it do, and
take the place of the definitions from there on; `Parsed` lists the cases
of `parse_value`. Each value, and each list of members or elements, has a
text as a sequence of tokens, and the relation between tokens and bytes is
that of the analyzer (`Lexes`).

Soundness and completeness are statements about all three functions
together. Soundness says which value has been built and that its tokens
are those that were taken; completeness is given the value with its
tokens and shows that the calls succeed, where the flags on duplicate
keys, on the kind of the outermost value and on null bytes allow it.
-/
import ProjectsLibs.Jansson.Proofs.Lexer

namespace ProjectsLibs.Jansson

open Lib

variable {ρ : Type} {w : Nat} {lib : Doubles ρ} {flags : LoadFlags}
  {fin : Got} {bytes rest : List UInt8} {t tok : Token ρ}
  {ts us : List (Token ρ)} {l l' : Lex ρ} {v : Json ρ} {n : Nat}

-- ==================================================================== tokens

/-- The analyzer is before `bytes`. -/
def Lex.Before (l : Lex ρ) (bytes : List UInt8) (fin : Got) : Prop :=
  ∃ saved, l.At bytes fin saved

/-- Tokens are read one after the other. -/
theorem lexes_append {b : List UInt8} :
    Lexes w lib (ts ++ us) bytes b
      ↔ ∃ a, Lexes w lib ts bytes a ∧ Lexes w lib us a b := by
  constructor
  · intro h
    induction ts generalizing bytes with
    | nil => exact ⟨bytes, .nil, h⟩
    | cons t ts ih =>
        rw [List.cons_append] at h
        cases h with
        | cons hblank hlexeme hmore =>
            obtain ⟨a, hts, hus⟩ := ih hmore
            exact ⟨a, .cons hblank hlexeme hts, hus⟩
  · rintro ⟨a, hts, hus⟩
    induction hts with
    | nil => exact hus
    | cons hblank hlexeme _ ih => exact .cons hblank hlexeme (ih hus)

/-- A token that has been read comes next in the text. -/
theorem lexScan_before (h : l.Before bytes fin)
    (htok : (lexScan w lib l).token = tok) (hbad : tok ≠ .invalid)
    (heof : tok ≠ .eof) :
    ∃ more, (lexScan w lib l).Before more fin
      ∧ ∀ {ts b}, Lexes w lib ts more b →
        Lexes w lib (tok :: ts) bytes b := by
  obtain ⟨saved, h⟩ := h
  obtain ⟨blank, text, rfl, hblank, hscanned⟩ :=
    lexScan_sound w lib h.feeds.fin_ne h
  subst htok
  rcases hscanned with hinvalid | ⟨hend, -⟩ |
    ⟨raw, more, rfl, hlexeme, hat⟩
  · exact absurd hinvalid hbad
  · exact absurd hend heof
  · exact ⟨more, ⟨raw, hat⟩, fun hts => .cons hblank hlexeme hts⟩

/-- The next token of a text is read. -/
theorem lexScan_lexes (h : l.Before bytes fin)
    (hts : Lexes w lib (tok :: ts) bytes rest) :
    (lexScan w lib l).token = tok
      ∧ ∃ more, (lexScan w lib l).Before more fin
        ∧ Lexes w lib ts more rest := by
  obtain ⟨saved, h⟩ := h
  cases hts with
  | cons hblank hlexeme hmore =>
      obtain ⟨htok, hat⟩ := lexScan_lexeme h.feeds.fin_ne hblank hlexeme h
      exact ⟨htok, _, ⟨_, hat⟩, hmore⟩

/-- The end of the text is only said behind blanks. -/
theorem lexScan_end (h : l.Before bytes fin)
    (htok : (lexScan w lib l).token = .eof) : Blank bytes ∧ fin = .eof := by
  obtain ⟨saved, h⟩ := h
  obtain ⟨blank, text, rfl, hblank, hscanned⟩ :=
    lexScan_sound w lib h.feeds.fin_ne h
  rcases hscanned with hinvalid | ⟨-, rfl, hfin⟩ |
    ⟨raw, more, -, hlexeme, -⟩
  · rw [htok] at hinvalid
    cases hinvalid
  · rw [List.append_nil]
    exact ⟨hblank, hfin⟩
  · rw [htok] at hlexeme
    cases hlexeme

/-- There are no more tokens than bytes. -/
theorem Lexes.length_le (h : Lexes w lib ts bytes rest) :
    ts.length ≤ bytes.length := by
  induction h with
  | nil => exact Nat.zero_le _
  | cons hblank hlexeme _ ih =>
      obtain ⟨c, more, rfl, -⟩ := lexeme_head hlexeme
      simp only [List.length_cons, List.length_append]
      omega

/-- The first token of a value. -/
theorem tokensOf_head (j : Json ρ) : ∃ tok ts, tokensOf j = tok :: ts
    ∧ tok ≠ .invalid ∧ tok ≠ .eof ∧ tok ≠ .char 0x5d
    ∧ (beginsContainer tok = true ↔ IsContainer j) := by
  cases j with
  | object members =>
      cases members with
      | nil => exact ⟨_, _, rfl, nofun, nofun, nofun, by
        simp [beginsContainer, IsContainer]⟩
      | cons m members => exact ⟨_, _, rfl, nofun, nofun, nofun, by
        simp [beginsContainer, IsContainer]⟩
  | array elements =>
      cases elements with
      | nil => exact ⟨_, _, rfl, nofun, nofun, nofun, by
        simp [beginsContainer, IsContainer]⟩
      | cons e elements => exact ⟨_, _, rfl, nofun, nofun, nofun, by
        simp [beginsContainer, IsContainer]⟩
  | string value =>
      exact ⟨_, _, rfl, nofun, nofun, nofun, by
        simp [beginsContainer, IsContainer]⟩
  | integer value =>
      exact ⟨_, _, rfl, nofun, nofun, nofun, by
        simp [beginsContainer, IsContainer]⟩
  | real value =>
      exact ⟨_, _, rfl, nofun, nofun, nofun, by
        simp [beginsContainer, IsContainer]⟩
  | true =>
      exact ⟨_, _, rfl, nofun, nofun, nofun, by
        simp [beginsContainer, IsContainer]⟩
  | false =>
      exact ⟨_, _, rfl, nofun, nofun, nofun, by
        simp [beginsContainer, IsContainer]⟩
  | null =>
      exact ⟨_, _, rfl, nofun, nofun, nofun, by
        simp [beginsContainer, IsContainer]⟩

-- ================================================================ the members

section Members

variable {members : Members ρ} {key k : List UInt8} {value : Json ρ}
  {ms : List (List UInt8 × Json ρ)}

/-- A key that is not found is not among the members. -/
theorem objectGet_none :
    objectGet members key = none ↔ key ∉ members.map Prod.fst := by
  unfold objectGet
  simp only [Option.map_eq_none_iff, List.find?_eq_none, List.mem_map,
    beq_iff_eq, not_exists, not_and]

/-- The keys after a member has been set. -/
theorem mem_objectSet : k ∈ (objectSet members key value).map Prod.fst
    ↔ k ∈ members.map Prod.fst ∨ k = key := by
  unfold objectSet
  split_ifs with hany
  · obtain ⟨m, hm, heq⟩ := List.any_eq_true.1 hany
    have hkey : m.1 = key := beq_iff_eq.1 heq
    simp only [List.mem_map]
    constructor
    · rintro ⟨m', ⟨m, hm, rfl⟩, rfl⟩
      split_ifs with hsame
      · exact .inr rfl
      · exact .inl ⟨m, hm, rfl⟩
    · rintro (⟨m, hm, rfl⟩ | rfl)
      · refine ⟨_, ⟨m, hm, rfl⟩, ?_⟩
        split_ifs with hsame
        · exact (beq_iff_eq.1 hsame).symm
        · rfl
      · refine ⟨_, ⟨m, hm, rfl⟩, ?_⟩
        rw [if_pos heq]
  · simp

/-- What the decoder does not refuse of the members that come behind
others. -/
def AllowedIn (flags : LoadFlags) (members : Members ρ)
    (ms : List (List UInt8 × Json ρ)) : Prop :=
  (∀ m ∈ ms, 0 ∉ m.1)
    ∧ (flags.rejectDuplicates = true →
      (∀ m ∈ ms, m.1 ∉ members.map Prod.fst) ∧ (ms.map Prod.fst).Nodup)
    ∧ AllowedMembers flags ms

/-- In an empty object all that counts is what is allowed of the members. -/
theorem allowedIn_nil : AllowedIn flags [] ms
    ↔ Allowed flags (.object ms) := by
  simp [AllowedIn, Allowed]

/-- A member is allowed if its key is new where that is asked for, its
value is allowed, and so are those behind it. -/
theorem allowedIn_cons (value : Json ρ) {j : Json ρ} :
    AllowedIn flags members ((key, j) :: ms)
      ↔ (0 ∉ key ∧ (flags.rejectDuplicates = true →
          objectGet members key = none))
        ∧ Allowed flags j
        ∧ AllowedIn flags (objectSet members key value) ms := by
  unfold AllowedIn
  simp only [List.forall_mem_cons, List.map_cons, List.nodup_cons,
    AllowedMembers, objectGet_none, mem_objectSet, not_or]
  constructor
  · rintro ⟨⟨hkey, hkeys⟩, hdup, hj, hms⟩
    refine ⟨⟨hkey, fun hreject => (hdup hreject).1.1⟩, hj, hkeys,
      fun hreject => ?_, hms⟩
    obtain ⟨⟨-, hfresh⟩, hnot, hnodup⟩ := hdup hreject
    refine ⟨fun m hm => ⟨hfresh m hm, fun heq => hnot ?_⟩, hnodup⟩
    exact heq ▸ List.mem_map_of_mem hm
  · rintro ⟨⟨hkey, hnone⟩, hj, hkeys, hdup, hms⟩
    refine ⟨⟨hkey, hkeys⟩, fun hreject => ?_, hj, hms⟩
    obtain ⟨hfresh, hnodup⟩ := hdup hreject
    refine ⟨⟨hnone hreject, fun m hm => (hfresh m hm).1⟩, fun hmem => ?_,
      hnodup⟩
    obtain ⟨m, hm, heq⟩ := List.mem_map.1 hmem
    exact (hfresh m hm).2 heq

end Members

-- ================================================================ the parser

section Inversion

variable {members : Members ρ} {elements : List (Json ρ)}

/-- What `parse_object` has done behind a key. -/
theorem parseMembers_iff :
    parseMembers w lib flags (n + 1) members l = (some v, l')
      ↔ ∃ key value lv, l.token = .string key ∧ 0 ∉ key
        ∧ (flags.rejectDuplicates = true → objectGet members key = none)
        ∧ (lexScan w lib l).token = .char 0x3a
        ∧ parseValue w lib flags n (lexScan w lib (lexScan w lib l))
          = (some value, lv)
        ∧ (((lexScan w lib lv).token = .char 0x2c
            ∧ parseMembers w lib flags n (objectSet members key value)
              (lexScan w lib (lexScan w lib lv)) = (some v, l'))
          ∨ ((lexScan w lib lv).token = .char 0x7d
            ∧ v = .object (objectSet members key value)
            ∧ l' = lexScan w lib lv)) := by
  rw [parseMembers]
  constructor
  · intro h
    split at h
    · rename_i key hkey
      split_ifs at h with hnull hdup
      · cases h
      · cases h
      · dsimp only at h
        split at h
        · rename_i hcolon
          split at h
          · cases h
          · rename_i value lv hvalue
            refine ⟨key, value, lv, hkey, hnull, fun hreject => ?_, hcolon,
              hvalue, ?_⟩
            · have := fun hsome => hdup ⟨hreject, hsome⟩
              exact Option.not_isSome_iff_eq_none.1 this
            · split at h
              · rename_i hcomma
                exact .inl ⟨hcomma, h⟩
              · rename_i hend
                cases h
                exact .inr ⟨hend, rfl, rfl⟩
              · cases h
        · cases h
    · cases h
  · rintro ⟨key, value, lv, hkey, hnull, hdup, hcolon, hvalue, hrest⟩
    -- the key is not refused as a duplicate
    have hfresh : ¬ (flags.rejectDuplicates = true
        ∧ (objectGet members key).isSome = true) := by
      rintro ⟨hreject, hsome⟩
      rw [hdup hreject] at hsome
      cases hsome
    simp only [hkey, if_neg hnull, if_neg hfresh, hcolon, hvalue]
    rcases hrest with ⟨hcomma, hmore⟩ | ⟨hend, rfl, rfl⟩
    · simp only [hcomma]
      exact hmore
    · simp only [hend]

/-- What `parse_array` has done. -/
theorem parseElements_iff :
    parseElements w lib flags (n + 1) elements l = (some v, l')
      ↔ l.token ≠ .eof ∧ ∃ elem lv,
        parseValue w lib flags n l = (some elem, lv)
        ∧ (((lexScan w lib lv).token = .char 0x2c
            ∧ parseElements w lib flags n (elements ++ [elem])
              (lexScan w lib (lexScan w lib lv)) = (some v, l'))
          ∨ ((lexScan w lib lv).token = .char 0x5d
            ∧ v = .array (elements ++ [elem])
            ∧ l' = lexScan w lib lv)) := by
  rw [parseElements]
  constructor
  · intro h
    split at h
    · cases h
    · rename_i heof
      split at h
      · cases h
      · rename_i elem lv hvalue
        dsimp only at h
        refine ⟨heof, elem, lv, hvalue, ?_⟩
        split at h
        · rename_i hcomma
          exact .inl ⟨hcomma, h⟩
        · rename_i hend
          cases h
          exact .inr ⟨hend, rfl, rfl⟩
        · cases h
  · rintro ⟨heof, elem, lv, hvalue, hrest⟩
    split
    · exact absurd ‹_› heof
    · rcases hrest with ⟨hcomma, hmore⟩ | ⟨hend, rfl, rfl⟩
      · simp only [hvalue, hcomma]
        exact hmore
      · simp only [hvalue, hend]

/-- What `parse_value` has done. -/
inductive Parsed (w : Nat) (lib : Doubles ρ) (flags : LoadFlags) (n : Nat)
    (l : Lex ρ) : Json ρ → Lex ρ → Prop
  | string {value : List UInt8} : l.token = .string value →
      (flags.allowNul = Bool.true ∨ 0 ∉ value) →
      Parsed w lib flags n l (.string value) l
  | integer {value : Int} : l.token = .integer value →
      Parsed w lib flags n l (.integer value) l
  | real {value : ρ} : l.token = .real value →
      Parsed w lib flags n l (.real value) l
  | true : l.token = .true → Parsed w lib flags n l .true l
  | false : l.token = .false → Parsed w lib flags n l .false l
  | null : l.token = .null → Parsed w lib flags n l .null l
  | empty : l.token = .char 0x7b → (lexScan w lib l).token = .char 0x7d →
      Parsed w lib flags n l (.object []) (lexScan w lib l)
  | members {v : Json ρ} {l' : Lex ρ} : l.token = .char 0x7b →
      (lexScan w lib l).token ≠ .char 0x7d →
      parseMembers w lib flags n [] (lexScan w lib l) = (some v, l') →
      Parsed w lib flags n l v l'
  | none : l.token = .char 0x5b → (lexScan w lib l).token = .char 0x5d →
      Parsed w lib flags n l (.array []) (lexScan w lib l)
  | elements {v : Json ρ} {l' : Lex ρ} : l.token = .char 0x5b →
      (lexScan w lib l).token ≠ .char 0x5d →
      parseElements w lib flags n [] (lexScan w lib l) = (some v, l') →
      Parsed w lib flags n l v l'

/-- When the parser returns a value: one case for each kind of value, as in
`Parsed`. -/
theorem parseValue_iff (hreal : flags.decodeIntAsReal = false) :
    parseValue w lib flags (n + 1) l = (some v, l')
      ↔ Parsed w lib flags n l v l' := by
  rw [parseValue]
  constructor
  · intro h
    split at h
    -- read each branch of the parser back as a case
    · rename_i value hvalue
      split_ifs at h with hnull
      · cases h
      · cases h
        have hallow : flags.allowNul = Bool.true ∨ 0 ∉ value := by
          by_contra hno
          rw [not_or, Bool.not_eq_true, not_not] at hno
          exact hnull hno
        exact .string hvalue hallow
    · rename_i value hvalue
      rw [hreal, if_neg (by decide)] at h
      cases h
      exact .integer hvalue
    · rename_i value hvalue
      cases h
      exact .real hvalue
    · rename_i hvalue
      cases h
      exact .true hvalue
    · rename_i hvalue
      cases h
      exact .false hvalue
    · rename_i hvalue
      cases h
      exact .null hvalue
    · rename_i hvalue
      dsimp only at h
      split at h
      · rename_i hend
        cases h
        exact .empty hvalue hend
      · rename_i hmore
        exact .members hvalue hmore h
    · rename_i hvalue
      dsimp only at h
      split at h
      · rename_i hend
        cases h
        exact .none hvalue hend
      · rename_i hmore
        exact .elements hvalue hmore h
    · cases h
    · cases h
  · intro h
    cases h with
    | @string value htok hnull =>
        have hallow : ¬ (flags.allowNul = Bool.false ∧ 0 ∈ value) := by
          rintro ⟨hno, hmem⟩
          rcases hnull with hyes | hnot
          · rw [hno] at hyes
            cases hyes
          · exact hnot hmem
        simp only [htok, if_neg hallow]
    | integer htok => simp only [htok, hreal, if_neg Bool.false_ne_true]
    | real htok => simp only [htok]
    | true htok => simp only [htok]
    | false htok => simp only [htok]
    | null htok => simp only [htok]
    | empty htok hend => simp only [htok, hend]
    | members htok hmore heq =>
        simp only [htok]
        exact heq
    | none htok hend => simp only [htok, hend]
    | elements htok hmore heq =>
        simp only [htok]
        exact heq

/-- The parser goes on from tokens only. -/
theorem parseValue_token (hreal : flags.decodeIntAsReal = false)
    (h : parseValue w lib flags n l = (some v, l')) :
    l.token ≠ .invalid ∧ l.token ≠ .eof := by
  cases n with
  | zero =>
      rw [parseValue] at h
      cases h
  | succ n =>
      cases (parseValue_iff hreal).1 h with
      | string htok _ => rw [htok]; exact ⟨nofun, nofun⟩
      | integer htok => rw [htok]; exact ⟨nofun, nofun⟩
      | real htok => rw [htok]; exact ⟨nofun, nofun⟩
      | true htok => rw [htok]; exact ⟨nofun, nofun⟩
      | false htok => rw [htok]; exact ⟨nofun, nofun⟩
      | null htok => rw [htok]; exact ⟨nofun, nofun⟩
      | empty htok _ => rw [htok]; exact ⟨nofun, nofun⟩
      | members htok _ _ => rw [htok]; exact ⟨nofun, nofun⟩
      | none htok _ => rw [htok]; exact ⟨nofun, nofun⟩
      | elements htok _ _ => rw [htok]; exact ⟨nofun, nofun⟩

/-- Members begin with a token, neither an error nor the end. -/
theorem parseMembers_token
    (h : parseMembers w lib flags n members l = (some v, l')) :
    l.token ≠ .invalid ∧ l.token ≠ .eof := by
  cases n with
  | zero =>
      rw [parseMembers] at h
      cases h
  | succ n =>
      obtain ⟨key, value, lv, hkey, -⟩ := parseMembers_iff.1 h
      rw [hkey]
      exact ⟨nofun, nofun⟩

theorem parseElements_token (hreal : flags.decodeIntAsReal = false)
    (h : parseElements w lib flags n elements l = (some v, l')) :
    l.token ≠ .invalid ∧ l.token ≠ .eof := by
  cases n with
  | zero =>
      rw [parseElements] at h
      cases h
  | succ n =>
      obtain ⟨-, elem, lv, hvalue, -⟩ := parseElements_iff.1 h
      exact parseValue_token hreal hvalue

end Inversion

section Whole

variable {members : Members ρ} {elements : List (Json ρ)}
  {key : List UInt8} {j : Json ρ} {ms : List (List UInt8 × Json ρ)}
  {js : List (Json ρ)}

/-- The tokens that an object has behind its first key. -/
abbrev behindKey (j : Json ρ) (ms : List (List UInt8 × Json ρ)) :
    List (Token ρ) :=
  .char 0x3a :: (tokensOf j ++ memberTokens ms)

/-- The tokens of an object with members. -/
theorem tokensOf_object (key : List UInt8) (j : Json ρ)
    (ms : List (List UInt8 × Json ρ)) :
    tokensOf (.object ((key, j) :: ms))
      = .char 0x7b :: .string key :: behindKey j ms := by
  rw [tokensOf]

theorem tokensOf_array (j : Json ρ) (js : List (Json ρ)) :
    tokensOf (.array (j :: js))
      = .char 0x5b :: (tokensOf j ++ elementTokens js) := by
  rw [tokensOf]

/-- What `parse_value` has read. -/
structure ReadValue (w : Nat) (lib : Doubles ρ) (flags : LoadFlags)
    (fin : Got) (first : Token ρ) (bytes : List UInt8) (v : Json ρ)
    (l' : Lex ρ) : Prop where
  exists_value : ∃ j ts rest, tokensOf j = first :: ts
    ∧ Lexes w lib ts bytes rest ∧ l'.Before rest fin ∧ Allowed flags j
    ∧ v = build j

/-- What `parse_object` has read. -/
structure ReadMembers (w : Nat) (lib : Doubles ρ) (flags : LoadFlags)
    (fin : Got) (first : Token ρ) (members : Members ρ) (bytes : List UInt8)
    (v : Json ρ) (l' : Lex ρ) : Prop where
  exists_members : ∃ key j ms rest, first = .string key
    ∧ Lexes w lib (behindKey j ms) bytes rest ∧ l'.Before rest fin
    ∧ AllowedIn flags members ((key, j) :: ms)
    ∧ v = .object (buildMembers members ((key, j) :: ms))

/-- What `parse_array` has read. -/
structure ReadElements (w : Nat) (lib : Doubles ρ) (flags : LoadFlags)
    (fin : Got) (first : Token ρ) (elements : List (Json ρ))
    (bytes : List UInt8) (v : Json ρ) (l' : Lex ρ) : Prop where
  exists_elements : ∃ j ts js rest, tokensOf j = first :: ts
    ∧ Lexes w lib (ts ++ elementTokens js) bytes rest ∧ l'.Before rest fin
    ∧ AllowedElements flags (j :: js)
    ∧ v = .array (elements ++ buildElements (j :: js))

/-- The parser reads the tokens of values. -/
theorem parse_sound (hreal : flags.decodeIntAsReal = false) (n : Nat) :
    (∀ l bytes v l', l.Before bytes fin →
        parseValue w lib flags n l = (some v, l') →
        ReadValue w lib flags fin l.token bytes v l')
      ∧ (∀ members l bytes v l', l.Before bytes fin →
        parseMembers w lib flags n members l = (some v, l') →
        ReadMembers w lib flags fin l.token members bytes v l')
      ∧ ∀ elements l bytes v l', l.Before bytes fin →
        parseElements w lib flags n elements l = (some v, l') →
        ReadElements w lib flags fin l.token elements bytes v l' := by
  -- the three parsers call each other with less fuel, so all are treated
  -- in one induction
  induction n with
  | zero =>
      refine ⟨fun l bytes v l' _ h => ?_, fun members l bytes v l' _ h => ?_,
        fun elements l bytes v l' _ h => ?_⟩
      · rw [parseValue] at h
        cases h
      · rw [parseMembers] at h
        cases h
      · rw [parseElements] at h
        cases h
  | succ n ih =>
      obtain ⟨ihValue, ihMembers, ihElements⟩ := ih
      refine ⟨fun l bytes v l' hl h => ?_, fun members l bytes v l' hl h =>
        ?_, fun elements l bytes v l' hl h => ?_⟩
      -- `parse_value`: a scalar is one token; an object or an array goes
      -- on with its members or elements
      · cases (parseValue_iff hreal).1 h with
        | @string value htok hnull =>
            refine ⟨.string value, [], bytes, ?_, .nil, hl, ?_, ?_⟩
            · rw [htok, tokensOf]
            · rw [Allowed]
              exact hnull
            · rw [build]
              exact nofun
              exact nofun
        | @integer value htok =>
            refine ⟨.integer value, [], bytes, ?_, .nil, hl, ?_, ?_⟩
            · rw [htok, tokensOf]
            · simp [Allowed]
            · simp [build]
        | @real value htok =>
            refine ⟨.real value, [], bytes, ?_, .nil, hl, ?_, ?_⟩
            · rw [htok, tokensOf]
            · simp [Allowed]
            · simp [build]
        | true htok =>
            refine ⟨.true, [], bytes, ?_, .nil, hl, ?_, ?_⟩
            · rw [htok, tokensOf]
            · simp [Allowed]
            · simp [build]
        | false htok =>
            refine ⟨.false, [], bytes, ?_, .nil, hl, ?_, ?_⟩
            · rw [htok, tokensOf]
            · simp [Allowed]
            · simp [build]
        | null htok =>
            refine ⟨.null, [], bytes, ?_, .nil, hl, ?_, ?_⟩
            · rw [htok, tokensOf]
            · simp [Allowed]
            · simp [build]
        | empty htok hend =>
            obtain ⟨more, hmore, hlexes⟩ :=
              lexScan_before hl hend nofun nofun
            refine ⟨.object [], [.char 0x7d], more, ?_, hlexes .nil, hmore,
              ?_, ?_⟩
            · rw [htok, tokensOf]
            · simp [Allowed, AllowedMembers]
            · simp [build, buildMembers]
        | members htok hmore hmembers =>
            obtain ⟨hbad, heof⟩ := parseMembers_token hmembers
            obtain ⟨more, hfirst, hlexes⟩ := lexScan_before hl rfl hbad heof
            obtain ⟨key, j, ms, rest, hkey, hts, hend, hallow, rfl⟩ :=
              (ihMembers _ _ _ _ _ hfirst hmembers).exists_members
            refine ⟨.object ((key, j) :: ms), _, rest, ?_, hlexes hts, hend,
              allowedIn_nil.1 hallow, ?_⟩
            · rw [tokensOf_object, htok, hkey]
            · rw [build]
        | none htok hend =>
            obtain ⟨more, hmore, hlexes⟩ :=
              lexScan_before hl hend nofun nofun
            refine ⟨.array [], [.char 0x5d], more, ?_, hlexes .nil, hmore,
              ?_, ?_⟩
            · rw [htok, tokensOf]
            · simp [Allowed, AllowedElements]
            · simp [build, buildElements]
        | elements htok hmore helements =>
            obtain ⟨hbad, heof⟩ := parseElements_token hreal helements
            obtain ⟨more, hfirst, hlexes⟩ := lexScan_before hl rfl hbad heof
            obtain ⟨j, ts, js, rest, hj, hts, hend, hallow, rfl⟩ :=
              (ihElements _ _ _ _ _ hfirst helements).exists_elements
            refine ⟨.array (j :: js), _, rest, ?_, hlexes hts, hend, ?_, ?_⟩
            · rw [tokensOf_array, htok, hj, List.cons_append]
            · rw [Allowed]
              exact hallow
            · rw [build, List.nil_append]
      -- the loop of `parse_object`: key, colon and value, then a comma or
      -- the end
      · obtain ⟨key, value, lv, hkey, hnull, hdup, hcolon, hvalue,
            hrest⟩ :=
          parseMembers_iff.1 h
        obtain ⟨more, hmore, hlexColon⟩ :=
          lexScan_before hl hcolon nofun nofun
        obtain ⟨hbad, heof⟩ := parseValue_token hreal hvalue
        obtain ⟨text, htext, hlexFirst⟩ :=
          lexScan_before hmore rfl hbad heof
        obtain ⟨j, ts, mid, hj, hts, hmid, hallow, rfl⟩ :=
          (ihValue _ _ _ _ htext hvalue).exists_value
        have hvalues : Lexes w lib (tokensOf j) more mid := by
          rw [hj]
          exact hlexFirst hts
        rcases hrest with ⟨hcomma, hmembers⟩ | ⟨hend, rfl, rfl⟩
        · obtain ⟨more₁, hmore₁, hlexComma⟩ :=
            lexScan_before hmid hcomma nofun nofun
          obtain ⟨hbad, heof⟩ := parseMembers_token hmembers
          obtain ⟨more₂, hmore₂, hlexKey⟩ :=
            lexScan_before hmore₁ rfl hbad heof
          obtain ⟨key', j', ms, rest, hkey', hts', hbefore, hallow', rfl⟩ :=
            (ihMembers _ _ _ _ _ hmore₂ hmembers).exists_members
          refine ⟨key, j, (key', j') :: ms, rest, hkey, ?_, hbefore,
            (allowedIn_cons (build j)).2 ⟨⟨hnull, hdup⟩, hallow,
              hallow'⟩, ?_⟩
          · have htail := hlexComma (hlexKey hts')
            rw [hkey'] at htail
            refine hlexColon (lexes_append.2 ⟨mid, hvalues, ?_⟩)
            rw [memberTokens]
            exact htail
          · simp only [buildMembers]
        · obtain ⟨more₁, hmore₁, hlexEnd⟩ :=
            lexScan_before hmid hend nofun nofun
          refine ⟨key, j, [], more₁, hkey, ?_, hmore₁,
            (allowedIn_cons (build j)).2 ⟨⟨hnull, hdup⟩, hallow, ?_⟩,
              ?_⟩
          · refine hlexColon (lexes_append.2 ⟨mid, hvalues, ?_⟩)
            rw [memberTokens]
            exact hlexEnd .nil
          · simp [AllowedIn, AllowedMembers]
          · rw [buildMembers, buildMembers]
      -- the loop of `parse_array`: a value, then a comma or the end
      · obtain ⟨heof, elem, lv, hvalue, hrest⟩ := parseElements_iff.1 h
        obtain ⟨j, ts, mid, hj, hts, hmid, hallow, rfl⟩ :=
          (ihValue _ _ _ _ hl hvalue).exists_value
        rcases hrest with ⟨hcomma, helements⟩ | ⟨hend, rfl, rfl⟩
        · obtain ⟨more₁, hmore₁, hlexComma⟩ :=
            lexScan_before hmid hcomma nofun nofun
          obtain ⟨hbad, heof⟩ := parseElements_token hreal helements
          obtain ⟨more₂, hmore₂, hlexFirst⟩ :=
            lexScan_before hmore₁ rfl hbad heof
          obtain ⟨j', ts', js, rest, hj', hts', hbefore, hallow', rfl⟩ :=
            (ihElements _ _ _ _ _ hmore₂ helements).exists_elements
          refine ⟨j, ts, j' :: js, rest, hj, ?_, hbefore, ?_, ?_⟩
          · refine lexes_append.2 ⟨mid, hts, ?_⟩
            rw [elementTokens, hj', List.cons_append]
            exact hlexComma (hlexFirst hts')
          · rw [AllowedElements]
            exact ⟨hallow, hallow'⟩
          · rw [buildElements, List.append_assoc]
            rfl
        · obtain ⟨more₁, hmore₁, hlexEnd⟩ :=
            lexScan_before hmid hend nofun nofun
          refine ⟨j, ts, [], more₁, hj, ?_, hmore₁, ?_, ?_⟩
          · refine lexes_append.2 ⟨mid, hts, ?_⟩
            rw [elementTokens]
            exact hlexEnd .nil
          · simp [AllowedElements, hallow]
          · simp [buildElements]

/-- The parser reads all texts of values. -/
theorem parse_complete (hreal : flags.decodeIntAsReal = false) (n : Nat) :
    (∀ j ts l bytes rest, tokensOf j = l.token :: ts →
      l.Before bytes fin →
        Lexes w lib ts bytes rest → Allowed flags j →
        (tokensOf j).length ≤ n →
        ∃ l', parseValue w lib flags n l = (some (build j), l')
          ∧ l'.Before rest fin)
      ∧ (∀ members key j ms l bytes rest, l.token = .string key →
        l.Before bytes fin → Lexes w lib (behindKey j ms) bytes rest →
        AllowedIn flags members ((key, j) :: ms) →
        (behindKey j ms).length < n →
        ∃ l', parseMembers w lib flags n members l
            = (some (.object (buildMembers members ((key, j) :: ms))), l')
          ∧ l'.Before rest fin)
      ∧ ∀ elements j ts js l bytes rest, tokensOf j = l.token :: ts →
        l.Before bytes fin →
          Lexes w lib (ts ++ elementTokens js) bytes rest →
        AllowedElements flags (j :: js) →
        (tokensOf j ++ elementTokens js).length ≤ n →
        ∃ l', parseElements w lib flags n elements l
            = (some (.array (elements ++ buildElements (j :: js))), l')
          ∧ l'.Before rest fin := by
  -- as for `parse_sound`, with the tokens as the measure for the fuel
  induction n with
  | zero =>
      refine ⟨fun j ts l bytes rest hj _ _ _ hn => ?_,
        fun members key j ms l bytes rest _ _ _ _ hn => ?_,
        fun elements j ts js l bytes rest hj _ _ _ hn => ?_⟩
      · rw [hj] at hn
        exact absurd hn (Nat.not_succ_le_zero _)
      · exact absurd hn (Nat.not_lt_zero _)
      · rw [hj] at hn
        exact absurd hn (Nat.not_succ_le_zero _)
  | succ n ih =>
      obtain ⟨ihValue, ihMembers, ihElements⟩ := ih
      refine ⟨fun j ts l bytes rest hj hl hts hallow hn => ?_,
        fun members key j ms l bytes rest hkey hl hts hallow hn => ?_,
        fun elements j ts js l bytes rest hj hl hts hallow hn => ?_⟩
      -- a value that is one token is returned right away
      · have hscalar : ∀ tok : Token ρ, tokensOf j = [tok] →
            tok = l.token ∧ l.Before rest fin := by
          intro tok htok
          rw [htok] at hj
          obtain ⟨rfl, rfl⟩ := List.cons.inj hj
          cases hts
          exact ⟨rfl, hl⟩
        cases j with
        | object members =>
            cases members with
            | nil =>
                rw [tokensOf] at hj
                obtain ⟨htok, rfl⟩ := List.cons.inj hj
                obtain ⟨hend, more, hmore, hrest⟩ := lexScan_lexes hl hts
                cases hrest
                rw [build, buildMembers]
                exact ⟨_, (parseValue_iff hreal).2 (.empty htok.symm hend),
                  hmore⟩
            | cons m ms =>
                obtain ⟨key, j⟩ := m
                rw [tokensOf_object] at hj hn
                obtain ⟨htok, rfl⟩ := List.cons.inj hj
                obtain ⟨hkey, more, hmore, hrest⟩ := lexScan_lexes hl hts
                obtain ⟨l', heq, hbefore⟩ :=
                  ihMembers [] key j ms _ _ _ hkey
                  hmore hrest (allowedIn_nil.2 hallow) (by
                    simp only [List.length_cons] at hn ⊢
                    omega)
                rw [build]
                exact ⟨l', (parseValue_iff hreal).2 (.members htok.symm
                  (by rw [hkey]; exact nofun) heq), hbefore⟩
        | array elements =>
            cases elements with
            | nil =>
                rw [tokensOf] at hj
                obtain ⟨htok, rfl⟩ := List.cons.inj hj
                obtain ⟨hend, more, hmore, hrest⟩ := lexScan_lexes hl hts
                cases hrest
                rw [build, buildElements]
                exact ⟨_, (parseValue_iff hreal).2 (.none htok.symm hend),
                  hmore⟩
            | cons j js =>
                rw [tokensOf_array] at hj hn
                obtain ⟨htok, rfl⟩ := List.cons.inj hj
                obtain ⟨tok, ts, hfirst, -, -, hno, -⟩ := tokensOf_head j
                rw [hfirst, List.cons_append] at hts
                obtain ⟨htok', more, hmore, hrest⟩ := lexScan_lexes hl hts
                rw [Allowed] at hallow
                obtain ⟨l', heq, hbefore⟩ := ihElements [] j ts js _ _ _
                  (by rw [hfirst, htok']) hmore hrest hallow (by
                    simp only [List.length_cons] at hn ⊢
                    omega)
                rw [build]
                exact ⟨l', (parseValue_iff hreal).2 (.elements htok.symm
                  (by rw [htok']; exact hno) heq), hbefore⟩
        | string value =>
            obtain ⟨htok, hbefore⟩ :=
              hscalar (.string value) (by rw [tokensOf])
            rw [Allowed] at hallow
            refine ⟨l, (parseValue_iff hreal).2 ?_, hbefore⟩
            simp only [build]
            exact .string htok.symm hallow
        | integer value =>
            obtain ⟨htok, hbefore⟩ := hscalar (.integer value)
              (by rw [tokensOf])
            refine ⟨l, (parseValue_iff hreal).2 ?_, hbefore⟩
            simp only [build]
            exact .integer htok.symm
        | real value =>
            obtain ⟨htok, hbefore⟩ :=
              hscalar (.real value) (by rw [tokensOf])
            refine ⟨l, (parseValue_iff hreal).2 ?_, hbefore⟩
            simp only [build]
            exact .real htok.symm
        | true =>
            obtain ⟨htok, hbefore⟩ := hscalar .true (by rw [tokensOf])
            refine ⟨l, (parseValue_iff hreal).2 ?_, hbefore⟩
            simp only [build]
            exact .true htok.symm
        | false =>
            obtain ⟨htok, hbefore⟩ := hscalar .false (by rw [tokensOf])
            refine ⟨l, (parseValue_iff hreal).2 ?_, hbefore⟩
            simp only [build]
            exact .false htok.symm
        | null =>
            obtain ⟨htok, hbefore⟩ := hscalar .null (by rw [tokensOf])
            refine ⟨l, (parseValue_iff hreal).2 ?_, hbefore⟩
            simp only [build]
            exact .null htok.symm
      -- the members of an object, each key checked against those in front
      · obtain ⟨⟨hnull, hdup⟩, hj, hms⟩ :=
          (allowedIn_cons (build j)).1 hallow
        obtain ⟨hcolon, more, hmore, hrest⟩ := lexScan_lexes hl hts
        obtain ⟨mid, hvalue, hmembers⟩ := lexes_append.1 hrest
        obtain ⟨tok, ts, hfirst, -⟩ := tokensOf_head j
        simp only [behindKey, List.length_cons, List.length_append] at hn
        rw [hfirst] at hvalue
        obtain ⟨htok, text, htext, hmid⟩ := lexScan_lexes hmore hvalue
        obtain ⟨lv, heq, hlv⟩ := ihValue j ts _ _ _ (by rw [hfirst, htok])
          htext hmid hj (by omega)
        cases ms with
        | nil =>
            rw [memberTokens] at hmembers
            obtain ⟨hend, more₁, hmore₁, hnil⟩ :=
              lexScan_lexes hlv hmembers
            cases hnil
            exact ⟨_,
              parseMembers_iff.2 ⟨key, build j, lv, hkey, hnull, hdup,
              hcolon, heq, .inr ⟨hend, by simp only [buildMembers], rfl⟩⟩,
              hmore₁⟩
        | cons m ms =>
            obtain ⟨key', j'⟩ := m
            rw [memberTokens] at hmembers hn
            obtain ⟨hcomma, more₁, hmore₁, hlater⟩ :=
              lexScan_lexes hlv hmembers
            obtain ⟨hkey', more₂, hmore₂, hlast⟩ :=
              lexScan_lexes hmore₁ hlater
            obtain ⟨l', heq', hbefore⟩ := ihMembers _ key' j' ms _ _ _ hkey'
              hmore₂ hlast hms (by
                simp only [behindKey, List.length_cons] at hn ⊢
                omega)
            exact ⟨l',
              parseMembers_iff.2 ⟨key, build j, lv, hkey, hnull, hdup,
              hcolon, heq, .inl ⟨hcomma, by
                rw [heq']
                simp only [buildMembers]⟩⟩, hbefore⟩
      · rw [AllowedElements] at hallow
        obtain ⟨hvalue, hmid⟩ := hallow
        obtain ⟨mid, hfirst, helements⟩ := lexes_append.1 hts
        rw [List.length_append] at hn
        have heof : l.token ≠ .eof := by
          obtain ⟨tok, ts', htok, -, heof, -⟩ := tokensOf_head j
          rw [hj] at htok
          rw [(List.cons.inj htok).1]
          exact heof
        cases js with
        | nil =>
            rw [elementTokens] at helements hn
            obtain ⟨lv, heq, hlv⟩ := ihValue j ts _ _ _ hj hl hfirst hvalue
              (by
                simp only [List.length_cons] at hn
                omega)
            obtain ⟨hend, more₁, hmore₁, hnil⟩ :=
              lexScan_lexes hlv helements
            cases hnil
            exact ⟨_,
              parseElements_iff.2 ⟨heof, build j, lv, heq, .inr ⟨hend,
              by simp only [buildElements], rfl⟩⟩, hmore₁⟩
        | cons j' js =>
            obtain ⟨tok, ts', htok', -⟩ := tokensOf_head j'
            rw [elementTokens] at helements hn
            simp only [List.length_cons, List.length_append] at hn
            obtain ⟨lv, heq, hlv⟩ := ihValue j ts _ _ _ hj hl hfirst hvalue
              (by omega)
            obtain ⟨hcomma, more₁, hmore₁, hlater⟩ :=
              lexScan_lexes hlv helements
            rw [htok', List.cons_append] at hlater
            obtain ⟨hnext, more₂, hmore₂, hlast⟩ :=
              lexScan_lexes hmore₁ hlater
            obtain ⟨l', heq', hbefore⟩ :=
              ihElements (elements ++ [build j]) j'
              ts' js _ _ _ (by rw [htok', hnext]) hmore₂ hlast hmid (by
                rw [List.length_append]
                omega)
            refine ⟨l', parseElements_iff.2 ⟨heof, build j, lv, heq,
              .inl ⟨hcomma, ?_⟩⟩, hbefore⟩
            rw [heq']
            simp only [buildElements, List.append_assoc, List.cons_append,
              List.nil_append]

-- ================================================================= the texts

/-- What `parse_json` has done. -/
theorem parseJson_iff (hcheck : flags.disableEofCheck = false) :
    (parseJson w lib flags n l).1 = some v
      ↔ (flags.decodeAny = true
          ∨ beginsContainer (lexScan w lib l).token = true)
        ∧ ∃ lv, parseValue w lib flags n (lexScan w lib l) = (some v, lv)
          ∧ (lexScan w lib lv).token = .eof := by
  unfold parseJson
  dsimp only
  constructor
  · intro h
    split_ifs at h with hbegins hdisabled
    · rw [hcheck] at hdisabled
      cases hdisabled
    · split at h
      · cases h
      · rename_i result lv hvalue
        split at h
        · rename_i hend
          cases h
          refine ⟨?_, lv, hvalue, hend⟩
          by_contra hno
          rw [not_or, Bool.not_eq_true, Bool.not_eq_true] at hno
          exact hbegins hno
        · cases h
  · rintro ⟨hbegins, lv, hvalue, hend⟩
    have hno : ¬ (flags.decodeAny = false
        ∧ beginsContainer (lexScan w lib l).token = false) := by
      rintro ⟨hany, hcontainer⟩
      rcases hbegins with hyes | hyes
      · rw [hany] at hyes
        cases hyes
      · rw [hcontainer] at hyes
        cases hyes
    simp only [if_neg hno, hvalue, hcheck, if_neg Bool.false_ne_true, hend]

/-- `json_loads` accepts the texts of the values that its flags allow, up to
the null byte, and nothing else; it gives the value that the text builds. -/
theorem loads_iff (w : Nat) (lib : Doubles ρ) (flags : LoadFlags)
    (string : List UInt8) (v : Json ρ)
    (hcheck : flags.disableEofCheck = false)
    (hreal : flags.decodeIntAsReal = false) :
    (jsonLoads w lib flags string).1 = some v
      ↔ ∃ j, Text w lib j (string.takeWhile (· ≠ 0)) ∧ Allowed flags j
        ∧ (flags.decodeAny = true ∨ IsContainer j) ∧ v = build j := by
  unfold jsonLoads jsonLoadb
  dsimp only
  have hnull : 0 ∉ string.takeWhile (· ≠ 0) := by
    intro hmem
    have := List.mem_takeWhile_imp hmem
    simp at this
  generalize string.takeWhile (· ≠ 0) = input at hnull ⊢
  rw [parseJson_iff hcheck]
  constructor
  · rintro ⟨hbegins, lv, hvalue, hend⟩
    obtain ⟨bytes, fin, hfeeds, -, hutf, hwhole⟩ :=
      init_feeds (ρ := ρ) input hnull
    have hbefore : (lexInit input : Lex ρ).Before bytes fin :=
      ⟨_, hfeeds, rfl⟩
    obtain ⟨hbad, heof⟩ := parseValue_token hreal hvalue
    obtain ⟨more, hmore, hlexes⟩ := lexScan_before hbefore rfl hbad heof
    obtain ⟨j, ts, rest, hj, hts, hrest, hallow, rfl⟩ :=
      ((parse_sound hreal _).1 _ _ _ _ hmore hvalue).exists_value
    obtain ⟨hblank, hfin⟩ := lexScan_end hrest hend
    obtain rfl := hwhole hfin
    refine ⟨j, ⟨hutf, rest, ?_, hblank⟩, hallow, ?_, rfl⟩
    · rw [hj]
      exact hlexes hts
    · obtain ⟨tok, ts', htok, -, -, -, hcontainer⟩ := tokensOf_head j
      rw [hj] at htok
      rw [← hcontainer, ← (List.cons.inj htok).1]
      exact hbegins
  · rintro ⟨j, ⟨hutf, rest, hlexes, hblank⟩, hallow, hbegins, rfl⟩
    have hbefore : (lexInit input : Lex ρ).Before input .eof :=
      ⟨_, init_feeds_utf8 hnull hutf, rfl⟩
    obtain ⟨tok, ts, htok, -, -, -, hcontainer⟩ := tokensOf_head j
    have hlength := hlexes.length_le
    rw [htok] at hlexes
    obtain ⟨hfirst, more, hmore, hts⟩ := lexScan_lexes hbefore hlexes
    obtain ⟨lv, hvalue, hlv⟩ :=
      (parse_complete hreal (input.length + 1)).1 j
      ts _ _ _ (by rw [htok, hfirst]) hmore hts hallow (by omega)
    refine ⟨?_, lv, hvalue, ?_⟩
    · rw [hfirst, hcontainer]
      exact hbegins
    · obtain ⟨saved, hlv⟩ := hlv
      exact lexScan_eof hlv.feeds.fin_ne hblank hlv

/-- An array with an object in it, a key of which comes twice. -/
theorem loads_iff_twice :
    ∃ j : Json Unit, Text 64 ⟨fun _ => none, fun _ _ => []⟩ j
        ((ascii "[1, \x7b\"a\": null, \"a\": -2\x7d]").takeWhile (· ≠ 0))
      ∧ build j
        = .array [.integer 1, .object [(ascii "a", .integer (-2))]] := by
  have heval : (jsonLoads 64 (⟨fun _ => none, fun _ _ => []⟩ : Doubles Unit)
      ⟨false, false, false, false, false⟩
      (ascii "[1, \x7b\"a\": null, \"a\": -2\x7d]")).1
      = some (.array [.integer 1, .object [(ascii "a", .integer (-2))]]) := by
    rfl
  obtain ⟨j, htext, -, -, hbuild⟩ := (loads_iff 64
    ⟨fun _ => none, fun _ _ => []⟩ ⟨false, false, false, false, false⟩
    (ascii "[1, \x7b\"a\": null, \"a\": -2\x7d]")
    (.array [.integer 1, .object [(ascii "a", .integer (-2))]]) rfl rfl).1
    heval
  exact ⟨j, htext, hbuild.symm⟩

end Whole

end ProjectsLibs.Jansson
