/-
The stream gives the bytes of a text in turn, and takes the last one back.

`Feeds` says which bytes a stream will give, and what it will give at the
end of them, where the text ends or is not in UTF-8. `Lex.At` is where the
analyzer stands, and `Next` what it has got there; behind these the buffer
of the stream is not seen any more. Null bytes are left out: the stream
loses one that is taken back.

# The layers

At the bottom is the input, which may end, be cut short or hold bytes
that are no characters. The decoder reads it byte by byte and checks each
character when its first byte comes, into a buffer of one character.
`Feeds` is the view from above: what will come, and then an end that is
repeated. A byte may be put back, but only the last one and only once,
which is what `Behind` is for.

Above it the analyzer saves bytes in a token. `Lex.At` joins the two, so
that a lemma about a part of the scanner has one hypothesis about where
it stands and one conclusion of the same form; reading, saving and
putting back are the three operations that the modules above use.
-/
import ProjectsLibs.Jansson.Load
import ProjectsLibs.Jansson.Proofs.Utf

namespace ProjectsLibs.Jansson

open Lib

variable {ρ : Type}

-- ================================================================= feeding

/-- How the input goes on where there are no more characters. -/
def EndsWith (tail : List UInt8) (fin : Got) : Prop :=
  (tail = [] ∧ fin = .eof)
    ∨ (∃ c input, tail = c :: input ∧ utf8Iterate tail = none
      ∧ fin = .error)

/-- The stream has ended. -/
def Stream.Ended (s : Stream) (fin : Got) : Prop :=
  (s.state = .eof ∧ fin = .eof) ∨ (s.state = .error ∧ fin = .error)

/-- The stream can go on, with `bytes`. -/
structure Stream.Open (s : Stream) (bytes : List UInt8) (fin : Got) :
    Prop where
  state : s.state = .ok
  pos : s.bufferPos ≤ s.buffer.length
  noNull : 0 ∉ s.buffer
  text : ∃ cs tail, (∀ c ∈ cs, Scalar c ∧ c ≠ 0)
    ∧ bytes = s.buffer.drop s.bufferPos ++ utf8Text cs
    ∧ s.input = utf8Text cs ++ tail ∧ EndsWith tail fin

/-- The stream gives `bytes`, and then `fin`. -/
def Stream.Feeds (s : Stream) (bytes : List UInt8) (fin : Got) : Prop :=
  (bytes = [] ∧ s.Ended fin) ∨ s.Open bytes fin

/-- The stream has just given `b`. -/
structure Stream.Behind (s : Stream) (b : UInt8) : Prop where
  state : s.state = .ok
  pos : 0 < s.bufferPos
  byte : s.buffer[s.bufferPos - 1]? = some b

/-- Every input is characters up to its end, or up to bytes that are none. -/
theorem exists_chars (input : List UInt8) (hnull : 0 ∉ input) :
    ∃ cs tail fin, (∀ c ∈ cs, Scalar c ∧ c ≠ 0)
      ∧ input = utf8Text cs ++ tail ∧ EndsWith tail fin := by
  induction hn : input.length using Nat.strongRecOn generalizing input with
  | ind n ih =>
      cases input with
      | nil => exact ⟨[], [], .eof, nofun, rfl, .inl ⟨rfl, rfl⟩⟩
      | cons b rest =>
          cases hnext : utf8Iterate (b :: rest) with
          | none =>
              exact ⟨[], b :: rest, .error, nofun, rfl,
                .inr ⟨b, rest, rfl, hnext, rfl⟩⟩
          | some r =>
              obtain ⟨c, tail, -, hc, -, hsplit⟩ := utf8Iterate_some hnext
              have hne : c ≠ 0 := by
                rintro rfl
                exact hnull (hsplit ▸ List.mem_append_left _
                  (List.mem_singleton_self 0))
              have hpos := List.length_pos_iff.2 (utf8_ne_nil c)
              have hlt : tail.length < n := by
                rw [← hn, hsplit, List.length_append]
                omega
              have hnull' : 0 ∉ tail := fun hmem =>
                hnull (hsplit ▸ List.mem_append_right _ hmem)
              obtain ⟨cs, tail', fin, hcs, rfl, hend⟩ :=
                ih _ hlt tail hnull' rfl
              refine ⟨c :: cs, tail', fin,
                List.forall_mem_cons.2 ⟨⟨hc, hne⟩, hcs⟩, ?_, hend⟩
              rw [hsplit]
              exact (List.append_assoc _ _ _).symm

/-- What a decoder feeds at the beginning. -/
theorem init_feeds (input : List UInt8) (hnull : 0 ∉ input) :
    ∃ bytes fin, (lexInit input : Lex ρ).stream.Feeds bytes fin
      ∧ bytes <+: input ∧ IsUtf8 bytes
      ∧ (fin = .eof → bytes = input) := by
  obtain ⟨cs, tail, fin, hcs, rfl, hend⟩ := exists_chars input hnull
  refine ⟨utf8Text cs, fin, .inr ⟨rfl, Nat.le_refl 0, List.not_mem_nil,
    cs, tail, hcs, rfl, rfl, hend⟩, List.prefix_append _ _,
    ⟨cs, fun c hc => (hcs c hc).1, rfl⟩, fun hfin => ?_⟩
  rcases hend with ⟨rfl, -⟩ | ⟨_, _, _, _, rfl⟩
  · exact (List.append_nil _).symm
  · cases hfin

/-- A text in UTF-8 is fed to its end. -/
theorem init_feeds_utf8 {input : List UInt8} (hnull : 0 ∉ input)
    (h : IsUtf8 input) : (lexInit input : Lex ρ).stream.Feeds input .eof := by
  obtain ⟨cs, hcs, rfl⟩ := h
  refine .inr ⟨rfl, Nat.le_refl 0, List.not_mem_nil, cs, [],
    fun c hc => ⟨hcs c hc, ?_⟩, rfl, (List.append_nil _).symm,
    .inl ⟨rfl, rfl⟩⟩
  rintro rfl
  exact hnull (List.mem_flatMap.2 ⟨0, hc, List.mem_singleton_self 0⟩)

-- ================================================================ the ends

section Get

variable {l : Lex ρ} {bytes : List UInt8} {fin : Got} {b : UInt8}

/-- A text does not end with a byte. -/
theorem Stream.Feeds.fin_ne {s : Stream} (h : s.Feeds bytes fin) :
    ∀ b, fin ≠ .byte b := by
  rintro b rfl
  rcases h with ⟨-, ⟨-, hfin⟩ | ⟨-, hfin⟩⟩ | h
  · cases hfin
  · cases hfin
  · obtain ⟨-, tail, -, -, -, ⟨-, hfin⟩ | ⟨-, -, -, -, hfin⟩⟩ :=
      h.text
    · cases hfin
    · cases hfin

/-- A byte from the buffer. -/
theorem streamTake_open (hopen : l.stream.Open (b :: bytes) fin)
    (hbuffer : l.stream.bufferPos < l.stream.buffer.length) :
    ∃ s, streamTake l = (.byte b, { l with stream := s })
      ∧ s.Feeds bytes fin ∧ s.Behind b := by
  obtain ⟨hstate, hpos, hnull, cs, tail, hcs, hbytes, hinput, hend⟩ := hopen
  rw [List.drop_eq_getElem_cons hbuffer, List.cons_append,
    List.cons.injEq] at hbytes
  obtain ⟨hb, hbytes⟩ := hbytes
  have hget : l.stream.buffer.getD l.stream.bufferPos 0 = b := by
    rw [List.getD_eq_getElem?_getD, List.getElem?_eq_getElem hbuffer, hb]
    rfl
  have hbyte : l.stream.buffer[l.stream.bufferPos]? = some b := by
    rw [List.getElem?_eq_getElem hbuffer, hb]
  unfold streamTake
  dsimp only
  rw [hget]
  split_ifs
  · exact ⟨_, rfl, .inr ⟨hstate, hbuffer, hnull, cs, tail, hcs, hbytes,
      hinput, hend⟩, ⟨hstate, Nat.succ_pos _, hbyte⟩⟩
  · exact ⟨_, rfl, .inr ⟨hstate, hbuffer, hnull, cs, tail, hcs, hbytes,
      hinput, hend⟩, ⟨hstate, Nat.succ_pos _, hbyte⟩⟩
  · exact ⟨_, rfl, .inr ⟨hstate, hbuffer, hnull, cs, tail, hcs, hbytes,
      hinput, hend⟩, ⟨hstate, Nat.succ_pos _, hbyte⟩⟩

/-- The end of the buffer, or a byte of it. -/
theorem buffer_getD {s : Stream} (hnull : 0 ∉ s.buffer) :
    s.buffer.getD s.bufferPos 0 = 0 ↔ s.buffer.length ≤ s.bufferPos := by
  rw [List.getD_eq_getElem?_getD]
  constructor
  · intro hzero
    by_contra hlt
    rw [List.getElem?_eq_getElem (Nat.not_le.1 hlt)] at hzero
    exact hnull (hzero ▸ List.getElem_mem _)
  · intro hle
    rw [List.getElem?_eq_none hle]
    rfl

/-- As many bytes are read as were asked for, with zeros behind the end. -/
theorem length_getBytes (n : Nat) (input : List UInt8) :
    (getBytes n input).length = n := by
  unfold getBytes
  rw [List.length_append, List.length_take, List.length_replicate]
  omega

/-- The bytes of a character that are behind the first. -/
theorem getBytes_append {xs ys : List UInt8} :
    getBytes xs.length (xs ++ ys) = xs := by
  unfold getBytes
  rw [List.take_left, List.length_append, Nat.sub_eq_zero_of_le (by omega),
    List.replicate_zero, List.append_nil]

/-- A stream that has not ended gives the next byte. -/
theorem streamGet_byte (h : l.stream.Feeds (b :: bytes) fin) :
    ∃ s, streamGet l = (.byte b, { l with stream := s })
      ∧ s.Feeds bytes fin ∧ s.Behind b := by
  rcases h with ⟨hnil, -⟩ | hopen
  · cases hnil
  have hstate := hopen.state
  unfold streamGet
  dsimp only
  rw [hstate]
  dsimp only
  -- the buffer is used up, so the next character is fetched; it is checked
  -- as a whole before its first byte is given out
  by_cases hend : l.stream.buffer.length ≤ l.stream.bufferPos
  · rw [if_pos ((buffer_getD hopen.noNull).2 hend)]
    obtain ⟨-, -, -, cs, tail, hcs, hbytes, hinput, htail⟩ := hopen
    rw [List.drop_eq_nil_of_le hend, List.nil_append] at hbytes
    cases cs with
    | nil => cases hbytes
    | cons c cs =>
        obtain ⟨⟨hc, hne⟩, hcs⟩ := List.forall_mem_cons.1 hcs
        have hshape := utf8_shape hc.1
        have hnull := utf8_noNull hc.1 hne
        have hsplit : utf8Text (c :: cs) = utf8 c ++ utf8Text cs := rfl
        rw [hsplit] at hbytes hinput
        obtain ⟨a, more, hutf⟩ := List.exists_cons_of_ne_nil (utf8_ne_nil c)
        rw [hutf] at hbytes hinput hshape hnull
        obtain ⟨rfl, rfl⟩ := List.cons.inj hbytes
        rw [List.append_assoc] at hinput
        rw [hinput]
        dsimp only [List.cons_append]
        have hfirst := checkFirst_shape hc.1 hshape
        -- a character of more than one byte, or ASCII
        by_cases hlong : 0x80 ≤ b.toNat
        · have hne1 : more ≠ [] := by
            rintro rfl
            cases hshape with
            | one hlt ha => omega
          have hpos := List.length_pos_iff.2 hne1
          have hfull := checkFull_shape [] hc hshape (by
            rw [List.length_cons]
            omega)
          rw [List.append_nil] at hfull
          rw [if_pos hlong, hfirst, if_neg (Nat.succ_ne_zero _),
            Nat.add_sub_cancel, getBytes_append, List.drop_left,
            show more.length + 1 = (b :: more).length from rfl, hfull]
          refine streamTake_open (l := { l with stream := _ })
            ⟨rfl, Nat.zero_le _, hnull, cs, tail, hcs, rfl, rfl, htail⟩
            (Nat.succ_pos _)
        · have hnil : more = [] := by
            have hcases := checkFirst_cases b
            exact List.length_eq_zero_iff.1 (by omega)
          subst hnil
          rw [if_neg hlong]
          exact streamTake_open (l := { l with stream := _ })
            ⟨rfl, Nat.zero_le _, hnull, cs, tail, hcs, rfl, rfl, htail⟩
            Nat.one_pos
  · rw [if_neg fun hzero => hend ((buffer_getD hopen.noNull).1 hzero)]
    exact streamTake_open hopen (Nat.not_le.1 hend)

/-- Setting an error moves nothing. -/
@[simp] theorem errorSet_stream (l : Lex ρ) (msg : List UInt8) :
    (errorSet l msg).stream = l.stream := by
  unfold errorSet
  split <;> rfl

@[simp] theorem errorSet_saved (l : Lex ρ) (msg : List UInt8) :
    (errorSet l msg).savedText = l.savedText := by
  unfold errorSet
  split <;> rfl

@[simp] theorem errorSet_token (l : Lex ρ) (msg : List UInt8) :
    (errorSet l msg).token = l.token := by
  unfold errorSet
  split <;> rfl

/-- A character that is cut short has no right byte at its end. -/
theorem checkContinuation_none {value : Nat} {xs : List UInt8}
    (h : 0xff ∈ xs) : checkContinuation value xs = none := by
  induction xs generalizing value with
  | nil => cases h
  | cons u rest ih =>
      rw [checkContinuation_cons]
      split_ifs with hbyte
      · rfl
      · rcases List.mem_cons.1 h with rfl | h
        · exact absurd (.inr (by decide)) hbyte
        · exact ih h

/-- The stream takes for a character what `utf8_iterate` does. -/
theorem checkFull_getBytes {c : UInt8} {input : List UInt8}
    (hlong : 1 < utf8CheckFirst c) (h : utf8Iterate (c :: input) = none) :
    utf8CheckFull (c :: getBytes (utf8CheckFirst c - 1) input)
      (utf8CheckFirst c) = none := by
  have hcases := checkFirst_cases c
  unfold utf8Iterate at h
  dsimp only at h
  rw [if_neg (by omega), if_neg (by omega)] at h
  generalize utf8CheckFirst c = count at *
  have hcount : count = 2 ∨ count = 3 ∨ count = 4 := by omega
  rw [checkFull_eq c _ hcount]
  rw [List.length_cons] at h
  by_cases hshort : input.length + 1 < count
  · have hmem : 0xff ∈ (getBytes (count - 1) input).take (count - 1) := by
      rw [List.take_of_length_le (Nat.le_of_eq (length_getBytes _ _))]
      exact List.mem_append_right _ (List.mem_replicate.2 ⟨by omega, rfl⟩)
    rw [checkContinuation_none hmem]
    rfl
  · rw [if_neg hshort, Option.map_eq_none_iff, checkFull_eq c _ hcount] at h
    unfold getBytes
    rw [Nat.sub_eq_zero_of_le (show count - 1 ≤ input.length by omega),
      List.replicate_zero, List.append_nil, List.take_take, Nat.min_self]
    exact h

/-- A stream that has given all its bytes says what comes then, and goes on
to say it. -/
theorem streamGet_fin (h : l.stream.Feeds [] fin) :
    (streamGet l).1 = fin ∧ (streamGet l).2.stream.Feeds [] fin
      ∧ (streamGet l).2.savedText = l.savedText := by
  rcases h with ⟨-, hended⟩ | hopen
  · unfold streamGet
    rcases hended with ⟨hstate, rfl⟩ | ⟨hstate, rfl⟩
    · dsimp only
      rw [hstate]
      exact ⟨rfl, .inl ⟨rfl, .inl ⟨hstate, rfl⟩⟩, rfl⟩
    · dsimp only
      rw [hstate]
      exact ⟨rfl, .inl ⟨rfl, .inr ⟨hstate, rfl⟩⟩, rfl⟩
  · obtain ⟨hstate, -, hnull, cs, tail, hcs, hbytes, hinput, hend⟩ := hopen
    obtain ⟨hbuffer, htext⟩ := List.append_eq_nil_iff.1 hbytes.symm
    have hle := List.drop_eq_nil_iff.1 hbuffer
    rw [htext, List.nil_append] at hinput
    unfold streamGet
    dsimp only
    rw [hstate]
    dsimp only
    rw [if_pos ((buffer_getD hnull).2 hle), hinput]
    rcases hend with ⟨rfl, rfl⟩ | ⟨c, input, rfl, hnone, rfl⟩
    · exact ⟨rfl, .inl ⟨rfl, .inl ⟨rfl, rfl⟩⟩, rfl⟩
    · have hout : ∀ s, (streamOut l s c).1 = .error
          ∧ (streamOut l s c).2.stream.Feeds [] .error
          ∧ (streamOut l s c).2.savedText = l.savedText := by
        intro s
        unfold streamOut
        refine ⟨rfl, .inl ⟨rfl, .inr ⟨?_, rfl⟩⟩, ?_⟩
        · rw [errorSet_stream]
        · rw [errorSet_saved]
      have hcases := checkFirst_cases c
      dsimp only
      by_cases hlong : 0x80 ≤ c.toNat
      · rw [if_pos hlong]
        by_cases hzero : utf8CheckFirst c = 0
        · rw [if_pos hzero]
          exact hout _
        · rw [if_neg hzero, checkFull_getBytes (by omega) hnone]
          exact hout _
      · unfold utf8Iterate at hnone
        dsimp only at hnone
        rw [if_neg (by omega), if_pos (by omega)] at hnone
        cases hnone

end Get

-- ============================================================ the position

/-- The analyzer is before `bytes`, with `saved` saved. -/
structure Lex.At (l : Lex ρ) (bytes : List UInt8) (fin : Got)
    (saved : List UInt8) : Prop where
  feeds : l.stream.Feeds bytes fin
  saved : l.savedText = saved

/-- What has been got before `bytes`, and saved if `save` is set. -/
inductive Next (save : Bool) (fin : Got) :
    List UInt8 → List UInt8 → Got × Lex ρ → Prop
  | byte {b : UInt8} {rest saved : List UInt8} {l : Lex ρ} :
      l.At rest fin (if save then saved ++ [b] else saved) →
      l.stream.Behind b → Next save fin (b :: rest) saved (.byte b, l)
  | fin {saved : List UInt8} {l : Lex ρ} :
      l.At [] fin saved → Next save fin [] saved (fin, l)

section Position

variable {l : Lex ρ} {bytes saved : List UInt8} {fin : Got} {b : UInt8}
  {r : Got × Lex ρ} {save : Bool}

/-- Reading gives the next byte of the text, or its end. -/
theorem streamGet_next (h : l.At bytes fin saved) :
    Next false fin bytes saved (streamGet l) := by
  obtain ⟨hfeeds, hsaved⟩ := h
  cases bytes with
  | nil =>
      obtain ⟨hfin, hfeeds', hsaved'⟩ := streamGet_fin hfeeds
      rw [show streamGet l = (fin, (streamGet l).2) from
        Prod.ext hfin rfl]
      exact .fin ⟨hfeeds', hsaved'.trans hsaved⟩
  | cons b rest =>
      obtain ⟨s, hget, hfeeds', hbehind⟩ := streamGet_byte hfeeds
      rw [hget]
      exact .byte ⟨hfeeds', hsaved⟩ hbehind

theorem lexGetSave_next (h : l.At bytes fin saved) :
    Next true fin bytes saved (lexGetSave l) := by
  have hnext := streamGet_next h
  have hne := h.feeds.fin_ne
  unfold lexGetSave
  generalize streamGet l = r at hnext ⊢
  cases hnext with
  | byte hat hbehind =>
      exact .byte ⟨hat.feeds, congrArg (· ++ [_]) hat.saved⟩ hbehind
  | fin hat =>
      cases fin with
      | byte b => exact absurd rfl (hne b)
      | eof => exact .fin hat
      | error => exact .fin hat

/-- A stream takes back what it has given. -/
theorem streamUnget_feeds (h : l.stream.Feeds bytes fin)
    (hbehind : l.stream.Behind b) :
    (streamUnget l (.byte b)).stream.Feeds (b :: bytes) fin := by
  obtain ⟨hstate, hpos, hbyte⟩ := hbehind
  rcases h with ⟨-, hended⟩ |
    ⟨-, hle, hnull, cs, tail, hcs, hbytes, hinput, hend⟩
  · rcases hended with ⟨heof, -⟩ | ⟨herror, -⟩
    · rw [hstate] at heof
      cases heof
    · rw [hstate] at herror
      cases herror
  · obtain ⟨hlt, hget⟩ := List.getElem?_eq_some_iff.1 hbyte
    have hdrop : b :: bytes
        = l.stream.buffer.drop (l.stream.bufferPos - 1) ++ utf8Text cs := by
      rw [List.drop_eq_getElem_cons hlt, hget, Nat.sub_add_cancel hpos,
        hbytes]
      rfl
    unfold streamUnget
    dsimp only
    right
    split_ifs
    · exact ⟨hstate, Nat.le_of_lt hlt, hnull, cs, tail, hcs, hdrop, hinput,
        hend⟩
    · exact ⟨hstate, Nat.le_of_lt hlt, hnull, cs, tail, hcs, hdrop, hinput,
        hend⟩
    · exact ⟨hstate, Nat.le_of_lt hlt, hnull, cs, tail, hcs, hdrop, hinput,
        hend⟩

/-- Putting a byte back leaves the saved text alone. -/
theorem streamUnget_saved (l : Lex ρ) (c : Got) :
    (streamUnget l c).savedText = l.savedText := by
  unfold streamUnget
  split <;> rfl

/-- Putting back a byte that was read and saved undoes both. -/
theorem lexUngetUnsave_at (hne : ∀ b, fin ≠ .byte b)
    (h : Next true fin bytes saved r) :
    (lexUngetUnsave r.2 r.1).At bytes fin saved := by
  cases h with
  | byte hat hbehind =>
      refine ⟨streamUnget_feeds hat.feeds hbehind, ?_⟩
      show (streamUnget _ _).savedText.dropLast = _
      rw [streamUnget_saved, hat.saved]
      exact List.dropLast_concat
  | fin hat =>
      cases fin with
      | byte b => exact absurd rfl (hne b)
      | eof => exact hat
      | error => exact hat

/-- There are no more bytes than are left. -/
theorem Lex.At.lt_left (h : l.At bytes fin saved) :
    bytes.length < l.left := by
  unfold Lex.left
  rcases h.feeds with ⟨rfl, -⟩ | ⟨-, -, -, cs, tail, -, rfl, hinput, -⟩
  · exact Nat.succ_pos _
  · rw [hinput, List.length_append, List.length_append, List.length_drop]
    omega

/-- A byte that was read is no longer counted as left. -/
theorem Next.le_left (h : Next save fin bytes saved r) :
    bytes.length ≤ r.2.left := by
  cases h with
  | byte hat _ => exact hat.lt_left
  | fin hat => exact Nat.zero_le _

/-- What has been got is the next byte, if there is one. -/
theorem Next.is_iff (hne : ∀ b, fin ≠ .byte b)
    (h : Next save fin bytes saved r) (p : UInt8 → Bool) :
    r.1.is p = true ↔ ∃ b ∈ bytes.head?, p b = true := by
  cases h with
  | byte hat _ => simp [Got.is]
  | fin hat =>
      cases fin with
      | byte b => exact absurd rfl (hne b)
      | eof => simp [Got.is]
      | error => simp [Got.is]

/-- Which byte was read is which one comes next. -/
theorem Next.eq_byte_iff (hne : ∀ b, fin ≠ .byte b)
    (h : Next save fin bytes saved r) :
    r.1 = .byte b ↔ bytes.head? = some b := by
  cases h with
  | byte hat _ => simp
  | fin hat => simp [hne b]

/-- Behind the byte that has been got. -/
theorem Next.at (h : Next save fin (b :: bytes) saved r) :
    r.1 = .byte b
      ∧ r.2.At bytes fin (if save then saved ++ [b] else saved) := by
  cases h with
  | byte hat _ => exact ⟨rfl, hat⟩

/-- A loop takes the bytes that pass its test. -/
theorem lexWhile_next {p : UInt8 → Bool} {get : Lex ρ → Got × Lex ρ}
    (hget : ∀ l bytes saved, Lex.At l bytes fin saved →
      Next save fin bytes saved (get l))
    (hne : ∀ b, fin ≠ .byte b) {n : Nat}
    (h : Next save fin bytes saved r) (hn : bytes.length ≤ n) :
    Next save fin (bytes.dropWhile p)
      (if save then saved ++ bytes.takeWhile p else saved)
      (lexWhile p get n r) := by
  induction n generalizing r bytes saved with
  | zero =>
      obtain rfl := List.length_eq_zero_iff.1 (Nat.le_zero.1 hn)
      simpa [lexWhile] using h
  | succ n ih =>
      rw [lexWhile]
      cases h with
      | @byte b rest _ l hat hbehind =>
          by_cases hp : p b = true
          · have hnext := ih (hget _ _ _ hat) (Nat.le_of_succ_le_succ hn)
            rw [if_pos (show (Got.byte b).is p = true from hp),
              List.dropWhile_cons_of_pos hp, List.takeWhile_cons_of_pos hp]
            cases save with
            | false => exact hnext
            | true =>
                simp only [if_true, List.append_assoc] at hnext ⊢
                exact hnext
          · rw [if_neg (show ¬ (Got.byte b).is p = true from hp),
              List.dropWhile_cons_of_neg hp, List.takeWhile_cons_of_neg hp]
            have hsame : Next save fin (b :: rest) saved (.byte b, l) :=
              .byte hat hbehind
            simpa using hsame
      | fin hat =>
          have hfin : (fin.is p) = false := by
            cases fin with
            | byte b => exact absurd rfl (hne b)
            | eof => rfl
            | error => rfl
          dsimp only
          rw [hfin, if_neg Bool.false_ne_true]
          have hsame : Next save fin [] saved (fin, _) := .fin hat
          simpa using hsame

end Position

end ProjectsLibs.Jansson
