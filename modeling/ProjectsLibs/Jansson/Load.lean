/-
The decoder of libjansson (load.c): the stream of bytes, the lexical
analyzer and the parser.

Memory and stack are taken to suffice. The functions that can fail set the
error, unless it has been set before; where the source has `NULL` or -1
there is `none` or `false` here.

# Bounds

- The nesting of values is limited by a number of calls, which is more than
  the bytes of the text; the source sets no limit but that of its stack.
- The position in the text of `json_loads` is an `int` in the source, so
  what is said here is about texts shorter than 2^31 bytes.
- `long` has `w` bits.
-/
import ProjectsLibs.Jansson.Utf
import ProjectsLibs.Jansson.Value

namespace ProjectsLibs.Jansson

variable {ρ : Type}

-- ============================================================== the stream

/-- `STREAM_STATE_OK`, `STREAM_STATE_EOF` and `STREAM_STATE_ERROR`. -/
inductive StreamState
  | ok
  | eof
  | error
  deriving DecidableEq

/-- `stream_t`; `input` are the bytes that `get` has yet to give. The bytes
of `buffer` end with the null byte, which is not written here. -/
structure Stream where
  input : List UInt8
  buffer : List UInt8
  bufferPos : Nat
  state : StreamState
  line : Int
  column : Int
  lastColumn : Int
  position : Nat

/-- What `stream_get` returns. -/
inductive Got
  | byte (c : UInt8)
  | eof
  | error
  deriving DecidableEq

/-- The tokens, with their values. -/
inductive Token (ρ : Type)
  | invalid
  | eof
  | char (c : UInt8)
  | string (val : List UInt8)
  | integer (val : Int)
  | real (val : ρ)
  | true
  | false
  | null

/-- `json_error_t`. -/
structure JsonError where
  text : List UInt8
  line : Int
  column : Int
  position : Nat

/-- `lex_t`, and the error that is handed to every function. -/
structure Lex (ρ : Type) where
  stream : Stream
  savedText : List UInt8
  token : Token ρ
  error : Option JsonError

/-- The text of an error, with what has been read for context. -/
def withContext (l : Lex ρ) (msg : List UInt8) : List UInt8 :=
  let saved := l.savedText.takeWhile (· ≠ 0)
  if saved ≠ [] then
    if l.savedText.length ≤ 20 then
      msg ++ ascii " near '" ++ saved ++ ascii "'"
    else msg
  else if l.stream.state = .error then msg
  else msg ++ ascii " near end of file"

/-- `error_set`. -/
def errorSet (l : Lex ρ) (msg : List UInt8) : Lex ρ :=
  match l.error with
  | some _ => l
  | none =>
      { l with
        error := some ⟨withContext l msg, l.stream.line, l.stream.column,
          l.stream.position⟩ }

/-- A digit of `"%x"`. -/
def hexDigit (n : Nat) : UInt8 :=
  UInt8.ofNat (if n < 10 then 0x30 + n else 0x61 + (n - 10))

/-- `"0x%x"`, of a byte. -/
def hexByte (c : UInt8) : List UInt8 :=
  ascii "0x" ++ if c.toNat < 16 then [hexDigit c.toNat]
    else [hexDigit (c.toNat / 16), hexDigit (c.toNat % 16)]

/-- The end of `stream_get`, which takes a byte from the buffer. -/
def streamTake (l : Lex ρ) : Got × Lex ρ :=
  let s := l.stream
  let c := s.buffer.getD s.bufferPos 0
  let s := { s with bufferPos := s.bufferPos + 1, position := s.position + 1 }
  let s :=
    if c = 0x0a then
      { s with line := s.line + 1, lastColumn := s.column, column := 0 }
    else if utf8CheckFirst c ≠ 0 then { s with column := s.column + 1 }
    else s
  (.byte c, { l with stream := s })

/-- The end of `stream_get` at bytes that are not UTF-8. -/
def streamOut (l : Lex ρ) (s : Stream) (c : UInt8) : Got × Lex ρ :=
  (.error, errorSet { l with stream := { s with state := .error } }
    (ascii "unable to decode byte " ++ hexByte c))

/-- `n` bytes from `get`, where the end of the file is the `char` -1. -/
def getBytes (n : Nat) (input : List UInt8) : List UInt8 :=
  input.take n ++ List.replicate (n - input.length) 0xff

/-- `stream_get`. -/
def streamGet (l : Lex ρ) : Got × Lex ρ :=
  let s := l.stream
  match s.state with
  | .eof => (.eof, l)
  | .error => (.error, l)
  | .ok =>
      if s.buffer.getD s.bufferPos 0 = 0 then
        match s.input with
        | [] => (.eof, { l with stream := { s with state := .eof } })
        | c :: input =>
            if 0x80 ≤ c.toNat then
              let count := utf8CheckFirst c
              if count = 0 then
                streamOut l { s with
                  input := input, buffer := [c], bufferPos := 0 } c
              else
                let buffer := c :: getBytes (count - 1) input
                let s := { s with
                  input := input.drop (count - 1)
                  buffer := buffer
                  bufferPos := 0 }
                if (utf8CheckFull buffer count).isNone then streamOut l s c
                else streamTake { l with stream := s }
            else
              streamTake { l with stream := { s with
                input := input, buffer := [c], bufferPos := 0 } }
      else streamTake l

/-- `stream_unget`. -/
def streamUnget (l : Lex ρ) (c : Got) : Lex ρ :=
  match c with
  | .byte c =>
      let s := l.stream
      let s := { s with position := s.position - 1 }
      let s :=
        if c = 0x0a then
          { s with line := s.line - 1, column := s.lastColumn }
        else if utf8CheckFirst c ≠ 0 then { s with column := s.column - 1 }
        else s
      { l with stream := { s with bufferPos := s.bufferPos - 1 } }
  | _ => l

-- ============================================================ the analyzer

/-- `lex_save`. -/
def lexSave (l : Lex ρ) (c : UInt8) : Lex ρ :=
  { l with savedText := l.savedText ++ [c] }

/-- `lex_get_save`. -/
def lexGetSave (l : Lex ρ) : Got × Lex ρ :=
  let r := streamGet l
  match r.1 with
  | .byte c => (.byte c, lexSave r.2 c)
  | c => (c, r.2)

/-- `lex_unget_unsave`. -/
def lexUngetUnsave (l : Lex ρ) (c : Got) : Lex ρ :=
  match c with
  | .byte _ =>
      let l := streamUnget l c
      { l with savedText := l.savedText.dropLast }
  | _ => l

/-- `lex_save_cached`. -/
def lexSaveCached (l : Lex ρ) : Lex ρ :=
  let s := l.stream
  let cached := (s.buffer.drop s.bufferPos).takeWhile (· ≠ 0)
  { l with
    savedText := l.savedText ++ cached
    stream := { s with
      bufferPos := s.bufferPos + cached.length
      position := s.position + cached.length } }

/-- `l_isdigit`. -/
def isDigit (c : UInt8) : Bool := 0x30 ≤ c ∧ c ≤ 0x39

/-- `l_isalpha`. -/
def isAlpha (c : UInt8) : Bool :=
  (0x41 ≤ c ∧ c ≤ 0x5a) ∨ (0x61 ≤ c ∧ c ≤ 0x7a)

/-- `l_isxdigit`. -/
def isXDigit (c : UInt8) : Bool :=
  isDigit c ∨ (0x41 ≤ c ∧ c ≤ 0x46) ∨ (0x61 ≤ c ∧ c ≤ 0x66)

/-- The blanks between tokens. -/
def isBlank (c : UInt8) : Bool :=
  c = 0x20 ∨ c = 0x09 ∨ c = 0x0a ∨ c = 0x0d

/-- A test of what has been got. -/
def Got.is (p : UInt8 → Bool) : Got → Bool
  | .byte c => p c
  | _ => false

/-- More than the bytes that are left. -/
def Lex.left (l : Lex ρ) : Nat :=
  l.stream.input.length + (l.stream.buffer.length - l.stream.bufferPos) + 1

/-- `while(p(c)) c = get(lex)`. -/
def lexWhile (p : UInt8 → Bool) (get : Lex ρ → Got × Lex ρ) :
    Nat → Got × Lex ρ → Got × Lex ρ
  | 0, r => r
  | n + 1, r => if r.1.is p then lexWhile p get n (get r.2) else r

section Strings

/-- The loop over the four digits of an escape. -/
def scanHex : Nat → Got × Lex ρ → Bool × Got × Lex ρ
  | 0, r => (true, r)
  | n + 1, r =>
      if r.1.is isXDigit then scanHex n (lexGetSave r.2) else (false, r)

/-- The characters that may be behind a backslash, without `u`. -/
def isEscape (c : UInt8) : Bool :=
  c = 0x22 ∨ c = 0x5c ∨ c = 0x2f ∨ c = 0x62 ∨ c = 0x66 ∨ c = 0x6e
    ∨ c = 0x72 ∨ c = 0x74

/-- The first loop of `lex_scan_string`, up to the quotation mark. -/
def scanChars : Nat → Got × Lex ρ → Bool × Lex ρ
  | 0, r => (false, r.2)
  | n + 1, (.error, l) => (false, l)
  | n + 1, (.eof, l) => (false, errorSet l (ascii "premature end of input"))
  | n + 1, (.byte c, l) =>
      if c = 0x22 then (true, l)
      else if c ≤ 0x1f then
        let l := lexUngetUnsave l (.byte c)
        (false, errorSet l
          (if c = 0x0a then ascii "unexpected newline"
            else ascii "control character " ++ hexByte c))
      else if c = 0x5c then
        let r := lexGetSave l
        if r.1 = .byte 0x75 then
          let r := scanHex 4 (lexGetSave r.2)
          if r.1 then scanChars n r.2
          else (false, errorSet r.2.2 (ascii "invalid escape"))
        else if r.1.is isEscape then scanChars n (lexGetSave r.2)
        else (false, errorSet r.2 (ascii "invalid escape"))
      else scanChars n (lexGetSave l)

/-- The number that a hexadecimal digit is; like the source it takes all
letters. -/
def hexValue (c : UInt8) : Option Nat :=
  if isDigit c then some (c.toNat - 0x30)
  else if 0x61 ≤ c ∧ c ≤ 0x7a then some (c.toNat - 0x61 + 10)
  else if 0x41 ≤ c ∧ c ≤ 0x5a then some (c.toNat - 0x41 + 10)
  else none

/-- The loop of `decode_unicode_escape`. -/
def decodeDigits (value : Nat) : List UInt8 → Option Nat
  | [] => some value
  | c :: rest =>
      match hexValue c with
      | none => none
      | some d => decodeDigits (value <<< 4 + d) rest

/-- `decode_unicode_escape`, of a text that begins with `u`. -/
def decodeUnicodeEscape (str : List UInt8) : Option Nat :=
  decodeDigits 0 ((str.drop 1).take 4)

/-- A digit of `"%X"`. -/
def upperHexDigit (n : Nat) : UInt8 :=
  UInt8.ofNat (if n < 10 then 0x30 + n else 0x41 + (n - 10))

/-- `"\\u%04X"`. -/
def unicodeEscape (n : Nat) : List UInt8 :=
  [0x5c, 0x75, upperHexDigit (n / 4096 % 16), upperHexDigit (n / 256 % 16),
    upperHexDigit (n / 16 % 16), upperHexDigit (n % 16)]

/-- What a short escape stands for. -/
def shortEscape (c : UInt8) : UInt8 :=
  if c = 0x62 then 0x08
  else if c = 0x66 then 0x0c
  else if c = 0x6e then 0x0a
  else if c = 0x72 then 0x0d
  else if c = 0x74 then 0x09
  else c

/-- The second loop of `lex_scan_string`, from `p` on: the value, or the
message of an error. -/
def unescape : Nat → List UInt8 → Except (List UInt8) (List UInt8)
  | 0, _ => .ok []
  | n + 1, p =>
      if p.getD 0 0 = 0x22 then .ok []
      else if p.getD 0 0 = 0x5c then
        let q := p.drop 1
        if q.getD 0 0 = 0x75 then
          match decodeUnicodeEscape q with
          | none =>
              .error (ascii "invalid Unicode escape '" ++ p.take 6
                ++ ascii "'")
          | some value =>
              let q := q.drop 5
              if 0xd800 ≤ value ∧ value ≤ 0xdbff then
                if q.getD 0 0 = 0x5c ∧ q.getD 1 0 = 0x75 then
                  match decodeUnicodeEscape (q.drop 1) with
                  | none =>
                      .error (ascii "invalid Unicode escape '" ++ q.take 6
                        ++ ascii "'")
                  | some value2 =>
                      if 0xdc00 ≤ value2 ∧ value2 ≤ 0xdfff then
                        let value := (value - 0xd800) <<< 10
                          + (value2 - 0xdc00) + 0x10000
                        (((utf8Encode value).getD []) ++ ·) <$>
                          unescape n (q.drop 6)
                      else
                        .error (ascii "invalid Unicode '"
                          ++ unicodeEscape value ++ unicodeEscape value2
                          ++ ascii "'")
                else
                  .error (ascii "invalid Unicode '" ++ unicodeEscape value
                    ++ ascii "'")
              else if 0xdc00 ≤ value ∧ value ≤ 0xdfff then
                .error (ascii "invalid Unicode '" ++ unicodeEscape value
                  ++ ascii "'")
              else
                (((utf8Encode value).getD []) ++ ·) <$> unescape n q
        else
          (shortEscape (q.getD 0 0) :: ·) <$> unescape n (q.drop 1)
      else (p.getD 0 0 :: ·) <$> unescape n (p.drop 1)

/-- `lex_scan_string`. -/
def lexScanString (l : Lex ρ) : Lex ρ :=
  let r := lexGetSave { l with token := .invalid }
  let r := scanChars r.2.left r
  if r.1 = false then r.2
  else
    match unescape r.2.savedText.length (r.2.savedText.drop 1) with
    | .error msg => errorSet r.2 msg
    | .ok val => { r.2 with token := .string val }

end Strings

section Numbers

variable (w : Nat) (lib : Doubles ρ)

/-- The number that digits are. -/
def digitsValue (digits : List UInt8) : Nat :=
  digits.foldl (fun n c => 10 * n + (c.toNat - 0x30)) 0

/-- The number that `strtol` reads, if it does not overflow. -/
def strtol (text : List UInt8) : Option Int :=
  let value : Int :=
    if text.headD 0 = 0x2d then -(digitsValue (text.drop 1))
    else digitsValue text
  if -(2 ^ (w - 1)) ≤ value ∧ value < 2 ^ (w - 1) then some value else none

/-- `lex_scan_number` at the end of an integer. -/
def scanInteger (r : Got × Lex ρ) : Bool × Lex ρ :=
  let l := lexUngetUnsave r.2 r.1
  match strtol w l.savedText with
  | none =>
      (false, errorSet l
        (if l.savedText.headD 0 = 0x2d then ascii "too big negative integer"
          else ascii "too big integer"))
  | some value => (true, { l with token := .integer value })

/-- The fraction, behind its point. -/
def scanFraction (l : Lex ρ) : Bool × Got × Lex ρ :=
  let r := streamGet l
  match r.1 with
  | .byte c =>
      if isDigit c then
        let r := lexGetSave (lexSave r.2 c)
        (true, lexWhile isDigit lexGetSave r.2.left r)
      else (false, .byte c, streamUnget r.2 (.byte c))
  | c => (false, c, streamUnget r.2 c)

/-- The exponent, behind its `E`. -/
def scanExponent (l : Lex ρ) : Bool × Got × Lex ρ :=
  let r := lexGetSave l
  let r := if r.1 = .byte 0x2b ∨ r.1 = .byte 0x2d then lexGetSave r.2 else r
  if r.1.is isDigit then
    let r := lexGetSave r.2
    (true, lexWhile isDigit lexGetSave r.2.left r)
  else (false, r.1, lexUngetUnsave r.2 r.1)

/-- `lex_scan_number` at the end of a real number. -/
def scanReal (r : Got × Lex ρ) : Bool × Lex ρ :=
  let l := lexUngetUnsave r.2 r.1
  match lib.strtod l.savedText with
  | none => (false, errorSet l (ascii "real number overflow"))
  | some value => (true, { l with token := .real value })

/-- `lex_scan_number` behind the fraction, or where there is none. -/
def scanPower (r : Got × Lex ρ) : Bool × Lex ρ :=
  if r.1 = .byte 0x45 ∨ r.1 = .byte 0x65 then
    let e := scanExponent r.2
    if e.1 = false then (false, e.2.2) else scanReal lib e.2
  else scanReal lib r

/-- `lex_scan_number` behind the digits of the integer. -/
def scanRest (r : Got × Lex ρ) : Bool × Lex ρ :=
  if r.1 ≠ .byte 0x2e ∧ r.1 ≠ .byte 0x45 ∧ r.1 ≠ .byte 0x65 then
    scanInteger w r
  else if r.1 = .byte 0x2e then
    let f := scanFraction r.2
    if f.1 = false then (false, f.2.2) else scanPower lib f.2
  else scanPower lib r

/-- `lex_scan_number`. -/
def lexScanNumber (l : Lex ρ) (c : UInt8) : Bool × Lex ρ :=
  let l := { l with token := .invalid }
  let r := if c = 0x2d then lexGetSave l else (.byte c, l)
  if r.1 = .byte 0x30 then
    let r := lexGetSave r.2
    if r.1.is isDigit then (false, lexUngetUnsave r.2 r.1)
    else scanRest w lib r
  else if r.1.is isDigit then
    let r := lexGetSave r.2
    scanRest w lib (lexWhile isDigit lexGetSave r.2.left r)
  else (false, lexUngetUnsave r.2 r.1)

/-- The names that `lex_scan` knows. -/
def nameToken (name : List UInt8) : Token ρ :=
  if name = ascii "true" then .true
  else if name = ascii "false" then .false
  else if name = ascii "null" then .null
  else .invalid

/-- The characters that are tokens. -/
def isPunctuation (c : UInt8) : Bool :=
  c = 0x7b ∨ c = 0x7d ∨ c = 0x5b ∨ c = 0x5d ∨ c = 0x3a ∨ c = 0x2c

/-- `lex_scan` at what comes behind the blanks. -/
def lexToken (r : Got × Lex ρ) : Lex ρ :=
  match r.1 with
  | .eof => { r.2 with token := .eof }
  | .error => { r.2 with token := .invalid }
  | .byte c =>
      let l := lexSave r.2 c
      if isPunctuation c then { l with token := .char c }
      else if c = 0x22 then lexScanString l
      else if isDigit c ∨ c = 0x2d then (lexScanNumber w lib l c).2
      else if isAlpha c then
        let r := lexGetSave l
        let r := lexWhile isAlpha lexGetSave r.2.left r
        let l := lexUngetUnsave r.2 r.1
        { l with token := nameToken (l.savedText.takeWhile (· ≠ 0)) }
      else { lexSaveCached l with token := .invalid }

/-- `lex_scan`. -/
def lexScan (l : Lex ρ) : Lex ρ :=
  let r := streamGet { l with savedText := [] }
  lexToken w lib (lexWhile isBlank streamGet r.2.left r)

end Numbers

-- ============================================================== the parser

/-- The flags of the decoder. -/
structure LoadFlags where
  rejectDuplicates : Bool
  disableEofCheck : Bool
  decodeAny : Bool
  decodeIntAsReal : Bool
  allowNul : Bool

section Parser

variable (w : Nat) (lib : Doubles ρ) (flags : LoadFlags)

mutual

/-- `parse_object` behind the first token: a member, and what comes
behind it. -/
def parseMembers : Nat → Members ρ → Lex ρ → Option (Json ρ) × Lex ρ
  | 0, _, l => (none, l)
  | n + 1, members, l =>
      match l.token with
      | .string key =>
          if 0 ∈ key then
            (none, errorSet l
              (ascii "NUL byte in object key not supported"))
          else if flags.rejectDuplicates ∧ (objectGet members key).isSome then
            (none, errorSet l (ascii "duplicate object key"))
          else
            let l := lexScan w lib l
            match l.token with
            | .char 0x3a =>
                match parseValue n (lexScan w lib l) with
                | (none, l) => (none, l)
                | (some value, l) =>
                    let members := objectSet members key value
                    let l := lexScan w lib l
                    match l.token with
                    | .char 0x2c => parseMembers n members (lexScan w lib l)
                    | .char 0x7d => (some (.object members), l)
                    | _ => (none, errorSet l (ascii "'\x7d' expected"))
            | _ => (none, errorSet l (ascii "':' expected"))
      | _ => (none, errorSet l (ascii "string or '\x7d' expected"))

/-- `parse_array` behind the first token: an element, and what comes
behind it. -/
def parseElements : Nat → List (Json ρ) → Lex ρ →
    Option (Json ρ) × Lex ρ
  | 0, _, l => (none, l)
  | n + 1, elements, l =>
      match l.token with
      | .eof => (none, errorSet l (ascii "']' expected"))
      | _ =>
          match parseValue n l with
          | (none, l) => (none, l)
          | (some elem, l) =>
              let l := lexScan w lib l
              match l.token with
              | .char 0x2c =>
                  parseElements n (elements ++ [elem]) (lexScan w lib l)
              | .char 0x5d => (some (.array (elements ++ [elem])), l)
              | _ => (none, errorSet l (ascii "']' expected"))

/-- `parse_value`, with `parse_object` and `parse_array`. -/
def parseValue : Nat → Lex ρ → Option (Json ρ) × Lex ρ
  | 0, l => (none, l)
  | n + 1, l =>
      match l.token with
      | .string value =>
          if flags.allowNul = false ∧ 0 ∈ value then
            (none, errorSet l
              (ascii "\\u0000 is not allowed without JSON_ALLOW_NUL"))
          else (some (.string value), l)
      | .integer value =>
          if flags.decodeIntAsReal then
            match lib.strtod l.savedText with
            | none => (none, errorSet l (ascii "real number overflow"))
            | some value => (some (.real value), l)
          else (some (.integer value), l)
      | .real value => (some (.real value), l)
      | .true => (some .true, l)
      | .false => (some .false, l)
      | .null => (some .null, l)
      | .char 0x7b =>
          let l := lexScan w lib l
          match l.token with
          | .char 0x7d => (some (.object []), l)
          | _ => parseMembers n [] l
      | .char 0x5b =>
          let l := lexScan w lib l
          match l.token with
          | .char 0x5d => (some (.array []), l)
          | _ => parseElements n [] l
      | .invalid => (none, errorSet l (ascii "invalid token"))
      | _ => (none, errorSet l (ascii "unexpected token"))

end

/-- The token begins an array or an object. -/
def beginsContainer : Token ρ → Bool
  | .char c => c = 0x5b ∨ c = 0x7b
  | _ => false

/-- `parse_json`, without the position that is saved where there was no
error. -/
def parseJson (n : Nat) (l : Lex ρ) : Option (Json ρ) × Lex ρ :=
  let l := lexScan w lib l
  if flags.decodeAny = false ∧ beginsContainer l.token = false then
    (none, errorSet l (ascii "'[' or '\x7b' expected"))
  else
    match parseValue w lib flags n l with
    | (none, l) => (none, l)
    | (some result, l) =>
        if flags.disableEofCheck then (some result, l)
        else
          let l := lexScan w lib l
          match l.token with
          | .eof => (some result, l)
          | _ => (none, errorSet l (ascii "end of file expected"))

/-- `lex_init`, at the beginning of a text. -/
def lexInit (input : List UInt8) : Lex ρ :=
  ⟨⟨input, [], 0, .ok, 1, 0, 0, 0⟩, [], .invalid, none⟩

/-- `json_loadb`: the value, the error, and the position behind what has
been read. -/
def jsonLoadb (buffer : List UInt8) :
    Option (Json ρ) × Option JsonError × Nat :=
  let r := parseJson w lib flags (buffer.length + 1) (lexInit buffer)
  (r.1, r.2.error, r.2.stream.position)

/-- `json_loads`: the text ends at the first null byte, and is shorter
than 2^31 bytes. -/
def jsonLoads (string : List UInt8) :
    Option (Json ρ) × Option JsonError × Nat :=
  jsonLoadb w lib flags (string.takeWhile (· ≠ 0))

end Parser

end ProjectsLibs.Jansson
