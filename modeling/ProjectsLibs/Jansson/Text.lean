/-
JSON text, said without the code: which bytes stand for which value.

A text is in UTF-8 and is taken apart into tokens, with blanks between
them (`Lexes`); the tokens of a value are a function of it (`tokensOf`).
A number or a name ends where it cannot go on, so that `Lexeme` is also
about the bytes behind a token. Escapes that stand for surrogates come in
pairs; other escapes of surrogates are not allowed.

The members of an object are as they stand in the text. Where a key comes
again its last value counts, in the place of the first (`build`).
-/
import ProjectsLibs.Jansson.Load

namespace ProjectsLibs.Jansson

open Lib

variable {ρ : Type}

-- ============================================================== strings

/-- Escapes of two characters, with the byte that each stands for. -/
def shortEscapes : List (UInt8 × UInt8) :=
  [(0x22, 0x22), (0x5c, 0x5c), (0x2f, 0x2f), (0x62, 0x08), (0x66, 0x0c),
    (0x6e, 0x0a), (0x72, 0x0d), (0x74, 0x09)]

/-- The value of a hexadecimal digit. -/
inductive HexDigit : UInt8 → Nat → Prop
  | digit {c : UInt8} : 0x30 ≤ c.toNat → c.toNat ≤ 0x39 →
      HexDigit c (c.toNat - 0x30)
  | upper {c : UInt8} : 0x41 ≤ c.toNat → c.toNat ≤ 0x46 →
      HexDigit c (c.toNat - 0x41 + 10)
  | lower {c : UInt8} : 0x61 ≤ c.toNat → c.toNat ≤ 0x66 →
      HexDigit c (c.toNat - 0x61 + 10)

/-- `\uXXXX` for a number of 16 bits. -/
inductive Unit16 : List UInt8 → Nat → Prop
  | mk {a b c d : UInt8} {i j k l : Nat} : HexDigit a i → HexDigit b j →
      HexDigit c k → HexDigit d l →
      Unit16 [0x5c, 0x75, a, b, c, d] (((i * 16 + j) * 16 + k) * 16 + l)

/-- The bytes between the quotation marks of a string. -/
inductive Chars : List UInt8 → List UInt8 → Prop
  | nil : Chars [] []
  | plain {b : UInt8} {value raw : List UInt8} :
      0x20 ≤ b.toNat → b ≠ 0x22 → b ≠ 0x5c → Chars value raw →
      Chars (b :: value) (b :: raw)
  | short {c b : UInt8} {value raw : List UInt8} :
      (c, b) ∈ shortEscapes → Chars value raw →
      Chars (b :: value) (0x5c :: c :: raw)
  | unit {u : List UInt8} {n : Nat} {value raw : List UInt8} :
      Unit16 u n → Scalar n → Chars value raw →
      Chars (utf8 n ++ value) (u ++ raw)
  | pair {u v : List UInt8} {n m : Nat} {value raw : List UInt8} :
      Unit16 u n → Unit16 v m → 0xd800 ≤ n → n < 0xdc00 →
        0xdc00 ≤ m →
      m < 0xe000 → Chars value raw →
      Chars (utf8 (0x10000 + (n - 0xd800) * 0x400 + (m - 0xdc00)) ++ value)
        (u ++ (v ++ raw))

-- =============================================================== numbers

/-- Decimal digits, at least one. -/
def Digits (digits : List UInt8) : Prop :=
  digits ≠ [] ∧ ∀ c ∈ digits, isDigit c = true

/-- The digits of an integer, which do not begin with a zero if they are
more than one. -/
def IntDigits (digits : List UInt8) : Prop :=
  Digits digits ∧ (digits.head? = some 0x30 → digits = [0x30])

/-- An integer. -/
inductive IntText : Int → List UInt8 → Prop
  | pos {digits : List UInt8} : IntDigits digits →
      IntText (digitsValue digits) digits
  | neg {digits : List UInt8} : IntDigits digits →
      IntText (-(digitsValue digits)) (0x2d :: digits)

/-- A fraction. -/
def Fraction (text : List UInt8) : Prop :=
  ∃ digits, Digits digits ∧ text = 0x2e :: digits

/-- An exponent. -/
def Exponent (text : List UInt8) : Prop :=
  ∃ e sign digits, (e = 0x45 ∨ e = 0x65)
    ∧ (sign = [] ∨ sign = [0x2b] ∨ sign = [0x2d]) ∧ Digits digits
    ∧ text = e :: (sign ++ digits)

/-- A number that is no integer, and whether it has an exponent. -/
inductive RealText : List UInt8 → Bool → Prop
  | fraction {i : Int} {int frac : List UInt8} : IntText i int →
      Fraction frac → RealText (int ++ frac) false
  | exponent {i : Int} {int exp : List UInt8} : IntText i int →
      Exponent exp → RealText (int ++ exp) true
  | both {i : Int} {int frac exp : List UInt8} : IntText i int →
      Fraction frac → Exponent exp → RealText (int ++ (frac ++ exp)) true

-- ================================================================ tokens

/-- The text that comes next does not begin with such a byte. -/
def Stops (p : UInt8 → Bool) (rest : List UInt8) : Prop :=
  ∀ c ∈ rest.head?, p c = false

/-- A byte with which an integer would go on. -/
def goesOn (c : UInt8) : Bool :=
  isDigit c ∨ c = 0x2e ∨ c = 0x45 ∨ c = 0x65

/-- A byte with which a fraction would go on. -/
def fractionGoesOn (c : UInt8) : Bool := isDigit c ∨ c = 0x45 ∨ c = 0x65

/-- The bytes of a token, where others come behind it. -/
inductive Lexeme (w : Nat) (lib : Doubles ρ) :
    Token ρ → List UInt8 → List UInt8 → Prop
  | char {c : UInt8} {rest : List UInt8} : isPunctuation c = true →
      Lexeme w lib (.char c) [c] rest
  | string {value raw rest : List UInt8} : Chars value raw →
      Lexeme w lib (.string value) (0x22 :: (raw ++ [0x22])) rest
  | integer {i : Int} {raw rest : List UInt8} : IntText i raw →
      -(2 ^ (w - 1)) ≤ i → i < 2 ^ (w - 1) → Stops goesOn rest →
      Lexeme w lib (.integer i) raw rest
  | fraction {d : ρ} {raw rest : List UInt8} : RealText raw false →
      lib.strtod raw = some d → Stops fractionGoesOn rest →
      Lexeme w lib (.real d) raw rest
  | exponent {d : ρ} {raw rest : List UInt8} : RealText raw true →
      lib.strtod raw = some d → Stops isDigit rest →
      Lexeme w lib (.real d) raw rest
  | true {rest : List UInt8} : Stops isAlpha rest →
      Lexeme w lib .true (ascii "true") rest
  | false {rest : List UInt8} : Stops isAlpha rest →
      Lexeme w lib .false (ascii "false") rest
  | null {rest : List UInt8} : Stops isAlpha rest →
      Lexeme w lib .null (ascii "null") rest

/-- Blanks. -/
def Blank (bytes : List UInt8) : Prop := ∀ c ∈ bytes, isBlank c = true

/-- The first text begins with the tokens, and the second comes behind
them. -/
inductive Lexes (w : Nat) (lib : Doubles ρ) :
    List (Token ρ) → List UInt8 → List UInt8 → Prop
  | nil {bytes : List UInt8} : Lexes w lib [] bytes bytes
  | cons {t : Token ρ} {ts : List (Token ρ)}
      {blank raw bytes rest : List UInt8} :
      Blank blank → Lexeme w lib t raw bytes → Lexes w lib ts bytes rest →
      Lexes w lib (t :: ts) (blank ++ (raw ++ bytes)) rest

-- ================================================================ values

mutual

/-- The tokens of a value. -/
def tokensOf : Json ρ → List (Token ρ)
  | .object [] => [.char 0x7b, .char 0x7d]
  | .object ((key, value) :: members) =>
      .char 0x7b :: .string key :: .char 0x3a :: (tokensOf value
        ++ memberTokens members)
  | .array [] => [.char 0x5b, .char 0x5d]
  | .array (elem :: elements) =>
      .char 0x5b :: (tokensOf elem ++ elementTokens elements)
  | .string value => [.string value]
  | .integer value => [.integer value]
  | .real value => [.real value]
  | .true => [.true]
  | .false => [.false]
  | .null => [.null]

/-- The tokens behind a member. -/
def memberTokens : List (List UInt8 × Json ρ) → List (Token ρ)
  | [] => [.char 0x7d]
  | (key, value) :: members =>
      .char 0x2c :: .string key :: .char 0x3a :: (tokensOf value
        ++ memberTokens members)

/-- The tokens behind an element. -/
def elementTokens : List (Json ρ) → List (Token ρ)
  | [] => [.char 0x5d]
  | elem :: elements =>
      .char 0x2c :: (tokensOf elem ++ elementTokens elements)

end

mutual

/-- The value that a text builds. -/
def build : Json ρ → Json ρ
  | .object members => .object (buildMembers [] members)
  | .array elements => .array (buildElements elements)
  | j => j

/-- Members that are set one after the other. -/
def buildMembers (done : Members ρ) :
    List (List UInt8 × Json ρ) → Members ρ
  | [] => done
  | (key, value) :: members =>
      buildMembers (objectSet done key (build value)) members

/-- The elements in turn. -/
def buildElements : List (Json ρ) → List (Json ρ)
  | [] => []
  | elem :: elements => build elem :: buildElements elements

end

mutual

/-- What the decoder does not refuse: keys without null bytes, strings
without them unless they are allowed, and keys that come only once where
others are rejected. -/
def Allowed (flags : LoadFlags) : Json ρ → Prop
  | .object members =>
      (∀ m ∈ members, 0 ∉ m.1)
        ∧ (flags.rejectDuplicates = Bool.true →
          (members.map Prod.fst).Nodup)
        ∧ AllowedMembers flags members
  | .array elements => AllowedElements flags elements
  | .string value => flags.allowNul = Bool.true ∨ 0 ∉ value
  | _ => True

def AllowedMembers (flags : LoadFlags) :
    List (List UInt8 × Json ρ) → Prop
  | [] => True
  | (_, value) :: members =>
      Allowed flags value ∧ AllowedMembers flags members

def AllowedElements (flags : LoadFlags) : List (Json ρ) → Prop
  | [] => True
  | elem :: elements => Allowed flags elem ∧ AllowedElements flags elements

end

/-- An array or an object. -/
def IsContainer : Json ρ → Prop
  | .object _ => True
  | .array _ => True
  | _ => False

/-- The bytes are a text of the value, with blanks around it. -/
def Text (w : Nat) (lib : Doubles ρ) (j : Json ρ) (bytes : List UInt8) :
    Prop :=
  IsUtf8 bytes ∧ ∃ rest, Lexes w lib (tokensOf j) bytes rest ∧ Blank rest

end ProjectsLibs.Jansson
