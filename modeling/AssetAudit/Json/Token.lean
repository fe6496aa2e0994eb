import AssetAudit.Json

/-!
# JSON tokens

A JSON text is a sequence of tokens, with blanks between them as one likes.  The reader takes the
text one character at a time.  Between tokens, and inside a string, its state says what may come;
what is neither blank nor punctuation nor part of a string belongs to a *word*, which ends at the
next character that cannot continue it and must then be a number or one of the three names.

Strings are kept as the units in which they are written, and only a finished string is turned into
the text that it denotes, because two escapes together may denote one character.
-/

namespace AssetAudit
namespace Json

/-- The tokens of JSON. -/
inductive Token where
  | openBrace
  | closeBrace
  | openBracket
  | closeBracket
  | colon
  | comma
  | null
  | bool (value : Bool)
  | number (value : Number)
  | string (value : Literal)
  deriving DecidableEq, Repr

/-! ## Numbers -/

namespace Number

/-- The value of a digit. -/
def digit (c : Char) : Fin 10 := Fin.ofNat 10 (c.toNat - '0'.toNat)

/-- The number that digits denote. -/
def ofDigits (digits : List Char) : Nat :=
  digits.foldl (fun n c => 10 * n + (digit c).val) 0

/-- The whole part: a single zero, or digits that start with another one. -/
def whole? : List Char → Option Nat
  | [] => none
  | '0' :: _ :: _ => none
  | digits => some (ofDigits digits)

/-- The power of ten, after its letter: a sign that may be missing, and at least one digit. -/
def exponent? (text : List Char) : Option Int :=
  let (negative, digits) : Bool × List Char :=
    match text with
    | '-' :: rest => (true, rest)
    | '+' :: rest => (false, rest)
    | rest => (false, rest)
  if digits.isEmpty || !digits.all Char.isDigit then none
  else if negative then some (-(ofDigits digits : Int))
  else some (ofDigits digits : Int)

/-- What may follow the whole part and the decimals. -/
def withExponent? (negative : Bool) (whole : Nat) (decimals : List Char) :
    List Char → Option Number
  | [] => some ⟨negative, whole, decimals.map digit, none⟩
  | c :: rest =>
      if c = 'e' ∨ c = 'E' then
        (exponent? rest).map fun e => ⟨negative, whole, decimals.map digit, some e⟩
      else none

/-- What may follow the whole part: a point with at least one digit behind it. -/
def withDecimals? (negative : Bool) (whole : Nat) : List Char → Option Number
  | '.' :: rest =>
      let decimals := rest.takeWhile Char.isDigit
      if decimals.isEmpty then none
      else withExponent? negative whole decimals (rest.dropWhile Char.isDigit)
  | rest => withExponent? negative whole [] rest

/-- Reads a number without its sign. -/
def unsigned? (negative : Bool) (text : List Char) : Option Number :=
  (whole? (text.takeWhile Char.isDigit)).bind fun whole =>
    withDecimals? negative whole (text.dropWhile Char.isDigit)

/-- Reads a number. -/
def ofText? : List Char → Option Number
  | '-' :: rest => unsigned? true rest
  | text => unsigned? false text

end Number

/-! ## Strings -/

/-- What a string literal is written with. -/
inductive StringUnit where
  /-- A character that stands for itself, or its short escape. -/
  | char (c : Char)
  /-- An escape by number: a character, or half of one. -/
  | code (n : Nat)
  deriving DecidableEq, Repr

namespace StringUnit

/-- The first halves of surrogate pairs. -/
def isHigh (n : Nat) : Bool := 0xD800 ≤ n && n < 0xDC00

/-- The second halves of surrogate pairs. -/
def isLow (n : Nat) : Bool := 0xDC00 ≤ n && n < 0xE000

/-- The character that two halves denote together. -/
def paired (high low : Nat) : Char :=
  Char.ofNat (0x10000 + (high - 0xD800) * 0x400 + (low - 0xDC00))

/-- The text that units denote; a half without its other half denotes none. -/
def decode : List StringUnit → Option (List Char)
  | [] => some []
  | .char c :: rest => (decode rest).map (c :: ·)
  | .code high :: .code low :: rest =>
      if isHigh high && isLow low then (decode rest).map (paired high low :: ·)
      else if isHigh high || isLow high then none
      else (decode (.code low :: rest)).map (Char.ofNat high :: ·)
  | .code n :: rest =>
      if isHigh n || isLow n then none else (decode rest).map (Char.ofNat n :: ·)

/-- The literal that units write. -/
def literal (units : List StringUnit) : Literal := (decode units).map String.ofList

end StringUnit

/-- The character that a short escape stands for. -/
def shortEscape? : Char → Option Char
  | '"' => some '"'
  | '\\' => some '\\'
  | '/' => some '/'
  | 'b' => some '\x08'
  | 'f' => some '\x0c'
  | 'n' => some '\n'
  | 'r' => some '\r'
  | 't' => some '\t'
  | _ => none

/-- The value of a hexadecimal digit. -/
def hexDigit? (c : Char) : Option Nat :=
  if '0' ≤ c ∧ c ≤ '9' then some (c.toNat - '0'.toNat)
  else if 'a' ≤ c ∧ c ≤ 'f' then some (c.toNat - 'a'.toNat + 10)
  else if 'A' ≤ c ∧ c ≤ 'F' then some (c.toNat - 'A'.toNat + 10)
  else none

/-! ## Reading -/

/-- The blanks of JSON. -/
def isBlank (c : Char) : Bool :=
  c == ' ' || c == '\t' || c == '\n' || c == '\r'

/-- The token that a single character is. -/
def punctuation? : Char → Option Token
  | '\x7b' => some .openBrace
  | '\x7d' => some .closeBrace
  | '[' => some .openBracket
  | ']' => some .closeBracket
  | ':' => some .colon
  | ',' => some .comma
  | _ => none

/-- The token that a word is. -/
def word? (word : List Char) : Option Token :=
  if word = "null".toList then some .null
  else if word = "true".toList then some (.bool true)
  else if word = "false".toList then some (.bool false)
  else (Number.ofText? word).map .number

namespace Token

/-- Where a reader stands.  Parts of an unfinished token are kept in reverse. -/
inductive Place where
  /-- Between tokens. -/
  | between
  /-- Inside a word. -/
  | word (read : List Char)
  /-- Inside a string. -/
  | string (read : List StringUnit)
  /-- Inside a string, behind a backslash. -/
  | escape (read : List StringUnit)
  /-- Inside a string, behind `digits` digits of an escape by number. -/
  | code (read : List StringUnit) (digits value : Nat)
  deriving DecidableEq, Repr

/-- A reader: the tokens so far, in reverse, and where it stands. -/
structure Reader where
  tokens : List Token
  place : Place
  deriving DecidableEq, Repr

namespace Reader

/-- A reader that has read nothing. -/
def start : Reader := ⟨[], .between⟩

/-- Takes a character between tokens. -/
def beginToken (tokens : List Token) (c : Char) : Reader :=
  if isBlank c then ⟨tokens, .between⟩
  else if c = '"' then ⟨tokens, .string []⟩
  else
    match punctuation? c with
    | some token => ⟨token :: tokens, .between⟩
    | none => ⟨tokens, .word [c]⟩

/-- The characters that end a word. -/
def endsWord (c : Char) : Bool :=
  isBlank c || c == '"' || (punctuation? c).isSome

/-- Takes one character. -/
def step (r : Reader) (c : Char) : Option Reader :=
  match r.place with
  | .between => some (beginToken r.tokens c)
  | .word read =>
      if endsWord c then
        (word? read.reverse).map fun token => beginToken (token :: r.tokens) c
      else some ⟨r.tokens, .word (c :: read)⟩
  | .string read =>
      if c = '"' then some ⟨.string (StringUnit.literal read.reverse) :: r.tokens, .between⟩
      else if c = '\\' then some ⟨r.tokens, .escape read⟩
      else if c.toNat < 0x20 then none
      else some ⟨r.tokens, .string (.char c :: read)⟩
  | .escape read =>
      if c = 'u' then some ⟨r.tokens, .code read 0 0⟩
      else (shortEscape? c).map fun d => ⟨r.tokens, .string (.char d :: read)⟩
  | .code read digits value =>
      (hexDigit? c).map fun d =>
        if digits = 3 then ⟨r.tokens, .string (.code (16 * value + d) :: read)⟩
        else ⟨r.tokens, .code read (digits + 1) (16 * value + d)⟩

/-- The tokens of a text that ends here. -/
def finish (r : Reader) : Option (List Token) :=
  match r.place with
  | .between => some r.tokens.reverse
  | .word read => (word? read.reverse).map fun token => (token :: r.tokens).reverse
  | _ => none

end Reader

/-- The tokens of a text, if it is made of tokens. -/
def ofText? (text : List Char) : Option (List Token) :=
  (text.foldlM Reader.step Reader.start).bind Reader.finish

end Token

end Json
end AssetAudit
