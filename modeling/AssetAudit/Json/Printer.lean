import AssetAudit.Json

/-!
# Writing JSON

A value is written either without any blanks, or over several lines with an indentation of two
spaces.  Empty containers are written as two brackets in both forms.

In a string, quotes, backslashes and control characters are escaped, control characters by their
short escape if they have one; everything else is written as it is.  A literal that denotes no text
is written as one lone surrogate.
-/

namespace AssetAudit
namespace Json

/-! ## Strings and numbers -/

/-- A hexadecimal digit, in small letters. -/
def hexDigit (n : Nat) : Char := Nat.digitChar n

/-- How a character is written inside a string. -/
def escaped (c : Char) : String :=
  if c = '"' then "\\\""
  else if c = '\\' then "\\\\"
  else if c = '\x08' then "\\b"
  else if c = '\t' then "\\t"
  else if c = '\n' then "\\n"
  else if c = '\x0c' then "\\f"
  else if c = '\r' then "\\r"
  else if c.toNat < 0x20 then
    "\\u00" ++ String.ofList [hexDigit (c.toNat / 16), hexDigit (c.toNat % 16)]
  else c.toString

/-- A text as a string literal. -/
def quoted (s : String) : String :=
  "\"" ++ String.join (s.toList.map escaped) ++ "\""

/-- A literal as it can be written. -/
def printLiteral : Literal → String
  | some s => quoted s
  | none => "\"\\ud800\""

/-- A number with its sign, decimals and power of ten. -/
def Number.print (n : Number) : String :=
  (if n.negative then "-" else "") ++ toString n.whole ++
    (if n.decimals.isEmpty then ""
      else "." ++ String.ofList (n.decimals.map fun d => Nat.digitChar d.val)) ++
    (match n.exponent with
      | none => ""
      | some e => "e" ++ toString e)

/-! ## Without blanks -/

mutual

/-- A value without blanks. -/
def compact : Json → String
  | .null => "null"
  | .bool true => "true"
  | .bool false => "false"
  | .number n => n.print
  | .string s => printLiteral s
  | .array items => "[" ++ compactItems items ++ "]"
  | .object members => "\x7b" ++ compactMembers members ++ "\x7d"

/-- Items with commas between them. -/
def compactItems : List Json → String
  | [] => ""
  | [v] => v.compact
  | v :: vs => v.compact ++ "," ++ compactItems vs

/-- Members with commas between them. -/
def compactMembers : List (Literal × Json) → String
  | [] => ""
  | [(key, v)] => printLiteral key ++ ":" ++ v.compact
  | (key, v) :: rest => printLiteral key ++ ":" ++ v.compact ++ "," ++ compactMembers rest

end

/-! ## Over several lines -/

/-- The start of a line at a depth of nesting. -/
def newLine (depth : Nat) : String :=
  "\n" ++ String.ofList (List.replicate (2 * depth) ' ')

mutual

/-- A value over several lines; the lines after the first are indented by `depth` steps. -/
def prettyAt (depth : Nat) : Json → String
  | .null => "null"
  | .bool true => "true"
  | .bool false => "false"
  | .number n => n.print
  | .string s => printLiteral s
  | .array [] => "[]"
  | .array (v :: vs) =>
      "[" ++ prettyItems (depth + 1) (v :: vs) ++ newLine depth ++ "]"
  | .object [] => "\x7b\x7d"
  | .object (m :: ms) =>
      "\x7b" ++ prettyMembers (depth + 1) (m :: ms) ++ newLine depth ++ "\x7d"

/-- Items, each on lines of its own. -/
def prettyItems (depth : Nat) : List Json → String
  | [] => ""
  | [v] => newLine depth ++ prettyAt depth v
  | v :: vs => newLine depth ++ prettyAt depth v ++ "," ++ prettyItems depth vs

/-- Members, each on lines of its own. -/
def prettyMembers (depth : Nat) : List (Literal × Json) → String
  | [] => ""
  | [(key, v)] => newLine depth ++ printLiteral key ++ ": " ++ prettyAt depth v
  | (key, v) :: rest =>
      newLine depth ++ printLiteral key ++ ": " ++ prettyAt depth v ++ "," ++
        prettyMembers depth rest

end

/-- A value over several lines. -/
def pretty (v : Json) : String := prettyAt 0 v

end Json
end AssetAudit
