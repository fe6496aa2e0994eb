import AssetAudit.Json.Token

/-!
# Reading JSON

A value is built from its tokens one at a time.  The containers that are open wait in a stack, each
with what it holds so far, and `Builder` says what may come next; so values can be nested to any
depth.  Reading is strict: nothing but blanks stands around the value, and no comma stands at an
end.
-/

namespace AssetAudit
namespace Json

/-- A container that is still open; what it holds is kept in reverse. -/
inductive Frame where
  | array (items : List Json)
  /-- An object that waits for the value of a key. -/
  | object (members : List (Literal × Json)) (key : Literal)

/-- What has been read, and what may come next. -/
inductive Builder where
  /-- A value must come. -/
  | value (stack : List Frame)
  /-- An array has been opened. -/
  | firstItem (stack : List Frame)
  /-- An object has been opened. -/
  | firstKey (stack : List Frame)
  /-- A key must come. -/
  | nextKey (stack : List Frame) (members : List (Literal × Json))
  /-- The colon behind a key must come. -/
  | colon (stack : List Frame) (members : List (Literal × Json)) (k : Literal)
  /-- A value is complete. -/
  | complete (stack : List Frame) (value : Json)

namespace Builder

/-- A builder that has read nothing. -/
def start : Builder := .value []

/-- Takes the first token of a value. -/
def beginValue (stack : List Frame) : Token → Option Builder
  | .null => some (.complete stack .null)
  | .bool b => some (.complete stack (.bool b))
  | .number n => some (.complete stack (.number n))
  | .string s => some (.complete stack (.string s))
  | .openBracket => some (.firstItem stack)
  | .openBrace => some (.firstKey stack)
  | _ => none

/-- Takes the token behind a complete value. -/
def endValue (v : Json) : List Frame → Token → Option Builder
  | .array items :: stack, .comma => some (.value (.array (v :: items) :: stack))
  | .array items :: stack, .closeBracket => some (.complete stack (.array (v :: items).reverse))
  | .object members k :: stack, .comma => some (.nextKey stack ((k, v) :: members))
  | .object members k :: stack, .closeBrace =>
      some (.complete stack (.object ((k, v) :: members).reverse))
  | _, _ => none

/-- Takes one token. -/
def step : Builder → Token → Option Builder
  | .value stack, token => beginValue stack token
  | .firstItem stack, .closeBracket => some (.complete stack (.array []))
  | .firstItem stack, token => beginValue (.array [] :: stack) token
  | .firstKey stack, .closeBrace => some (.complete stack (.object []))
  | .firstKey stack, .string k => some (.colon stack [] k)
  | .firstKey _, _ => none
  | .nextKey stack members, .string k => some (.colon stack members k)
  | .nextKey _ _, _ => none
  | .colon stack members k, .colon => some (.value (.object members k :: stack))
  | .colon _ _ _, _ => none
  | .complete stack v, token => endValue v stack token

/-- The value that has been read, if nothing is open. -/
def finish : Builder → Option Json
  | .complete [] v => some v
  | _ => none

end Builder

/-- The value that tokens write, if they write one. -/
def ofTokens? (tokens : List Token) : Option Json :=
  (tokens.foldlM Builder.step Builder.start).bind Builder.finish

/-- The value that a text writes, if it writes one. -/
def parse? (text : String) : Option Json :=
  (Token.ofText? text.toList).bind ofTokens?

end Json
end AssetAudit
