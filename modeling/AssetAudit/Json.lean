/-!
# JSON values

The values that configurations and reports are written as.  A value keeps everything that a reader
of configurations may ask about: the order of an object's members, members that occur twice, and
whether a number was written as a plain natural number.

A string literal may escape half of a surrogate pair; such a literal is well formed but denotes no
text.  `Json.Literal` keeps it as `none`, so that a value in a place where nobody looks can still be
read.
-/

namespace AssetAudit
namespace Json

/-- A number as it is written: a sign, a whole part, decimals, and a power of ten. -/
structure Number where
  negative : Bool
  whole : Nat
  decimals : List (Fin 10)
  exponent : Option Int
  deriving DecidableEq, Repr

namespace Number

/-- A natural number. -/
def ofNat (n : Nat) : Number := ⟨false, n, [], none⟩

/-- The value of a number that is written with digits only. -/
def toNat? (n : Number) : Option Nat :=
  if n.negative || !n.decimals.isEmpty || n.exponent.isSome then none else some n.whole

@[simp] theorem toNat?_ofNat (n : Nat) : (ofNat n).toNat? = some n := rfl

end Number

/-- The text that a string literal denotes, if it denotes one. -/
abbrev Literal := Option String

end Json

/-- A JSON value. -/
inductive Json where
  | null
  | bool (value : Bool)
  | number (value : Json.Number)
  | string (value : Json.Literal)
  | array (items : List Json)
  | object (members : List (Json.Literal × Json))
  deriving Repr

namespace Json

/-- A natural number as a value. -/
def nat (n : Nat) : Json := .number (.ofNat n)

/-- A text as a value. -/
def text (s : String) : Json := .string (some s)

/-- An array of texts. -/
def texts (ss : List String) : Json := .array (ss.map text)

/-- An object with the given members, in this order. -/
def record (members : List (String × Json)) : Json :=
  .object (members.map fun (key, value) => (some key, value))

/-! ## What a value is -/

/-- The truth value, if it is one. -/
def toBool? : Json → Option Bool
  | .bool b => some b
  | _ => none

/-- The text, if it is one. -/
def toText? : Json → Option String
  | .string s => s
  | _ => none

/-- The natural number below a bound, if it is one. -/
def toNatBelow? (bound : Nat) : Json → Option Nat
  | .number n => n.toNat?.filter (· < bound)
  | _ => none

/-- The number of eight bits, if it is one. -/
def toUInt8? (v : Json) : Option UInt8 := (v.toNatBelow? UInt8.size).map UInt8.ofNat

/-- The number of 32 bits, if it is one. -/
def toUInt32? (v : Json) : Option UInt32 := (v.toNatBelow? UInt32.size).map UInt32.ofNat

/-- The number of 64 bits, if it is one. -/
def toUInt64? (v : Json) : Option UInt64 := (v.toNatBelow? UInt64.size).map UInt64.ofNat

/-- The items, each of them read, if it is an array whose items can all be read. -/
def toList? {α : Type} (read : Json → Option α) : Json → Option (List α)
  | .array items => items.mapM read
  | _ => none

/-- The member of an enumeration, given by its name.  A name may also be the only key of an object,
with `null` as its value. -/
def toName? {α : Type} (ofName? : String → Option α) : Json → Option α
  | .string (some name) => ofName? name
  | .object [(some name, .null)] => ofName? name
  | _ => none

end Json
end AssetAudit
