import AssetAudit.Json

/-!
# Records and tables in JSON

A *record* has a fixed list of fields.  It is written as an object, whose members may stand in any
order and may include members that are no fields, or as an array of the values of its first fields.
A field that occurs twice is refused, and so is a key that denotes no text.  What a missing field
means is for the reader of the field to say.

A *table* maps the members of an enumeration to values.  It is written as an object whose keys are
names of members; where a key occurs twice, the last value counts.
-/

namespace AssetAudit
namespace Json

/-! ## Records -/

/-- The fields of a record that are given. -/
structure Fields where
  get? : String → Option Json

/-- Are all keys texts, and is every field given at most once? -/
def areFieldsOf (names : List String) (members : List (Literal × Json)) : Bool :=
  let keys := members.map Prod.fst
  keys.all Option.isSome && names.all fun name => keys.count (some name) ≤ 1

/-- The given fields of a record with the given names. -/
def fields? (names : List String) : Json → Option Fields
  | .object members =>
      if areFieldsOf names members then some ⟨fun name => members.lookup (some name)⟩ else none
  | .array items =>
      if items.length ≤ names.length then some ⟨fun name => (names.zip items).lookup name⟩ else none
  | _ => none

namespace Fields

/-- Reads a field that must be given. -/
def required {α : Type} (fields : Fields) (name : String) (read : Json → Option α) : Option α :=
  (fields.get? name).bind read

/-- Reads a field that has a value of its own when it is missing. -/
def optional {α : Type} (fields : Fields) (name : String) (read : Json → Option α) (missing : α) :
    Option α :=
  match fields.get? name with
  | none => some missing
  | some v => read v

end Fields

/-! ## Tables -/

/-- A table with one more entry, which replaces an earlier one of the same member. -/
def withEntry {κ α : Type} [DecidableEq κ] (table : κ → Option α) (k : κ) (a : α) : κ → Option α :=
  fun l => if l = k then some a else table l

/-- Adds the members of an object to a table. -/
def extendTable? {κ α : Type} [DecidableEq κ] (ofName? : String → Option κ)
    (read : Json → Option α) (table : κ → Option α) :
    List (Literal × Json) → Option (κ → Option α)
  | [] => some table
  | (key, v) :: rest => do
      let k ← key.bind ofName?
      let a ← read v
      extendTable? ofName? read (withEntry table k a) rest

/-- Reads a table. -/
def toTable? {κ α : Type} [DecidableEq κ] (ofName? : String → Option κ) (read : Json → Option α) :
    Json → Option (κ → Option α)
  | .object members => extendTable? ofName? read (fun _ => none) members
  | _ => none

/-- Writes the entries of a table, in the given order of the members. -/
def ofTable {κ α : Type} (members : List κ) (name : κ → String) (write : α → Json)
    (table : κ → Option α) : Json :=
  record (members.filterMap fun k => (table k).map fun a => (name k, write a))

end Json
end AssetAudit
