import AssetAudit.Path

/-!
# Condition formulas

A condition rule names folders by a *formula*: a path below the assets in which one segment may be
the wildcard `*`, which stands for every immediate subfolder of what is written before it.  So
`Units/*/Prefabs` asks for a folder `Prefabs` in each subfolder of `Units`.

A formula is read as a text.  The *marker* `/*` cuts it into groups, and a slash right behind a
marker goes with it; empty groups count for nothing.  One group is a base without a suffix, and two
groups are a base and a suffix, provided that the text holds no second `*`.  Every other text is
malformed.  Because the cut is made before separators are brought to their normal form,
`Formula.parse?` keeps the groups as texts until the end.
-/

namespace AssetAudit

/-- A formula that has been read. -/
structure Formula where
  /-- The path before the wildcard. -/
  base : String
  /-- The path that follows each subfolder of the base, if there is one. -/
  suffix : Option String
  deriving DecidableEq, Repr

namespace Formula

/-- The wildcard. -/
def wildcard : Char := '*'

/-- The groups between the markers of a text, empty ones included. -/
def groups : List Char → List (List Char)
  | [] => [[]]
  | '/' :: '*' :: '/' :: rest => [] :: groups rest
  | '/' :: '*' :: rest => [] :: groups rest
  | c :: rest => (groups rest).modifyHead (c :: ·)

/-- A text with both separators written as `/`. -/
def withForwardSlashes (text : String) : List Char :=
  text.toList.map fun c => if c = '\\' then '/' else c

/-- Reads a formula; malformed texts give none. -/
def parse? (text : String) : Option Formula :=
  match (groups (withForwardSlashes text)).filter (!·.isEmpty) with
  | [base] => some ⟨Path.normalize (String.ofList base), none⟩
  | [base, suffix] =>
      if text.toList.count wildcard ≤ 1 then
        some ⟨Path.normalize (String.ofList base), some (Path.normalize (String.ofList suffix))⟩
      else none
  | _ => none

/-- The folder that the formula names inside a subfolder of its base. -/
def target (f : Formula) (subfolder : String) : String :=
  match f.suffix with
  | none => subfolder
  | some suffix => subfolder ++ "/" ++ suffix

@[simp] theorem target_none (base subfolder : String) :
    (Formula.mk base none).target subfolder = subfolder := rfl

@[simp] theorem target_some (base suffix subfolder : String) :
    (Formula.mk base (some suffix)).target subfolder = subfolder ++ "/" ++ suffix := rfl

end Formula

end AssetAudit
