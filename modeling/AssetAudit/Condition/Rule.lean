import AssetAudit.Category.Selection
import AssetAudit.Condition.AllowList
import AssetAudit.Condition.Formula
import AssetAudit.Inventory
import AssetAudit.Violation.Log

/-!
# Condition rules

A condition rule demands that the folders its formula names hold assets of certain categories, and
in return allows assets of these categories to lie there.

For one category, a rule comes down to a list of *findings*, one for each folder that it names: the
folder is allowed, or a violation is reported (`ConditionRule.findings`).  A missing base folder is
one violation.  A base without subfolders is itself the folder in question, whatever the formula has
behind its wildcard.  Resolving a list of rules records their findings in order; a rule is looked at
only while the log has room, but once it is looked at, all its folders are.
-/

namespace AssetAudit

/-- A condition rule as its author wrote it. -/
structure ConditionRule where
  formula : String
  /-- The categories that the rule is about. -/
  appliesTo : CategorySet

/-- What a condition rule establishes about one of its folders. -/
inductive ConditionFinding where
  /-- The folder holds assets of the category, which are welcome there. -/
  | allowed (folder : String)
  /-- The folder is missing or empty of such assets. -/
  | violated (v : Violation)
  deriving DecidableEq, Repr

namespace ConditionFinding

/-- The folder that is allowed, if one is. -/
def allowed? : ConditionFinding → Option String
  | .allowed folder => some folder
  | .violated _ => none

/-- The violation that is reported, if one is. -/
def violation? : ConditionFinding → Option Violation
  | .allowed _ => none
  | .violated v => some v

end ConditionFinding

namespace ConditionRule

/-- The rule of the given position names a folder that does not exist. -/
def invalidFolder (position : Nat) (rule : ConditionRule) (folder : String) : Violation where
  kind := .folderInvalid
  category := .folder
  name := "[Condition " ++ toString position ++ ": " ++ rule.formula ++ "]"
  folder := Path.normalize folder

/-- A folder that a rule names holds no asset of the category. -/
def withoutAssets (c : FileCategory) (folder : String) : Violation where
  kind := .folderWithoutAssets
  category := c
  name := "[Missing " ++ c.toCategory.name ++ "]"
  folder := Path.normalize folder
  hint := c.toCategory.remedy

/-- What there is to say about an existing folder. -/
def inspect (inventory : Inventory) (c : FileCategory) (folder : String) : ConditionFinding :=
  if (inventory.assets c (some folder)).isEmpty then .violated (withoutAssets c folder)
  else .allowed (Path.normalize folder)

/-- What a rule establishes for a category.  Rules that are about other categories and rules with a
malformed formula establish nothing. -/
def findings (inventory : Inventory) (c : FileCategory) (position : Nat) (rule : ConditionRule) :
    List ConditionFinding :=
  if rule.appliesTo.contains c then
    match Formula.parse? rule.formula with
    | none => []
    | some formula =>
        let base := Path.underAssets formula.base
        if inventory.folderExists base then
          match inventory.subfolders base with
          | [] => [inspect inventory c base]
          | subfolders => subfolders.map fun subfolder =>
              let folder := formula.target subfolder
              if inventory.folderExists folder then inspect inventory c folder
              else .violated (invalidFolder position rule folder)
        else [.violated (invalidFolder position rule base)]
  else []

end ConditionRule

/-! ## Resolving a list of rules -/

/-- The state of resolving rules: what is allowed so far, and the log. -/
structure Resolution where
  allowed : AllowList
  log : ViolationLog

namespace Resolution

/-- Takes note of one finding. -/
def record (r : Resolution) : ConditionFinding → Resolution
  | .allowed folder => { r with allowed := r.allowed.insert folder }
  | .violated v => { r with log := r.log.add v }

/-- Works through numbered rules, as long as the log has room. -/
def recordRules (inventory : Inventory) (c : FileCategory) :
    Resolution → List (ConditionRule × Nat) → Resolution
  | r, [] => r
  | r, (rule, position) :: rules =>
      if r.log.hasRoom then
        recordRules inventory c ((rule.findings inventory c position).foldl record r) rules
      else r

end Resolution

/-- The allow-list of a category, and the log with the violations that the rules give rise to.
Rules are numbered from one. -/
def ConditionRule.resolve (inventory : Inventory) (c : FileCategory) (rules : List ConditionRule)
    (log : ViolationLog) : Resolution :=
  Resolution.recordRules inventory c ⟨.empty, log⟩ (rules.zipIdx 1)

end AssetAudit
