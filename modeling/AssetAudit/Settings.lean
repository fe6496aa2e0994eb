import AssetAudit.Category.Selection
import AssetAudit.Rules

/-!
# Scan settings

How much of the rules a scan takes into account.  A filter says which checks run; four limits say
how many violations are recorded and how many rows of each list are read.  Reading past a limit is
not an error: the rows behind it are as if they were not there, and `Rules.enforceLimits` removes
them.

The command line switches checks off by name.  `Check.ofName?` says which names there are, and
`ScanFilter.disableNamed` works through a list of names until one is unknown.
-/

namespace AssetAudit

/-- Which checks run. -/
@[ext] structure ScanFilter where
  /-- Must special folders exist? -/
  specialFolders : Bool
  /-- Are the names of folders checked? -/
  folders : Bool
  /-- The categories whose assets are checked. -/
  categories : CategorySet
  /-- Are condition rules looked at? -/
  conditions : Bool

/-- The limits of a scan. -/
@[ext] structure Settings where
  /-- How many violations are recorded. -/
  maxViolations : UInt64
  maxSpecialFolders : UInt64
  maxIgnoreFolders : UInt64
  maxConditionRows : UInt64
  filter : ScanFilter

namespace ScanFilter

/-- Every check runs. -/
def default : ScanFilter where
  specialFolders := true
  folders := true
  categories := .all
  conditions := true

/-- Are the assets of a category checked? -/
def isEnabled (filter : ScanFilter) (c : FileCategory) : Bool := filter.categories.contains c

end ScanFilter

namespace Settings

/-- The limits that hold unless a project says otherwise. -/
def default : Settings where
  maxViolations := 999
  maxSpecialFolders := 15
  maxIgnoreFolders := 15
  maxConditionRows := 15
  filter := .default

end Settings

namespace Rules

/-- The rules without the rows that a scan does not read. -/
def enforceLimits (rules : Rules) (settings : Settings) : Rules :=
  { rules with
    specialFolders := rules.specialFolders.take settings.maxSpecialFolders.toNat
    ignoreFolders := rules.ignoreFolders.take settings.maxIgnoreFolders.toNat
    conditions := rules.conditions.take settings.maxConditionRows.toNat }

end Rules

/-! ## Switching checks off by name -/

/-- A check that can be switched off by itself. -/
inductive Check where
  | specialFolders
  | folders
  | conditions
  | category (c : FileCategory)
  deriving DecidableEq, Repr

namespace Check

/-- The check of a word in small letters.  A few words are compared as they are, and then the names
that reports have for the categories, up to capital and small ASCII letters. -/
def ofLowered? (lowered : String) : Option Check :=
  if lowered = "special-folders" then some .specialFolders
  else if lowered = "folders" then some .folders
  else if lowered = "conditions" then some .conditions
  else if lowered = "graphics3d" then some (.category .model)
  else
    (FileCategory.all.find? fun c =>
      decide (EqIgnoringCase c.toCategory.name lowered)).map .category

/-- The check of a name; capital and small letters make no difference. -/
def ofName? (name : String) : Option Check := ofLowered? (lowercase name)

end Check

namespace ScanFilter

/-- The filter with a check switched off. -/
def disable (filter : ScanFilter) : Check → ScanFilter
  | .specialFolders => { filter with specialFolders := false }
  | .folders => { filter with folders := false }
  | .conditions => { filter with conditions := false }
  | .category c => { filter with categories := filter.categories.erase c }

/-- Switches off the named checks, one after the other.  The first name that belongs to no check
ends this; it is returned with the filter reached so far. -/
def disableNamed (filter : ScanFilter) : List String → ScanFilter × Option String
  | [] => (filter, none)
  | name :: names =>
      match Check.ofName? name with
      | none => (filter, some name)
      | some check => disableNamed (filter.disable check) names

@[simp] theorem disableNamed_nil (filter : ScanFilter) :
    filter.disableNamed [] = (filter, none) := rfl

theorem disableNamed_cons_of_unknown {filter : ScanFilter} {name : String} (names : List String)
    (h : Check.ofName? name = none) :
    filter.disableNamed (name :: names) = (filter, some name) := by
  simp [disableNamed, h]

theorem disableNamed_cons_of_known {filter : ScanFilter} {name : String} {check : Check}
    (names : List String) (h : Check.ofName? name = some check) :
    filter.disableNamed (name :: names) = (filter.disable check).disableNamed names := by
  simp [disableNamed, h]

end ScanFilter

end AssetAudit
