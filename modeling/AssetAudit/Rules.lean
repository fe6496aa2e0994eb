import AssetAudit.Condition.Rule
import AssetAudit.Naming.Pattern

/-!
# Rules

The conventions of a project, as its authors wrote them: a naming style and accepted folder names
for each category, folders that must exist, folders that are left alone, and condition rules.

A category that a configuration does not mention has the first naming style and no accepted folder,
so the two tables are partial and the defaults of `Rules.default` are entries like any other.
-/

namespace AssetAudit

/-- The conventions of a project. -/
structure Rules where
  /-- The selector of the naming style of a category. -/
  naming : Category → Option UInt8
  /-- The names of folders in which assets of a category may lie, with bars between them. -/
  rootFolders : FileCategory → Option String
  /-- Folders below the assets that must exist. -/
  specialFolders : List String
  /-- Names of folders whose content is left alone. -/
  ignoreFolders : List String
  /-- Condition rules, in the order in which they are looked at. -/
  conditions : List ConditionRule

namespace Rules

/-- The folder in which assets of a category lie unless a project says otherwise. -/
def defaultRoot : FileCategory → String
  | .scene => "Scenes"
  | .prefab => "Prefabs"
  | .script => "Scripts"
  | .texture => "Textures"
  | .model => "Graphics 3D"
  | .sound => "Sounds"
  | .material => "Materials"
  | .animation => "Animations"

/-- The conventions of a project that has not written down any. -/
def default : Rules where
  naming := fun _ => some 0
  rootFolders := fun c => some (defaultRoot c)
  specialFolders := []
  ignoreFolders := []
  conditions := []

/-- The selector of the naming style of a category. -/
def selector (rules : Rules) (c : Category) : UInt8 := (rules.naming c).getD 0

/-- The naming style of a category. -/
def style (rules : Rules) (c : Category) : Naming.Style := .ofSelector (rules.selector c)

/-- What names of a category have to look like. -/
def pattern (rules : Rules) (c : Category) : Naming.Pattern := .ofSelector (rules.selector c) c

/-- The accepted folder names of a category, as written. -/
def roots (rules : Rules) (c : FileCategory) : String := (rules.rootFolders c).getD ""

/-- The rules with another naming style for a category. -/
def setStyle (rules : Rules) (c : Category) (style : Naming.Style) : Rules :=
  { rules with naming := fun d => if d = c then some style.selector else rules.naming d }

/-- The rules with other accepted folder names for a category. -/
def setRoots (rules : Rules) (c : FileCategory) (roots : String) : Rules :=
  { rules with rootFolders := fun d => if d = c then some roots else rules.rootFolders d }

/-- The rules with one more condition rule at the end. -/
def addCondition (rules : Rules) (rule : ConditionRule) : Rules :=
  { rules with conditions := rules.conditions ++ [rule] }

@[simp] theorem style_setStyle (rules : Rules) (c : Category) (style : Naming.Style) :
    (rules.setStyle c style).style c = style := by
  simp [Rules.style, selector, setStyle]

@[simp] theorem roots_setRoots (rules : Rules) (c : FileCategory) (text : String) :
    (rules.setRoots c text).roots c = text := by
  simp [roots, setRoots]

end Rules

end AssetAudit
