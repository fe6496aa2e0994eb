import AssetAudit.Category

/-!
# Violations

What a scan finds.  A violation has a kind, which says which rule is broken, and belongs through its
kind to one of five groups, under which reports list it.  It names the offending asset or folder and
the folder in which that lies; a violation of a condition rule has no single offender and puts a
description into the place of the name.
-/

namespace AssetAudit

/-- The kinds of violations. -/
inductive ViolationKind where
  | folderName
  | prefabName
  | prefabLocation
  | specialFolderMissing
  | scriptName
  | scriptLocation
  | textureName
  | textureLocation
  | sceneName
  | sceneLocation
  | folderWithoutAssets
  | folderInvalid
  | soundName
  | soundLocation
  | modelName
  | modelLocation
  | materialName
  | materialLocation
  | animationName
  | animationLocation
  deriving DecidableEq, Repr

/-- What violations of several kinds have in common, for display and export. -/
inductive ViolationGroup where
  | wrongName
  | wrongLocation
  | notExists
  | notContain
  | notValid
  deriving DecidableEq, Repr

namespace ViolationGroup

/-- The heading under which reports list the group. -/
def label : ViolationGroup → String
  | .wrongName => "WRONG NAME"
  | .wrongLocation => "WRONG LOCATION"
  | .notExists => "NOT EXISTS"
  | .notContain => "NOT CONTAIN"
  | .notValid => "NOT VALID"

end ViolationGroup

namespace ViolationKind

/-- Every kind. -/
def all : List ViolationKind :=
  [.folderName, .prefabName, .prefabLocation, .specialFolderMissing, .scriptName, .scriptLocation,
    .textureName, .textureLocation, .sceneName, .sceneLocation, .folderWithoutAssets,
    .folderInvalid, .soundName, .soundLocation, .modelName, .modelLocation, .materialName,
    .materialLocation, .animationName, .animationLocation]

/-- The name of the kind in reports. -/
def name : ViolationKind → String
  | .folderName => "FolderNameError"
  | .prefabName => "PrefabNameError"
  | .prefabLocation => "PrefabLocationError"
  | .specialFolderMissing => "SpecialFolderNotExists"
  | .scriptName => "ScriptNameError"
  | .scriptLocation => "ScriptLocationError"
  | .textureName => "TextureNameError"
  | .textureLocation => "TextureLocationError"
  | .sceneName => "SceneNameError"
  | .sceneLocation => "SceneLocationError"
  | .folderWithoutAssets => "FolderNotContain"
  | .folderInvalid => "FolderNotValid"
  | .soundName => "SoundNameError"
  | .soundLocation => "SoundLocationError"
  | .modelName => "ModelNameError"
  | .modelLocation => "ModelLocationError"
  | .materialName => "MaterialNameError"
  | .materialLocation => "MaterialLocationError"
  | .animationName => "AnimationNameError"
  | .animationLocation => "AnimationLocationError"

/-- The kind of a name. -/
def ofName? (name : String) : Option ViolationKind :=
  all.find? (·.name == name)

@[simp] theorem ofName?_name (k : ViolationKind) : ofName? k.name = some k := by
  cases k <;> rfl

/-- The group of a kind. -/
def group : ViolationKind → ViolationGroup
  | .folderName | .prefabName | .scriptName | .textureName | .sceneName | .soundName | .modelName
  | .materialName | .animationName => .wrongName
  | .prefabLocation | .scriptLocation | .textureLocation | .sceneLocation | .soundLocation
  | .modelLocation | .materialLocation | .animationLocation => .wrongLocation
  | .specialFolderMissing => .notExists
  | .folderWithoutAssets => .notContain
  | .folderInvalid => .notValid

/-- A name of the category breaks its convention. -/
def naming : Category → ViolationKind
  | .folder => .folderName
  | .scene => .sceneName
  | .prefab => .prefabName
  | .script => .scriptName
  | .texture => .textureName
  | .model => .modelName
  | .sound => .soundName
  | .material => .materialName
  | .animation => .animationName

/-- An asset of the category lies where it should not. -/
def location : FileCategory → ViolationKind
  | .scene => .sceneLocation
  | .prefab => .prefabLocation
  | .script => .scriptLocation
  | .texture => .textureLocation
  | .model => .modelLocation
  | .sound => .soundLocation
  | .material => .materialLocation
  | .animation => .animationLocation

@[simp] theorem group_naming (c : Category) : (naming c).group = .wrongName := by
  cases c <;> rfl

@[simp] theorem group_location (c : FileCategory) : (location c).group = .wrongLocation := by
  cases c <;> rfl

end ViolationKind

/-- One broken rule. -/
structure Violation where
  kind : ViolationKind
  /-- The category that the broken rule is about. -/
  category : Category
  /-- The offending asset or folder, or a description in brackets. -/
  name : String
  /-- The folder in which it lies. -/
  folder : String
  /-- What was expected; empty when there is nothing to suggest. -/
  hint : String := ""
  deriving DecidableEq, Repr

namespace Violation

/-- The group under which reports list the violation. -/
def group (v : Violation) : ViolationGroup := v.kind.group

/-- The folder and the name in one path. -/
def fullPath (v : Violation) : String :=
  if v.folder.isEmpty then v.name else v.folder ++ "/" ++ v.name

end Violation

end AssetAudit
