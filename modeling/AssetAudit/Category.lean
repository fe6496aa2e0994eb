/-!
# Categories of assets

A project consists of folders and of files of eight kinds.  `Category` names what a violation is
about, so it has nine members; `FileCategory` leaves folders out, because only files are searched
for, located and addressed by condition rules.  The eight file categories have a fixed order, which
numbers the bits of a category set and sorts every list that is written out.

Both types have a name for each member, and a name determines its member (`Category.ofName?_name`,
`FileCategory.ofName?_name`).  The two vocabularies differ at one place: the models of a project are
addressed as `Graphics3D`.
-/

namespace AssetAudit

/-- What a naming or location rule is about. -/
inductive Category where
  | folder
  | scene
  | prefab
  | script
  | texture
  | model
  | sound
  | material
  | animation
  deriving DecidableEq, Repr

/-- The categories of files, in bit order. -/
inductive FileCategory where
  | scene
  | prefab
  | script
  | texture
  | model
  | sound
  | material
  | animation
  deriving DecidableEq, Repr

namespace Category

/-- Every category, folders first. -/
def all : List Category :=
  [.folder, .scene, .prefab, .script, .texture, .model, .sound, .material, .animation]

@[simp] theorem mem_all (c : Category) : c ∈ all := by
  cases c <;> decide

/-- The name that reports and configurations use. -/
def name : Category → String
  | .folder => "Folder"
  | .scene => "Scene"
  | .prefab => "Prefab"
  | .script => "Script"
  | .texture => "Texture"
  | .model => "Model"
  | .sound => "Sound"
  | .material => "Material"
  | .animation => "Animation"

/-- The category of a name. -/
def ofName? (name : String) : Option Category :=
  all.find? (·.name == name)

@[simp] theorem ofName?_name (c : Category) : ofName? c.name = some c := by
  cases c <;> rfl

/-- What to do about a folder that lacks assets of the category. -/
def remedy : Category → String
  | .folder => "Add/Create Folder(s)"
  | .scene => "Add/Create Scene"
  | .prefab => "Add/Create Prefab"
  | .script => "Add/Create Script"
  | .texture => "Add/Create Texture"
  | .model => "Add/Create 3D Model"
  | .sound => "Add/Create Sound"
  | .material => "Add/Create Material or Shader"
  | .animation => "Add/Create Animation or Animator Controller"

/-- The file category of an asset category; a folder has none. -/
def fileCategory? : Category → Option FileCategory
  | .folder => none
  | .scene => some .scene
  | .prefab => some .prefab
  | .script => some .script
  | .texture => some .texture
  | .model => some .model
  | .sound => some .sound
  | .material => some .material
  | .animation => some .animation

end Category

namespace FileCategory

/-- Every file category, in bit order. -/
def all : List FileCategory :=
  [.scene, .prefab, .script, .texture, .model, .sound, .material, .animation]

@[simp] theorem mem_all (c : FileCategory) : c ∈ all := by
  cases c <;> decide

/-- The number of the bit that stands for the category. -/
def index : FileCategory → Nat
  | .scene => 0
  | .prefab => 1
  | .script => 2
  | .texture => 3
  | .model => 4
  | .sound => 5
  | .material => 6
  | .animation => 7

/-- The category of a bit. -/
def ofIndex? (index : Nat) : Option FileCategory :=
  all[index]?

@[simp] theorem ofIndex?_index (c : FileCategory) : ofIndex? c.index = some c := by
  cases c <;> rfl

/-- The name under which condition rules address the category. -/
def name : FileCategory → String
  | .scene => "Scene"
  | .prefab => "Prefab"
  | .script => "Script"
  | .texture => "Texture"
  | .model => "Graphics3D"
  | .sound => "Sound"
  | .material => "Material"
  | .animation => "Animation"

/-- The file category of a name. -/
def ofName? (name : String) : Option FileCategory :=
  all.find? (·.name == name)

@[simp] theorem ofName?_name (c : FileCategory) : ofName? c.name = some c := by
  cases c <;> rfl

/-- The category that violations of the file category are reported under. -/
def toCategory : FileCategory → Category
  | .scene => .scene
  | .prefab => .prefab
  | .script => .script
  | .texture => .texture
  | .model => .model
  | .sound => .sound
  | .material => .material
  | .animation => .animation

instance : Coe FileCategory Category := ⟨toCategory⟩

/-- A category has the file category `c` exactly when it is the category of `c`. -/
theorem fileCategory?_eq_some_iff {a : Category} {c : FileCategory} :
    a.fileCategory? = some c ↔ a = c.toCategory := by
  cases a <;> cases c <;> decide

end FileCategory

end AssetAudit
