import AssetAudit.Inventory
import AssetAudit.Inventory.PathSet
import AssetAudit.Path

/-!
# Inventories held in memory

An explicit list of files and folders.  Adding a file or a folder adds all folders above it, so the
folders are closed upwards.  Everything is stored as canonical path text, and a listing is sorted by
that text, which is not the order of the segments: `A-B` comes before `A/x`.

A path lies below a folder when its text continues the folder's text with a separator; everything
lies below the empty path, which is itself no folder.
-/

namespace AssetAudit

/-- Files and folders of a project. -/
structure MemoryInventory where
  files : PathSet
  folders : PathSet

namespace MemoryInventory

/-- The inventory of a project without folders. -/
def empty : MemoryInventory := ⟨.empty, .empty⟩

/-- The paths of a folder and of all folders above it, outermost first. -/
def lineage (segments : List String) : List String :=
  (List.range segments.length).map fun n => Path.join (segments.take (n + 1))

/-- Adds a folder, given by its segments, and all folders above it. -/
def addSegments (inv : MemoryInventory) (segments : List String) : MemoryInventory :=
  { inv with folders := (lineage segments).foldl PathSet.insert inv.folders }

/-- Adds a folder and all folders above it. -/
def addFolder (inv : MemoryInventory) (path : String) : MemoryInventory :=
  inv.addSegments (Path.split path)

/-- Adds a file and all folders above it.  A path without segments names no file. -/
def addFile (inv : MemoryInventory) (path : String) : MemoryInventory :=
  match Path.split path with
  | [] => inv
  | segments =>
      { inv.addSegments segments.dropLast with files := inv.files.insert (Path.join segments) }

/-- Something that is added to an inventory. -/
inductive Addition where
  | file (path : String)
  | folder (path : String)
  deriving DecidableEq, Repr

/-- The inventory with one more file or folder. -/
def insert (inv : MemoryInventory) : Addition → MemoryInventory
  | .file path => inv.addFile path
  | .folder path => inv.addFolder path

/-- The inventory that additions lead to, one after the other. -/
def ofAdditions (additions : List Addition) : MemoryInventory :=
  additions.foldl insert empty

/-- The inventory of the given files and folders. -/
def ofLists (files folders : List String) : MemoryInventory :=
  ofAdditions (files.map .file ++ folders.map .folder)

/-! ## What additions add -/

theorem mem_lineage {segments : List String} {path : String} :
    path ∈ lineage segments ↔
      ∃ n, n < segments.length ∧ path = Path.join (segments.take (n + 1)) := by
  simp [lineage, eq_comm]

/-- Adding a folder adds the folder and those above it. -/
theorem mem_folders_addSegments {inv : MemoryInventory} {segments : List String} {path : String} :
    path ∈ (inv.addSegments segments).folders.toList ↔
      path ∈ lineage segments ∨ path ∈ inv.folders.toList := by
  have hfold : ∀ (added : List String) (s : PathSet),
      path ∈ (added.foldl PathSet.insert s).toList ↔ path ∈ added ∨ path ∈ s.toList := by
    intro added
    induction added with
    | nil => simp
    | cons a rest ih =>
      intro s
      rw [List.foldl_cons, ih, PathSet.mem_insert, List.mem_cons]
      constructor
      · rintro (h | h | h)
        · exact .inl (.inr h)
        · exact .inl (.inl h)
        · exact .inr h
      · rintro ((h | h) | h)
        · exact .inr (.inl h)
        · exact .inl h
        · exact .inr (.inr h)
  exact hfold _ _

@[simp] theorem files_addSegments (inv : MemoryInventory) (segments : List String) :
    (inv.addSegments segments).files = inv.files := rfl

@[simp] theorem files_addFolder (inv : MemoryInventory) (path : String) :
    (inv.addFolder path).files = inv.files := rfl

/-- Adding a file adds its path. -/
theorem mem_files_addFile {inv : MemoryInventory} {path file : String} :
    file ∈ (inv.addFile path).files.toList ↔
      (Path.split path ≠ [] ∧ file = Path.normalize path) ∨ file ∈ inv.files.toList := by
  unfold addFile
  split
  · next h => simp [h]
  · next segments hne =>
    have hsegments : Path.split path ≠ [] := hne
    simp [hsegments, Path.normalize]

/-- Adding a file adds the folders above it. -/
theorem folders_addFile (inv : MemoryInventory) (path : String) :
    (inv.addFile path).folders = (inv.addSegments (Path.split path).dropLast).folders := by
  unfold addFile
  split
  · next h => simp [h, addSegments, lineage]
  · rfl

/-! ## Queries -/

/-- Does a path lie strictly below a folder?  Both are canonical texts. -/
def isBelow (folder path : String) : Bool :=
  folder.isEmpty || (folder.toList ++ ['/']).isPrefixOf path.toList

/-- The number of segments of a path. -/
def depth (path : String) : Nat := (Path.split path).length

/-- Is there a folder of this path? -/
def folderExists (inv : MemoryInventory) (path : String) : Bool :=
  inv.folders.contains (Path.normalize path)

/-- The folders below a path. -/
def foldersBelow (inv : MemoryInventory) (path : String) : List String :=
  inv.folders.toList.filter (isBelow (Path.normalize path))

/-- The folders directly below a path. -/
def subfolders (inv : MemoryInventory) (path : String) : List String :=
  inv.folders.toList.filter fun folder =>
    isBelow (Path.normalize path) folder && depth folder == depth path + 1

/-- The files of a category, all of them or those below a path. -/
def assets (inv : MemoryInventory) (c : FileCategory) (within : Option String) : List String :=
  inv.files.toList.filter fun file =>
    isBelow (Path.normalize (within.getD "")) file && c.discovers file

/-- The answers that the inventory gives to a scan. -/
def toInventory (inv : MemoryInventory) : Inventory where
  folderExists := inv.folderExists
  subfolders := inv.subfolders
  foldersBelow := inv.foldersBelow
  assets := inv.assets

end MemoryInventory

end AssetAudit
