/-!
# Paths

A path is a text, and what a text says about a path is its list of *segments*: the non-empty names
that stand between separators.  Both `/` and `\` separate, so that a path typed on any system names
the same place, and the canonical text of a path joins its segments with `/`.  A name `.` or `..`
has no special meaning at this level.

Every asset path is read from the marker `Assets`, the folder that holds a project's own assets, and
paths below `Packages` belong to vendored code.

The main names are `Path.split`, `Path.join`, `Path.normalize`, and `Path.folderOf` and
`Path.nameOf`, which cut a path into the folder that a report shows and the bare name.
-/

namespace AssetAudit
namespace Path

/-- The top-level folder that holds the project's own assets. -/
def assetsRoot : String := "Assets"

/-- The top-level folder of vendored packages, which no check looks at. -/
def packagesRoot : String := "Packages"

/-- Both slashes separate segments. -/
def isSeparator (c : Char) : Bool := c == '/' || c == '\\'

/-! ## Texts and segments -/

/-- The segments of a path, in order.  Repeated, leading and trailing separators add nothing. -/
def split (path : String) : List String :=
  ((path.toList.splitOnP isSeparator).filter (!·.isEmpty)).map String.ofList

/-- The canonical text of a list of segments. -/
def join (segments : List String) : String :=
  "/".intercalate segments

/-- The canonical text of a path: single forward slashes, none at either end. -/
def normalize (path : String) : String :=
  join (split path)

@[simp] theorem split_empty : split "" = [] := rfl

@[simp] theorem join_nil : join [] = "" := rfl

@[simp] theorem join_singleton (segment : String) : join [segment] = segment := by
  simp [join]

/-! ## The folder and the name of an asset -/

/-- The last segment, or nothing for a path without segments. -/
def nameOf (segments : List String) : String :=
  segments.getLast?.getD ""

/-- The part of a folder path that starts at its first `Assets` segment, or all of it when there is
none.  A project that lies deep inside a file system, and an inventory whose paths are relative to
the assets themselves, both get folders that a reader recognises. -/
def fromAssets (folders : List String) : List String :=
  match folders.dropWhile (· != assetsRoot) with
  | [] => folders
  | rest => rest

/-- The folder in which the last segment lies, as reports show it. -/
def folderOf (segments : List String) : String :=
  join (fromAssets segments.dropLast)

/-- A path that a user wrote relative to the assets, as a path of the project. -/
def underAssets (relative : String) : String :=
  join (assetsRoot :: split relative)

@[simp] theorem nameOf_append_singleton (folders : List String) (name : String) :
    nameOf (folders ++ [name]) = name := by
  simp [nameOf]

@[simp] theorem folderOf_append_singleton (folders : List String) (name : String) :
    folderOf (folders ++ [name]) = join (fromAssets folders) := by
  simp [folderOf]

/-- A path that already starts at the assets is shown whole. -/
@[simp] theorem fromAssets_cons_assetsRoot (rest : List String) :
    fromAssets (assetsRoot :: rest) = assetsRoot :: rest := by
  simp [fromAssets]

/-! ## Exclusions and accepted folder names -/

/-- Is some segment one of the ignore entries?  Entries are whole names; an empty one means
nothing. -/
def isIgnored (entries : List String) (segments : List String) : Bool :=
  entries.any fun entry => !entry.isEmpty && segments.contains entry

/-- Does the path lie below the vendored packages? -/
def isVendored (segments : List String) : Bool :=
  segments.head? == some packagesRoot

/-- The alternatives of a list of folder names that is written with a bar between them.  Empty
alternatives count for nothing, and blanks are part of a name. -/
def alternatives (names : String) : List String :=
  ((names.toList.splitOn '|').filter (!·.isEmpty)).map String.ofList

@[simp] theorem isIgnored_nil (segments : List String) : isIgnored [] segments = false := rfl

/-- An ignore entry excludes exactly the paths that have it as a segment. -/
theorem isIgnored_iff {entries segments : List String} :
    isIgnored entries segments = true ↔ ∃ entry ∈ entries, entry ≠ "" ∧ entry ∈ segments := by
  simp [isIgnored]

end Path
end AssetAudit
