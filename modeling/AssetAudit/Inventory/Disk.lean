import AssetAudit.FileTree.Location
import AssetAudit.Inventory
import AssetAudit.Path

/-!
# Inventories of file trees

The project in a folder of a file tree.  A query path is cut at both separators, put below the path
text of the folder, and then followed through the tree like any other text, so `..` works; answers
repeat the segments of the query, without those that only stay in place, and continue with what was
found.

Hidden entries, which start with a dot, and backup entries, which end with a tilde, are passed over
with all that lies below them.  The folder in which a search starts is never passed over.  Searching
the whole project for assets looks below `Assets` and `Packages` only, because an editor keeps
caches beside them.

A search may start at a link, and then looks into the folder to which that leads.  Links that it
comes across are neither folders nor assets, and it does not follow them.

A search reaches a folder by the path text of its start and the names from there.  A folder for
which that text is too long, or which the program may not read, is found where it lies, and what
lies below it is not.  Failures on the way are passed over in silence.
-/

namespace AssetAudit

/-- Is an entry shown?  Names that start with a dot or end with a tilde are not. -/
def isVisible (name : String) : Bool :=
  !(name.toList.head? == some '.') && !(name.toList.getLast? == some '~')

/-- The path text of names below a folder. -/
def pathBelow (folder : String) (names : List String) : String :=
  if names.isEmpty then folder else joinPath folder (Path.join names)

/-- The length in bytes of the path of names below a folder. -/
def sizeBelow (folder : String) (names : List FileName) : Nat :=
  if names.isEmpty then folder.utf8ByteSize
  else
    (joinPath folder "").utf8ByteSize + names.foldr (fun name size => name.size + size) 0 +
      (names.length - 1)

/-- Does a search that starts at a path text reach an entry with this path from there?  It does if
the path of the folder of the entry is not too long; the entry's own length makes no difference. -/
def isReached (start : String) (path : List FileName) : Bool :=
  decide (sizeBelow start path.dropLast ≤ Location.maxBytes)

/-- The segments of a query that answers repeat.  The names `.` in it are left out, apart from one
at the beginning of a text that is put below nothing. -/
def keptSegments (root : String) : List String → List String
  | "." :: rest =>
      if root.isEmpty then "." :: rest.filter (· != ".") else rest.filter (· != ".")
  | query => query.filter (· != ".")

/-- The path of a found entry, from the root of the project. -/
def foundPath (root : String) (query : List String) (found : List FileName) : String :=
  Path.join (keptSegments root query ++ found.map FileName.shown)

/-- Texts in ascending order. -/
def sortTexts (texts : List String) : List String :=
  texts.mergeSort fun a b => decide (a ≤ b)

namespace FileTree

/-- Does a search that starts in a folder list the entry with this path from there?  Each folder on
the way must be readable, and what lies deeper is reached by names that are looked up in it. -/
def isListed (tree : FileTree) (folder : List FileName) : List FileName → Bool
  | [] => true
  | name :: rest =>
      (tree.rightsAt folder).read && (rest.isEmpty || (tree.rightsAt folder).enter) &&
        tree.isListed (folder ++ [name]) rest

/-- The entries that a search from a query path comes across, with their paths from there. -/
def search (tree : FileTree) (root : String) (query : List String) :
    List (List FileName × FileNode) :=
  let start := pathBelow root query
  match tree.resolve start with
  | .ok folder =>
      (tree.contents folder).filter fun (path, _) =>
        path.all (isVisible ·.shown) && isReached start path && tree.isListed folder path
  | .error _ => []

/-- Does a query path lead to a folder? -/
def projectFolderExists (tree : FileTree) (root : String) (path : String) : Bool :=
  tree.isFolder (pathBelow root (Path.split path))

/-- The folders below a query path that satisfy a condition on their path from there. -/
def projectFolders (tree : FileTree) (root : String) (path : String)
    (wanted : List FileName → Bool) : List String :=
  let query := Path.split path
  sortTexts ((tree.search root query).filterMap fun (found, node) =>
    if node.isFolder && wanted found then some (foundPath root query found) else none)

/-- The files of a category below a query path, in no particular order. -/
def projectFiles (tree : FileTree) (root : String) (c : FileCategory) (path : String) :
    List String :=
  let query := Path.split path
  ((tree.search root query).filterMap fun (found, node) =>
    if node.isFile then some (foundPath root query found) else none).filter c.discovers

/-- The answers that the project in a folder gives to a scan. -/
def inventory (tree : FileTree) (root : String) : Inventory where
  folderExists := tree.projectFolderExists root
  subfolders := fun path => tree.projectFolders root path (·.length == 1)
  foldersBelow := fun path => tree.projectFolders root path (fun _ => true)
  assets := fun c within =>
    let starts :=
      match within with
      | some path => [path]
      | none => [Path.assetsRoot, Path.packagesRoot]
    sortTexts (starts.flatMap (tree.projectFiles root c))

end FileTree

end AssetAudit
