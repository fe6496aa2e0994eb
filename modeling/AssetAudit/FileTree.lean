import AssetAudit.FileTree.FileName

/-!
# File trees

The folders, files and links of a file system, as a finite map from paths to nodes, and the folder
in which the program works.  A path is the list of the names from the top down; the top itself is
the empty path and always a folder.  The map is closed upwards: above every node there are only
folders.

A folder or file grants rights to the program, which is one user throughout.  A link holds the path
text of what it stands for, cut at its slashes; that there is something is not required.

Left out is what the program has no influence on and does not ask about: devices and pipes, several
names for one file, times and owners, what other programs do meanwhile, and a disk that fails or is
full, so a write never stops half-way.  A new file can be read and written by the program.

`FileTree.node?` is the view of a tree.  A tree grows by `FileTree.insert`, which puts a new node
into an existing folder, and changes by `FileTree.overwrite`, which gives a file another content.
-/

namespace AssetAudit

/-- What the program may do with a folder or file. -/
structure Rights where
  /-- Reading a file, or listing a folder. -/
  read : Bool
  /-- Writing a file, or putting files into a folder. -/
  write : Bool
  /-- Looking up a name in a folder. -/
  enter : Bool
  deriving DecidableEq, Repr

namespace Rights

/-- Everything is allowed. -/
def full : Rights := ⟨true, true, true⟩

/-- Nothing is allowed. -/
def none : Rights := ⟨false, false, false⟩

end Rights

/-- What stands at a path. -/
inductive FileNode where
  | folder (rights : Rights)
  | file (content : ByteArray) (rights : Rights)
  /-- A link whose text has these pieces between its slashes.  An empty piece is one of a slash too
  many; at the end it asks for a folder. -/
  | link (absolute : Bool) (pieces : List FileName.Piece)

/-- Files are equal when their bytes and rights are. -/
instance : DecidableEq FileNode
  | .folder r, .folder r' => decidable_of_iff (r = r') (by simp)
  | .file a r, .file b r' =>
      decidable_of_iff (a.data = b.data ∧ r = r') (by simp [ByteArray.ext_iff])
  | .link a pieces, .link a' pieces' => decidable_of_iff (a = a' ∧ pieces = pieces') (by simp)
  | .folder _, .file _ _ | .folder _, .link _ _ | .file _ _, .folder _ | .file _ _, .link _ _
  | .link _ _, .folder _ | .link _ _, .file _ _ => isFalse nofun

namespace FileNode

/-- Is the node a folder? -/
def isFolder : FileNode → Bool
  | folder _ => true
  | file _ _ => false
  | link _ _ => false

/-- Is the node a file? -/
def isFile : FileNode → Bool
  | folder _ => false
  | file _ _ => true
  | link _ _ => false

/-- Is the node a link? -/
def isLink : FileNode → Bool
  | folder _ => false
  | file _ _ => false
  | link _ _ => true

end FileNode

/-- Why a path could not be used. -/
inductive FileFailure where
  /-- There is nothing of that name. -/
  | notFound
  /-- The path leads through a file. -/
  | notAFolder
  /-- A file is needed and there is a folder. -/
  | isAFolder
  /-- A name is longer than 255 bytes, or the whole path longer than 4095. -/
  | nameTooLong
  /-- The path leads through too many links, perhaps in a circle. -/
  | tooManyLinks
  /-- The program lacks a right. -/
  | denied
  /-- The path holds a NUL character, which ends every path. -/
  | nulInPath
  /-- The content of the file is no text. -/
  | notText
  deriving DecidableEq, Repr

namespace FileFailure

/-- What the system says about the failure. -/
def message : FileFailure → String
  | .notFound => "No such file or directory (os error 2)"
  | .notAFolder => "Not a directory (os error 20)"
  | .isAFolder => "Is a directory (os error 21)"
  | .nameTooLong => "File name too long (os error 36)"
  | .tooManyLinks => "Too many levels of symbolic links (os error 40)"
  | .denied => "Permission denied (os error 13)"
  | .nulInPath => "file name contained an unexpected NUL byte"
  | .notText => "stream did not contain valid UTF-8"

end FileFailure

/-- A file system, and the folder in which the program works. -/
structure FileTree where
  nodes : List (List FileName × FileNode)
  /-- No path occurs twice. -/
  distinct : (nodes.map Prod.fst).Nodup
  /-- The folder at the top is not listed. -/
  below : ∀ entry ∈ nodes, entry.1 ≠ []
  /-- Every node lies in a folder. -/
  closed : ∀ entry ∈ nodes,
    entry.1.dropLast = [] ∨ ∃ rights, (entry.1.dropLast, .folder rights) ∈ nodes
  /-- All names are legal. -/
  legal : ∀ entry ∈ nodes, ∀ name ∈ entry.1, name.isLegal = true
  /-- The rights on the folder at the top. -/
  topRights : Rights
  /-- Where path texts start that do not start at the top. -/
  workingFolder : List FileName
  /-- The program works in a folder. -/
  works_in : workingFolder = [] ∨ ∃ rights, (workingFolder, .folder rights) ∈ nodes

namespace FileTree

/-- A file system with nothing in it. -/
def empty : FileTree where
  nodes := []
  distinct := List.nodup_nil
  below := by simp
  closed := by simp
  legal := by simp
  topRights := .full
  workingFolder := []
  works_in := .inl rfl

/-- What stands at a path, if anything does. -/
def node? (tree : FileTree) : List FileName → Option FileNode
  | [] => some (.folder tree.topRights)
  | path => (tree.nodes.find? (·.1 == path)).map Prod.snd

@[simp] theorem node?_nil (tree : FileTree) : tree.node? [] = some (.folder tree.topRights) := rfl

theorem node?_of_ne_nil (tree : FileTree) {path : List FileName} (h : path ≠ []) :
    tree.node? path = (tree.nodes.find? (·.1 == path)).map Prod.snd := by
  cases path with
  | nil => exact absurd rfl h
  | cons name rest => rfl

theorem mem_of_node?_eq_some {tree : FileTree} {path : List FileName} {node : FileNode}
    (hne : path ≠ []) (h : tree.node? path = some node) : (path, node) ∈ tree.nodes := by
  rw [node?_of_ne_nil tree hne] at h
  obtain ⟨⟨found, _⟩, hfind, rfl⟩ := Option.map_eq_some_iff.1 h
  have hpath : found = path := by simpa using List.find?_some hfind
  exact hpath ▸ List.mem_of_find?_eq_some hfind

theorem notMem_of_node?_eq_none {tree : FileTree} {path : List FileName}
    (h : tree.node? path = none) : path ∉ tree.nodes.map Prod.fst := by
  intro hmem
  obtain ⟨entry, hentry, rfl⟩ := List.mem_map.1 hmem
  rw [node?_of_ne_nil tree (tree.below entry hentry)] at h
  have hnone := List.find?_eq_none.1 (Option.map_eq_none_iff.1 h) entry hentry
  simp at hnone

/-- Is there a folder at the path? -/
def isFolderAt (tree : FileTree) (path : List FileName) : Bool :=
  (tree.node? path).any FileNode.isFolder

theorem isFolderAt_iff {tree : FileTree} {path : List FileName} :
    tree.isFolderAt path = true ↔ ∃ rights, tree.node? path = some (.folder rights) := by
  rw [isFolderAt, Option.any_eq_true]
  constructor
  · rintro ⟨node, hnode, hfolder⟩
    cases node with
    | folder rights => exact ⟨rights, hnode⟩
    | file content rights => cases hfolder
    | link absolute pieces => cases hfolder
  · rintro ⟨rights, hnode⟩
    exact ⟨_, hnode, rfl⟩

/-- The rights on the folder at the path; there are none on what is no folder. -/
def rightsAt (tree : FileTree) (path : List FileName) : Rights :=
  match tree.node? path with
  | some (.folder rights) => rights
  | _ => .none

/-- The tree for a program that works in another folder; it stays as it is if there is no such
folder. -/
def workIn (tree : FileTree) (path : List FileName) : FileTree :=
  if h : tree.isFolderAt path = true then
    { tree with
      workingFolder := path
      works_in := by
        by_cases hnil : path = []
        · exact .inl hnil
        · obtain ⟨rights, hnode⟩ := isFolderAt_iff.mp h
          exact .inr ⟨rights, mem_of_node?_eq_some hnil hnode⟩ }
  else tree

/-- Can a node of this name be put into a folder?  The folder must exist and not hold the name
yet. -/
def hasRoomFor (tree : FileTree) (folder : List FileName) (name : FileName) : Bool :=
  tree.isFolderAt folder && (tree.node? (folder ++ [name])).isNone && name.isLegal

theorem hasRoomFor_iff {tree : FileTree} {folder : List FileName} {name : FileName} :
    tree.hasRoomFor folder name = true ↔
      tree.isFolderAt folder = true ∧ tree.node? (folder ++ [name]) = none ∧
        name.isLegal = true := by
  simp [hasRoomFor, and_assoc]

/-- The names on the way to a folder are legal. -/
theorem isLegal_of_isFolderAt {tree : FileTree} {folder : List FileName}
    (h : tree.isFolderAt folder = true) {name : FileName} (hname : name ∈ folder) :
    name.isLegal = true := by
  obtain ⟨rights, hnode⟩ := isFolderAt_iff.mp h
  exact tree.legal _ (mem_of_node?_eq_some (List.ne_nil_of_mem hname) hnode) name hname

/-- Puts a new node into a folder; the tree stays as it is if it cannot be put there. -/
def insert (tree : FileTree) (folder : List FileName) (name : FileName) (node : FileNode) :
    FileTree :=
  if h : tree.hasRoomFor folder name = true then
    { tree with
      nodes := tree.nodes ++ [(folder ++ [name], node)]
      distinct := by
        have hnone := (hasRoomFor_iff.mp h).2.1
        rw [List.map_append]
        refine List.nodup_append.2 ⟨tree.distinct, by simp, ?_⟩
        rintro a ha b hb rfl
        have hab : a = folder ++ [name] := by simpa using hb
        exact notMem_of_node?_eq_none hnone (hab ▸ ha)
      below := by
        intro entry hentry
        rcases List.mem_append.1 hentry with hentry | hentry
        · exact tree.below entry hentry
        · rw [List.mem_singleton.1 hentry]
          simp
      closed := by
        intro entry hentry
        rcases List.mem_append.1 hentry with hentry | hentry
        · exact (tree.closed entry hentry).imp_right fun ⟨rights, hmem⟩ =>
            ⟨rights, List.mem_append_left _ hmem⟩
        · rw [List.mem_singleton.1 hentry, List.dropLast_concat]
          by_cases hfolder : folder = []
          · exact .inl hfolder
          · obtain ⟨rights, hnode⟩ := isFolderAt_iff.mp (hasRoomFor_iff.mp h).1
            exact .inr ⟨rights, List.mem_append_left _ (mem_of_node?_eq_some hfolder hnode)⟩
      legal := by
        intro entry hentry
        rcases List.mem_append.1 hentry with hentry | hentry
        · exact tree.legal entry hentry
        · rw [List.mem_singleton.1 hentry]
          intro x hx
          rcases List.mem_append.1 hx with hx | hx
          · exact isLegal_of_isFolderAt (hasRoomFor_iff.mp h).1 hx
          · rw [List.mem_singleton.1 hx]
            exact (hasRoomFor_iff.mp h).2.2
      works_in := tree.works_in.imp_right fun ⟨rights, hmem⟩ =>
        ⟨rights, List.mem_append_left _ hmem⟩ }
  else tree

/-- A node with another content, if it is a file at the given path. -/
def overwriteEntry (path : List FileName) (content : ByteArray) :
    List FileName × FileNode → List FileName × FileNode
  | (other, .file old rights) => (other, .file (if other = path then content else old) rights)
  | (other, .folder rights) => (other, .folder rights)
  | (other, .link absolute pieces) => (other, .link absolute pieces)

@[simp] theorem fst_overwriteEntry (path : List FileName) (content : ByteArray)
    (entry : List FileName × FileNode) : (overwriteEntry path content entry).1 = entry.1 := by
  obtain ⟨other, node⟩ := entry
  cases node <;> rfl

/-- Gives the file at a path another content. -/
def overwrite (tree : FileTree) (path : List FileName) (content : ByteArray) : FileTree :=
  { tree with
    nodes := tree.nodes.map (overwriteEntry path content)
    distinct := by
      have hfst : Prod.fst ∘ overwriteEntry path content = Prod.fst := by
        funext entry
        simp
      rw [List.map_map, hfst]
      exact tree.distinct
    below := by
      intro entry hentry
      obtain ⟨old, hold, rfl⟩ := List.mem_map.1 hentry
      rw [fst_overwriteEntry]
      exact tree.below old hold
    closed := by
      intro entry hentry
      obtain ⟨old, hold, rfl⟩ := List.mem_map.1 hentry
      rw [fst_overwriteEntry]
      exact (tree.closed old hold).imp_right fun ⟨rights, hmem⟩ =>
        ⟨rights, List.mem_map.2 ⟨_, hmem, rfl⟩⟩
    legal := by
      intro entry hentry
      obtain ⟨old, hold, rfl⟩ := List.mem_map.1 hentry
      rw [fst_overwriteEntry]
      exact tree.legal old hold
    works_in := tree.works_in.imp_right fun ⟨rights, hmem⟩ =>
      ⟨rights, List.mem_map.2 ⟨_, hmem, rfl⟩⟩ }

/-! ## What the operations do to the nodes -/

/-- A new node stands where it has been put, and nothing else changes. -/
theorem node?_insert {tree : FileTree} {folder : List FileName} {name : FileName} {node : FileNode}
    (h : tree.hasRoomFor folder name = true) (path : List FileName) :
    (tree.insert folder name node).node? path =
      if path = folder ++ [name] then some node else tree.node? path := by
  by_cases hnil : path = []
  · subst hnil
    simp [insert, h]
  · rw [node?_of_ne_nil _ hnil, node?_of_ne_nil _ hnil, insert, dif_pos h, List.find?_append]
    by_cases hpath : path = folder ++ [name]
    · have hnone := (hasRoomFor_iff.1 h).2.1
      rw [← hpath, node?_of_ne_nil _ hnil, Option.map_eq_none_iff] at hnone
      simp [hnone, ← hpath]
    · have hne : ((folder ++ [name]) == path) = false := by simpa using Ne.symm hpath
      simp [hne, hpath]

/-- A file that is overwritten has another content, and nothing else changes. -/
theorem node?_overwrite (tree : FileTree) (target : List FileName) (content : ByteArray)
    (path : List FileName) :
    (tree.overwrite target content).node? path =
      (tree.node? path).map fun node => (overwriteEntry target content (path, node)).2 := by
  by_cases hnil : path = []
  · subst hnil
    rfl
  · rw [node?_of_ne_nil _ hnil, node?_of_ne_nil _ hnil, overwrite, List.find?_map]
    have hkey : (fun entry : List FileName × FileNode => entry.1 == path) ∘
        overwriteEntry target content = fun entry => entry.1 == path := by
      funext entry
      simp
    rw [hkey, Option.map_map, Option.map_map]
    cases hfind : tree.nodes.find? (fun entry => entry.1 == path) with
    | none => rfl
    | some entry =>
      have hpath : entry.1 = path := by simpa using List.find?_some hfind
      simp [← hpath]

@[simp] theorem workingFolder_insert (tree : FileTree) (folder : List FileName) (name : FileName)
    (node : FileNode) : (tree.insert folder name node).workingFolder = tree.workingFolder := by
  rw [insert]
  split <;> rfl

@[simp] theorem workingFolder_overwrite (tree : FileTree) (path : List FileName)
    (content : ByteArray) : (tree.overwrite path content).workingFolder = tree.workingFolder := rfl

/-! ## Folders as starting points -/

/-- Everything strictly below a folder, each with its path from there. -/
def contents (tree : FileTree) (folder : List FileName) : List (List FileName × FileNode) :=
  tree.nodes.filterMap fun (path, node) =>
    if folder.isPrefixOf path && path.length != folder.length then
      some (path.drop folder.length, node)
    else none

end FileTree

end AssetAudit
