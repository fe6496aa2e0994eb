import AssetAudit.FileTree

/-!
# Locations

How a path text leads through a file tree.  Names stand between slashes; `.` stays where one is and
`..` goes one folder up, so a text is followed one name at a time, and every name must be looked up
in a folder that the program may enter.  The top is its own upper folder.  There need be nothing at
the last name: a file can be written there.

A link is replaced by its own names, which are followed from the top or from the folder of the link,
and then by the names behind it.  `FileTree.followNames` follows names up to the first link and is
told how to go on there; `FileTree.follow` goes on a limited number of times, so that links in a
circle come to an end.

Some texts lead nowhere in any tree, and that is noticed before the first name is followed: a text
with a NUL character in it, a text of more than 4095 bytes, and the empty text.  The length is that
of the text and not that of the path it leads to, so `./` in front of a path can make it too long.

The reading and writing of files below follows texts in the same way and fails for the same reasons.
-/

namespace AssetAudit

/-- A path text, taken apart. -/
structure Location where
  /-- Does the text start at the top of the file system? -/
  absolute : Bool
  names : List FileName
  /-- Does the text end in a slash, so that only a folder will do? -/
  folderOnly : Bool
  deriving DecidableEq

namespace Location

/-- The greatest length of a path text, in bytes. -/
def maxBytes : Nat := 4095

/-- The names that stand between slashes. -/
def namesIn (text : String) : List FileName :=
  ((text.toList.splitOn '/').filter (!·.isEmpty)).map fun name => .text (String.ofList name)

/-- Takes a path text apart, or says why it leads nowhere. -/
def ofText (text : String) : Except FileFailure Location :=
  if text.toList.contains '\x00' then .error .nulInPath
  else if text.utf8ByteSize > maxBytes then .error .nameTooLong
  else if text.isEmpty then .error .notFound
  else .ok
    { absolute := text.toList.head? == some '/'
      names := namesIn text
      folderOnly := text.toList.getLast? == some '/' }

end Location

/-- A path text below another one, with one slash between them. -/
def joinPath (parent child : String) : String :=
  if parent.isEmpty || parent.toList.getLast? == some '/' then parent ++ child
  else parent ++ "/" ++ child

namespace FileTree

/-! ## Following names -/

/-- The rights on the folder at a path, where a folder is needed. -/
def folderRights (tree : FileTree) (path : List FileName) : Except FileFailure Rights :=
  match tree.node? path with
  | some (.folder rights) => .ok rights
  | some _ => .error .notAFolder
  | none => .error .notFound

/-- Can names be looked up at a path? -/
def lookIn (tree : FileTree) (path : List FileName) : Except FileFailure Unit := do
  if (← tree.folderRights path).enter then .ok () else .error .denied

/-- Follows names from a folder, one after the other.  At a link, `onLink` says where the names of
the link and those behind it lead from the folder in which the link's own text starts. -/
def followNames (tree : FileTree)
    (onLink : List FileName → List FileName → Except FileFailure (List FileName)) :
    List FileName → List FileName → Except FileFailure (List FileName)
  | place, [] => .ok place
  | place, name :: rest =>
      if name = .nothing then do
        let _ ← tree.folderRights place
        followNames tree onLink place rest
      else do
        tree.lookIn place
        if name = .here then followNames tree onLink place rest
        else if name = .up then followNames tree onLink place.dropLast rest
        else if FileName.maxBytes < name.size then .error .nameTooLong
        else
          match tree.node? (place ++ [name]) with
          | some (.link absolute pieces) =>
              onLink (if absolute then [] else place) (pieces.map (·.name) ++ rest)
          | _ => followNames tree onLink (place ++ [name]) rest

/-- Follows names with at most the given number of links. -/
def follow (tree : FileTree) : Nat → List FileName → List FileName →
    Except FileFailure (List FileName)
  | 0 => tree.followNames fun _ _ => .error .tooManyLinks
  | links + 1 => tree.followNames (tree.follow links)

/-- The number of links that a path text may lead through. -/
def maxLinks : Nat := 40

/-- Where a location starts. -/
def startOf (tree : FileTree) (l : Location) : List FileName :=
  if l.absolute then [] else tree.workingFolder

/-- The path of a location; there need be nothing at its end. -/
def locate (tree : FileTree) (l : Location) : Except FileFailure (List FileName) :=
  tree.follow maxLinks (tree.startOf l) l.names

/-- The path to which a path text leads. -/
def resolve (tree : FileTree) (text : String) : Except FileFailure (List FileName) := do
  let l ← Location.ofText text
  let path ← tree.locate l
  match tree.node? path with
  | none => .error .notFound
  | some node => if l.folderOnly && !node.isFolder then .error .notAFolder else .ok path

/-! ## Questions about a path text -/

/-- Does the text lead anywhere? -/
def pathExists (tree : FileTree) (text : String) : Bool :=
  match tree.resolve text with
  | .ok _ => true
  | .error _ => false

/-- Does the text lead to a folder? -/
def isFolder (tree : FileTree) (text : String) : Bool :=
  match tree.resolve text with
  | .ok path => tree.isFolderAt path
  | .error _ => false

/-- Does the text lead to a file? -/
def isFile (tree : FileTree) (text : String) : Bool :=
  match tree.resolve text with
  | .ok path => (tree.node? path).any FileNode.isFile
  | .error _ => false

/-! ## Files -/

/-- The content of a file. -/
def read (tree : FileTree) (text : String) : Except FileFailure ByteArray := do
  match tree.node? (← tree.resolve text) with
  | some (.file content rights) => if rights.read then .ok content else .error .denied
  | some (.folder rights) => .error (if rights.read then .isAFolder else .denied)
  | _ => .error .notFound

/-- The content of a file, which must be text. -/
def readText (tree : FileTree) (text : String) : Except FileFailure String := do
  match String.fromUTF8? (← tree.read text) with
  | some content => .ok content
  | none => .error .notText

/-- Writes a file at a path: an existing one gets another content. -/
def writeAt (tree : FileTree) (path : List FileName) (content : ByteArray) :
    Except FileFailure FileTree :=
  match tree.node? path, path.getLast? with
  | some (.file _ rights), _ =>
      if rights.write then .ok (tree.overwrite path content) else .error .denied
  | none, some name => do
      if (← tree.folderRights path.dropLast).write then
        .ok (tree.insert path.dropLast name (.file content .full))
      else .error .denied
  | _, _ => .error .isAFolder

/-- Writes a file at a path text.  The folder of the file must exist. -/
def write (tree : FileTree) (text : String) (content : ByteArray) :
    Except FileFailure FileTree := do
  let l ← Location.ofText text
  if l.folderOnly then
    tree.lookIn (← tree.locate { l with names := l.names.dropLast })
    .error .isAFolder
  else tree.writeAt (← tree.locate l) content

/-- Writes a text file at a path text. -/
def writeText (tree : FileTree) (text content : String) : Except FileFailure FileTree :=
  tree.write text content.toUTF8

/-! ## Folders -/

/-- Follows one name and makes a folder if there is nothing of that name. -/
def enterNew : FileTree × List FileName → FileName → Except FileFailure (FileTree × List FileName)
  | (tree, place), name => do
      let next ← tree.follow maxLinks place [name]
      match tree.node? next, next.getLast? with
      | none, some last => .ok (tree.insert next.dropLast last (.folder .full), next)
      | _, _ => .ok (tree, next)

/-- Makes the folders of a list of names, where they do not exist yet. -/
def makeFolders (tree : FileTree) (names : List FileName) : Except FileFailure FileTree := do
  let (grown, place) ← names.foldlM enterNew (tree, tree.workingFolder)
  if grown.isFolderAt place then .ok grown else .error .notAFolder

/-- Makes the folder of a path text with all folders above it. -/
def addFolder (tree : FileTree) (text : String) : Except FileFailure FileTree :=
  if text.isEmpty then .ok tree else do tree.makeFolders (← Location.ofText text).names

/-- Writes a file and makes the folders above it. -/
def addFile (tree : FileTree) (text : String) (content : ByteArray) :
    Except FileFailure FileTree := do
  let grown ← tree.makeFolders (← Location.ofText text).names.dropLast
  grown.write text content

end FileTree

end AssetAudit
