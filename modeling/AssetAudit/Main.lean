import AssetAudit.CommandLine.Run

/-!
# The program

Reads what a command can come across into a file tree, runs the command that the arguments ask for,
and writes back the files that the command has changed.  What a command does is
`CommandLine.runProgram`; here only the outside world is looked at and touched.

The tree is filled with the folders and links on the ways that the command's path texts take, and
with everything below the folder of the project.  A link is put in by the place to which it leads in
the end, and a link that leads nowhere is left out.  So are entries whose names are no texts, for
they cannot be asked about by name, and what rules reach by `..` outside the project.  Whether
reading is allowed is found out by trying; writing is not tried, so that a refusal ends the program.

No command reads more than one file.  So the tree is filled with names alone, and the content of the
one file is fetched once it is known which it is.
-/

namespace AssetAudit
namespace CommandLine

namespace Command

/-- The path texts that a command follows. -/
def texts : Command → List String
  | .scan request =>
      request.project :: request.config.getD (Config.pathIn request.project) ::
        request.exportPath?.toList
  | .init project _ => [project, Config.pathIn project]
  | .patterns _ => []

/-- The folder through which a command searches, if it does. -/
def searched? : Command → Option String
  | .scan request => some request.project
  | .init _ _ => none
  | .patterns _ => none

/-- The file whose content a command reads, if it reads one. -/
def source? (tree : FileTree) : Command → Option String
  | .scan request => Config.pathFor? tree request.project request.config
  | .init _ _ => none
  | .patterns _ => none

end Command

/-- The files that are new in a tree or have another content than before. -/
def changedFiles (before after : FileTree) : List (List FileName × ByteArray) :=
  after.nodes.filterMap fun (path, node) =>
    match node with
    | .folder _ => none
    | .link _ _ => none
    | .file content _ => if before.node? path = some node then none else some (path, content)

/-! ## Looking at the disk -/

/-- The path text of a path. -/
def absoluteText (path : List FileName) : String := "/" ++ Path.join (path.map FileName.shown)

/-- The names of a path text, as the pieces of a link. -/
def piecesOf (text : String) : List FileName.Piece :=
  (Location.namesIn text).filterMap fun name =>
    if h : name.holdsEnd = false then some ⟨name, h⟩ else none

/-- Does an attempt succeed? -/
def succeeds {α : Type} (attempt : IO α) : BaseIO Bool := do
  match ← attempt.toBaseIO with
  | .ok _ => return true
  | .error _ => return false

/-- What stands at a name in a folder of the disk, if anything does. -/
def look (folder : List FileName) (name : FileName) : BaseIO (Option FileNode) := do
  let entry : IO.FS.DirEntry := ⟨absoluteText folder, name.shown⟩
  let .ok found ← entry.path.symlinkMetadata.toBaseIO | return none
  match found.type with
  | .dir =>
      let itself : IO.FS.DirEntry := ⟨entry.path, "."⟩
      return some (.folder ⟨← succeeds entry.path.readDir, true, ← itself.path.pathExists⟩)
  | .file =>
      return some (.file .empty ⟨← succeeds (IO.FS.Handle.mk entry.path .read), true, true⟩)
  | .other => return some (.file .empty .full)
  | .symlink =>
      let .ok target ← (IO.FS.realPath entry.path).toBaseIO | return none
      return some (.link true (piecesOf target.toString))

/-- The names of the entries of a folder of the disk; none if it cannot be read. -/
def namesBelow (folder : List FileName) : BaseIO (List FileName) := do
  let itself : IO.FS.DirEntry := ⟨absoluteText folder, "."⟩
  match ← itself.path.readDir.toBaseIO with
  | .ok entries => return entries.toList.map fun entry => .text entry.fileName
  | .error _ => return []

/-! ## Filling a tree -/

/-- Goes one name further on a way without links, and puts into the tree what stands there. -/
def addStraight (state : FileTree × List FileName) (name : FileName) :
    BaseIO (FileTree × List FileName) := do
  let (tree, place) := state
  match ← look place name with
  | none => return (tree, place ++ [name])
  | some node => return (tree.insert place name node, place ++ [name])

/-- Puts into a tree what stands at a name in a folder.  The result is the tree and the path to
which the name leads. -/
def addName (tree : FileTree) (place : List FileName) (name : FileName) :
    BaseIO (FileTree × List FileName) := do
  match ← look place name with
  | some (.link absolute pieces) =>
      let (grown, target) ← (pieces.map (·.name)).foldlM addStraight (tree, [])
      return (grown.insert place name (.link absolute pieces), target)
  | some node => return (tree.insert place name node, place ++ [name])
  | none => return (tree, place ++ [name])

/-- Goes one name further. -/
def addStep (state : FileTree × List FileName) (name : FileName) :
    BaseIO (FileTree × List FileName) := do
  let (tree, place) := state
  if name = .here then return (tree, place)
  else if name = .up then return (tree, place.dropLast)
  else addName tree place name

/-- Puts into a tree what stands on the way of a path text. -/
def addWay (tree : FileTree) (text : String) : BaseIO FileTree := do
  match Location.ofText text with
  | .error _ => return tree
  | .ok l => return (← l.names.foldlM addStep (tree, tree.startOf l)).1

/-- Puts into a tree what lies below folders, and where links that are found there lead.  No folder
is looked into twice. -/
partial def addBelow (tree : FileTree) (visited : List (List FileName)) :
    List (List FileName) → BaseIO FileTree
  | [] => return tree
  | folder :: rest => do
      if visited.contains folder then addBelow tree visited rest
      else
        let mut grown := tree
        let mut found := []
        for name in ← namesBelow folder do
          let (next, target) ← addName grown folder name
          grown := next
          if grown.isFolderAt target then found := target :: found
        addBelow grown (folder :: visited) (found ++ rest)

/-- The file system as far as a command comes across it that runs in the given folder. -/
def readTree (here : String) (command : Command) : BaseIO FileTree := do
  let (above, place) ← (Location.namesIn here).foldlM addStraight (FileTree.empty, [])
  let tree ← command.texts.foldlM addWay (above.workIn place)
  match command.searched?.map tree.resolve with
  | some (.ok folder) => if tree.isFolderAt folder then addBelow tree [] [folder] else return tree
  | _ => return tree

/-- Fetches the content of the file to which a path text leads, if it leads to one. -/
def fetch (tree : FileTree) (text : String) : IO FileTree := do
  match tree.resolve text, tree.read text with
  | .ok path, .ok _ => return tree.overwrite path (← IO.FS.readBinFile (absoluteText path))
  | _, _ => return tree

/-! ## Running -/

/-- Are colours wanted?  They can be demanded or refused; a terminal gets them otherwise. -/
def wantsColour : IO Bool := do
  let demand ← IO.getEnv "CLICOLOR_FORCE"
  if demand.any (· != "0") then return true
  if (← IO.getEnv "NO_COLOR").isSome then return false
  if (← IO.getEnv "CLICOLOR") == some "0" then return false
  (← IO.getStdout).isTty

/-- Runs the program in the working directory.  The time of a scan is the time that it takes to look
through the project. -/
def runHere (arguments : List String) : IO UInt32 := do
  let started ← IO.monoMsNow
  let tree ←
    match Command.parse arguments with
    | .error _ => pure .empty
    | .ok command =>
        let names ← readTree (← IO.currentDir).toString command
        match command.source? names with
        | none => pure names
        | some text => fetch names text
  let finished ← IO.monoMsNow
  match runProgram ⟨tree, ← wantsColour, finished - started⟩ arguments with
  | .error e =>
      IO.eprintln ("error: " ++ e.message)
      return 2
  | .ok result =>
      for (path, content) in changedFiles tree result.tree do
        IO.FS.writeBinFile (absoluteText path) content
      IO.print result.output
      IO.eprint result.errors
      return result.exitCode

end CommandLine
end AssetAudit

/-- The program. -/
def main (arguments : List String) : IO UInt32 :=
  AssetAudit.CommandLine.runHere arguments
