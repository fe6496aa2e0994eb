import AssetAudit.Config
import AssetAudit.FileTree.Location

/-!
# Configuration files

Reading and writing configurations in a file tree.  A scan uses the file that the user names, which
must exist, or else the one in the folder of the project, which may be missing.
-/

namespace AssetAudit

/-- Why a configuration could not be loaded. -/
inductive ConfigError where
  /-- The file could not be read. -/
  | file (failure : FileFailure)
  /-- The file could be read and is no configuration. -/
  | content (error : ConfigTextError)
  deriving DecidableEq, Repr

namespace ConfigError

/-- What there is to tell the user.  What the system says about a file stands twice, as the failure
and as its cause. -/
def message : ConfigError → String
  | .file failure => "i/o error: " ++ failure.message ++ ": " ++ failure.message
  | .content error => error.message

end ConfigError

namespace Config

/-- Reads a configuration file. -/
def load (tree : FileTree) (path : String) : Except ConfigError Config := do
  let text ← (tree.readText path).mapError .file
  (ofText text).mapError .content

/-- Writes a configuration file. -/
def save (config : Config) (tree : FileTree) (path : String) : Except FileFailure FileTree :=
  tree.writeText path (config.toText ++ "\n")

/-- The path of the configuration file of a project. -/
def pathIn (project : String) : String := joinPath project fileName

/-- The path of the configuration file that a scan reads; none if the project has no file and the
user names none. -/
def pathFor? (tree : FileTree) (project : String) (named : Option String) : Option String :=
  match named with
  | some path => some path
  | none => if tree.isFile (pathIn project) then some (pathIn project) else none

end Config

end AssetAudit
