import AssetAudit.Config.File
import AssetAudit.Report.Terminal

/-!
# What a command leaves behind

A command writes to its standard output, may write files, and ends with an exit code; or it gives up
for a reason that the user can understand, having changed nothing.
-/

namespace AssetAudit
namespace CommandLine

/-- Under what circumstances a command runs. -/
structure Surroundings where
  /-- The file system, and the working directory in it. -/
  tree : FileTree
  /-- Are colours wanted? -/
  colour : Bool
  /-- How long scans take, in milliseconds. -/
  milliseconds : Nat

/-- A command that has come to its end. -/
structure Outcome where
  exitCode : UInt32
  output : String
  /-- The file system afterwards. -/
  tree : FileTree

/-- Why a command gives up. -/
inductive CommandError where
  | projectNotFound (project : String)
  | configNotLoaded (path : String) (error : ConfigError)
  | noViolationsAllowed
  | unknownCheck (name : String)
  | notExported (path : String) (failure : FileFailure)
  | configExists (path : String)
  | configNotWritten (path : String) (failure : FileFailure)
  deriving DecidableEq, Repr

namespace CommandError

/-- What the system says about a failed file, as the failure and as its cause. -/
def fileMessage (failure : FileFailure) : String := (ConfigError.file failure).message

/-- What there is to tell the user. -/
def message : CommandError → String
  | .projectNotFound project => "project directory not found: " ++ project
  | .configNotLoaded path error =>
      "Failed to load configuration: " ++ path ++ ": " ++ error.message
  | .noViolationsAllowed => "--max-violations must be at least 1"
  | .unknownCheck name =>
      "unknown check '" ++ name ++
        "', expected special-folders, folders, conditions or an asset category"
  | .notExported path failure =>
      "Failed to export results to " ++ path ++ ": " ++ fileMessage failure
  | .configExists path => path ++ " already exists (use --force to overwrite)"
  | .configNotWritten path failure =>
      "Failed to write " ++ path ++ ": " ++ fileMessage failure

/-- The line that tells the user. -/
def line (e : CommandError) : Line := [(.error, "error"), (.plain, ": " ++ e.message)]

end CommandError

end CommandLine
end AssetAudit
