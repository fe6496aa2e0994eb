import AssetAudit.CommandLine.Command
import AssetAudit.CommandLine.Outcome
import AssetAudit.Inventory.Disk
import AssetAudit.Report.Csv
import AssetAudit.Report.Json
import AssetAudit.Scan.Auditor

/-!
# The scan command

Loads the configuration, adjusts it to the request, scans the project, exports what was found, and
reports.  The exit code is zero exactly when the scan has passed, whatever is exported and however
the report is written.  A failed export ends the command without a report.
-/

namespace AssetAudit
namespace CommandLine
namespace ScanRequest

/-- The configuration that the request is about. -/
def loadConfig (request : ScanRequest) (tree : FileTree) : Except CommandError Config :=
  match Config.pathFor? tree request.project request.config with
  | none => .ok .default
  | some path => (Config.load tree path).mapError (.configNotLoaded path)

/-- The settings of the configuration with the limit that the request names. -/
def limit (request : ScanRequest) (settings : Settings) : Except CommandError Settings :=
  match request.maxViolations with
  | none => .ok settings
  | some max =>
      if max = 0 then .error .noViolationsAllowed
      else .ok { settings with maxViolations := max }

/-- The settings without the checks that the request skips. -/
def skipChecks (request : ScanRequest) (settings : Settings) : Except CommandError Settings :=
  match settings.filter.disableNamed request.skip with
  | (_, some name) => .error (.unknownCheck name)
  | (filter, none) => .ok { settings with filter }

/-- The rules and settings by which the request scans. -/
def configure (request : ScanRequest) (tree : FileTree) : Except CommandError Config := do
  if !tree.isFolder request.project then throw (.projectNotFound request.project)
  let config ← request.loadConfig tree
  let settings ← request.limit config.settings
  let settings ← request.skipChecks settings
  return { config with settings }

/-- The project as an inventory. -/
def inventory (request : ScanRequest) (tree : FileTree) : Inventory :=
  tree.inventory request.project

/-- The log of the scan. -/
def scan (request : ScanRequest) (tree : FileTree) (config : Config) : ViolationLog :=
  ((Auditor.new config.rules config.settings).scan (request.inventory tree)).log

/-- The file that the request exports to. -/
def exportPath? (request : ScanRequest) : Option String :=
  request.exportTarget.map fun
    | .standard => joinPath request.project Csv.defaultTarget
    | .file path => path

/-- Exports the entries of a log if the request wants it.  The result is the file tree afterwards,
and the file if one was written. -/
def exportLog (request : ScanRequest) (tree : FileTree) (log : ViolationLog) :
    Except CommandError (FileTree × Option String) :=
  match request.exportPath? with
  | none => .ok (tree, none)
  | some path =>
      match Csv.exportTo tree path log.entries with
      | .error failure => .error (.notExported path failure)
      | .ok (written, true) => .ok (written, some path)
      | .ok (written, false) => .ok (written, none)

/-- What the text report says about the export. -/
def exportLines (request : ScanRequest) (exportedTo : Option String) : List Line :=
  match request.exportTarget, exportedTo with
  | none, _ => []
  | some _, some path => [[(.heading, "Exported:"), (.plain, " " ++ path)]]
  | some _, none => [[(.faint, "Nothing to export")]]

/-- The report on a scan. -/
def report (request : ScanRequest) (surroundings : Surroundings) (log : ViolationLog)
    (exportedTo : Option String) : String :=
  if request.json then
    (JsonReport.report request.project log surroundings.milliseconds exportedTo).pretty ++ "\n"
  else
    Line.renderAll surroundings.colour
      (TextReport.lines request.project log surroundings.milliseconds ++
        request.exportLines exportedTo)

/-- Runs the command. -/
def run (request : ScanRequest) (surroundings : Surroundings) : Except CommandError Outcome := do
  let config ← request.configure surroundings.tree
  let log := request.scan surroundings.tree config
  let (tree, exportedTo) ← request.exportLog surroundings.tree log
  return {
    exitCode := if log.hasPassed then 0 else 1
    output := request.report surroundings log exportedTo
    tree }

end ScanRequest
end CommandLine
end AssetAudit
