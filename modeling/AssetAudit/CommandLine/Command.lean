import AssetAudit.CommandLine.Options

/-!
# Commands

What the user can ask for.  `Command.parse` reads the arguments of the program: global options, the
name of a command, and the options of that command, among which the global ones may stand again.
-/

namespace AssetAudit
namespace CommandLine

/-- Where the results of a scan are exported to. -/
inductive ExportTarget where
  /-- To the usual place in the project. -/
  | standard
  /-- To a file that the user names. -/
  | file (path : String)
  deriving DecidableEq, Repr

/-- How a project is to be scanned. -/
structure ScanRequest where
  project : String
  /-- The configuration file, if it is not that of the project. -/
  config : Option String
  /-- The number of violations to record, if it is not that of the configuration. -/
  maxViolations : Option UInt64
  exportTarget : Option ExportTarget
  /-- Is the report written as JSON? -/
  json : Bool
  /-- The names of the checks to switch off. -/
  skip : List String
  deriving DecidableEq, Repr

/-- What the user asks for. -/
inductive Command where
  /-- Scan a project. -/
  | scan (request : ScanRequest)
  /-- Write a configuration into a project. -/
  | init (project : String) (force : Bool)
  /-- List the naming styles and the suffixes. -/
  | patterns (json : Bool)
  deriving DecidableEq, Repr

namespace Command

/-! ## The options of each command -/

/-- Asks for a log on what the program does. -/
def verboseOption : OptionSpec := { name := "verbose", short := some 'v', arity := .flag }

/-- Names the folder of the project. -/
def projectOption : OptionSpec := { name := "project", short := some 'p', arity := .value }

/-- Asks for JSON. -/
def jsonOption : OptionSpec := { name := "json", arity := .flag }

/-- The options of a scan. -/
def scanOptions : List OptionSpec :=
  [verboseOption, projectOption, jsonOption,
    { name := "config", short := some 'c', arity := .value },
    { name := "max-violations", arity := .value },
    { name := "export", arity := .optionalValue },
    { name := "skip", arity := .value, repeatable := true }]

/-- The options for writing a configuration. -/
def initOptions : List OptionSpec :=
  [verboseOption, projectOption, { name := "force", arity := .flag }]

/-- The options for listing the styles. -/
def patternsOptions : List OptionSpec := [verboseOption, jsonOption]

/-! ## Reading -/

/-- The number that digits denote, possibly behind a plus sign. -/
def count? (text : String) : Option UInt64 :=
  let digits :=
    match text.toList with
    | '+' :: rest => rest
    | rest => rest
  if digits.isEmpty || !digits.all Char.isDigit then none
  else
    let n := digits.foldl (fun n c => 10 * n + (c.toNat - '0'.toNat)) 0
    if n < UInt64.size then some (UInt64.ofNat n) else none

/-- The project that the options name; the working directory if they name none. -/
def projectOf (given : List GivenOption) : String :=
  (Options.valuesOf given "project").head?.getD "."

/-- The export target that the options name. -/
def exportTargetOf (given : List GivenOption) : Option ExportTarget :=
  match given.find? (·.name == "export") with
  | none => none
  | some ⟨_, none⟩ => some .standard
  | some ⟨_, some path⟩ => some (.file path)

/-- The number of violations that the options name. -/
def maxViolationsOf (given : List GivenOption) : Except UsageError (Option UInt64) :=
  match (Options.valuesOf given "max-violations").head? with
  | none => .ok none
  | some text =>
      match count? text with
      | none => .error (.invalidNumber "max-violations" text)
      | some n => .ok (some n)

/-- All options of a command, behind which nothing else may stand. -/
def readOptions (specs : List OptionSpec) (arguments : List String) :
    Except UsageError (List GivenOption) := do
  match ← Options.readAll specs arguments with
  | (given, []) => return given
  | (_, argument :: _) => throw (.unexpectedArgument argument)

/-- Reads a scan. -/
def parseScan (arguments : List String) : Except UsageError Command := do
  let given ← readOptions scanOptions arguments
  let maxViolations ← maxViolationsOf given
  return .scan
    { project := projectOf given
      config := (Options.valuesOf given "config").head?
      maxViolations
      exportTarget := exportTargetOf given
      json := Options.isGiven given "json"
      skip := Options.valuesOf given "skip" }

/-- Reads the command behind the global options. -/
def parseNamed (name : String) (arguments : List String) : Except UsageError Command :=
  if name = "scan" then parseScan arguments
  else if name = "init" then do
    let given ← readOptions initOptions arguments
    return .init (projectOf given) (Options.isGiven given "force")
  else if name = "patterns" then do
    let given ← readOptions patternsOptions arguments
    return .patterns (Options.isGiven given "json")
  else .error (.unknownCommand name)

/-- Reads the arguments of the program. -/
def parse (arguments : List String) : Except UsageError Command := do
  match ← Options.readAll [verboseOption] arguments with
  | (_, []) => throw .missingCommand
  | (_, name :: rest) => parseNamed name rest

end Command

end CommandLine
end AssetAudit
