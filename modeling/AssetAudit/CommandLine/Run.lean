import AssetAudit.CommandLine.Scan

/-!
# Running the program

Beside `scan` there are two commands.  `init` writes the default configuration into the folder of a
project; a configuration that is already there is kept unless the user insists.  `patterns` lists
the naming styles, with their selectors and grammars, and the suffixes of the categories.

The program reads its arguments, runs the command that they ask for, and ends with an exit code:
that of the command, 1 if the command gives up, 2 if the arguments cannot be understood.
-/

namespace AssetAudit
namespace CommandLine

/-! ## The init command -/

/-- Runs the command. -/
def runInit (project : String) (force : Bool) (surroundings : Surroundings) :
    Except CommandError Outcome := do
  if !surroundings.tree.isFolder project then throw (.projectNotFound project)
  let path := Config.pathIn project
  if surroundings.tree.pathExists path && !force then throw (.configExists path)
  match Config.default.save surroundings.tree path with
  | .error failure => throw (.configNotWritten path failure)
  | .ok tree =>
      return {
        exitCode := 0
        output := Line.renderAll surroundings.colour
          [[(.success, "Created"), (.plain, " " ++ path)]]
        tree }

/-! ## The patterns command -/

/-- A text that takes at least the given width. -/
def padded (width : Nat) (text : String) : String :=
  text ++ String.ofList (List.replicate (width - text.length) ' ')

/-- The lines of a naming style. -/
def styleLines (s : Naming.Style) : List Line :=
  [[(.plain, "  "), (.strong, toString s.selector.toNat), (.plain, " " ++ padded 18 s.name ++ " "),
      (.faint, s.sample)],
    .plain ("      " ++ s.grammarText)]

/-- The line of a category. -/
def suffixLine (c : Category) : Line :=
  let suffix := Naming.suffixText c
  .plain ("  " ++ padded 10 c.name ++ " " ++ (if suffix.isEmpty then "(none)" else suffix))

/-- The lists for reading. -/
def patternLines : List Line :=
  [(.heading, "Naming styles")] :: Naming.Style.all.flatMap styleLines ++
    Line.blank :: [(.heading, "Category suffixes")] :: Category.all.map suffixLine

/-- The lists for other programs. -/
def patternJson : Json :=
  Json.record
    [("styles",
        .array (Naming.Style.all.map fun s =>
          Json.record
            [("selector", .nat s.selector.toNat), ("style", .text s.name),
              ("grammar", .text s.grammarText), ("example", .text s.sample)])),
      ("suffixes",
        .array (Category.all.map fun c =>
          Json.record [("category", .text c.name), ("suffix", .text (Naming.suffixText c))]))]

/-- Runs the command. -/
def runPatterns (json : Bool) (surroundings : Surroundings) : Outcome where
  exitCode := 0
  output :=
    if json then patternJson.pretty ++ "\n"
    else Line.renderAll surroundings.colour patternLines
  tree := surroundings.tree

/-! ## The program -/

/-- Everything that a run of the program leaves behind. -/
structure Result where
  exitCode : UInt32
  output : String
  errors : String
  tree : FileTree

namespace Command

/-- Runs a command. -/
def run (surroundings : Surroundings) : Command → Except CommandError Outcome
  | .scan request => request.run surroundings
  | .init project force => runInit project force surroundings
  | .patterns json => .ok (runPatterns json surroundings)

/-- Runs a command to its end.  A command that gives up says why and leaves everything as it was. -/
def execute (surroundings : Surroundings) (command : Command) : Result :=
  match command.run surroundings with
  | .ok outcome => ⟨outcome.exitCode, outcome.output, "", outcome.tree⟩
  | .error e => ⟨1, "", Line.renderAll surroundings.colour [e.line], surroundings.tree⟩

end Command

/-- Runs the program. -/
def runProgram (surroundings : Surroundings) (arguments : List String) : Except UsageError Result :=
  (Command.parse arguments).map (Command.execute surroundings)

end CommandLine
end AssetAudit
