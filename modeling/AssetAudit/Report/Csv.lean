import AssetAudit.FileTree.Location
import AssetAudit.Violation

/-!
# Exports

Violations are exported as a file of comma-separated values: a header line, and one line for each
violation with group, category, name and folder.  Fields are written as they are.  The first two
never hold a comma, and the folder comes last, so a line can be cut at its first three commas as
long as the name holds none.

Nothing is written when there is nothing to export, so an old file then stays as it is.
-/

namespace AssetAudit
namespace Csv

/-! ## Tables -/

/-- The names of the columns. -/
def header : String := "ERROR NAME, ASSET TYPE, ASSET NAME, ASSET PATH"

/-- The line of a violation, without its end. -/
def row (v : Violation) : String :=
  ",".intercalate [v.group.label, v.category.name, v.name, v.folder]

/-- The lines of a table. -/
def lines (vs : List Violation) : List String := header :: vs.map row

/-- The table of a list of violations; every line ends with a line break. -/
def text (vs : List Violation) : String :=
  String.join ((lines vs).map (· ++ "\n"))

/-! ## Files -/

/-- Where violations are exported to unless the user says otherwise, below the project. -/
def defaultTarget : String := "Assets/AssetGuard_Results.csv"

/-- Writes violations to a file and says whether it was written. -/
def exportTo (tree : FileTree) (path : String) (vs : List Violation) :
    Except FileFailure (FileTree × Bool) :=
  if vs.isEmpty then .ok (tree, false)
  else (tree.writeText path (text vs)).map fun written => (written, true)

end Csv
end AssetAudit
