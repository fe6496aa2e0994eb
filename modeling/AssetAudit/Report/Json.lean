import AssetAudit.Json.Fields
import AssetAudit.Report.Text

/-!
# JSON reports

A violation is a record.  Its hint is left out when there is none, and a missing hint reads as none.

The outcome of a scan, for other programs, is a record too: whether it passed, what was scanned, how
it went, all violations in the order in which they were recorded, and the file that they were
exported to, if they were.
-/

namespace AssetAudit

namespace Violation

/-- The violation as a record. -/
def toJson (v : Violation) : Json :=
  Json.record
    ([("kind", .text v.kind.name), ("category", .text v.category.name),
        ("asset_name", .text v.name), ("folder_path", .text v.folder)] ++
      (if v.hint.isEmpty then [] else [("hint", .text v.hint)]))

/-- Reads a violation. -/
def ofJson? (v : Json) : Option Violation := do
  let fields ← v.fields? ["kind", "category", "asset_name", "folder_path", "hint"]
  let kind ← fields.required "kind" (Json.toName? ViolationKind.ofName?)
  let category ← fields.required "category" (Json.toName? Category.ofName?)
  let name ← fields.required "asset_name" Json.toText?
  let folder ← fields.required "folder_path" Json.toText?
  let hint ← fields.optional "hint" Json.toText? ""
  return { kind, category, name, folder, hint }

end Violation

namespace JsonReport

/-- The report on a project. -/
def report (project : String) (log : ViolationLog) (milliseconds : Nat)
    (exportedTo : Option String) : Json :=
  Json.record
    ([("success", .bool log.hasPassed), ("project", .text project),
        ("summary",
          Json.record
            [("violations", .nat log.count), ("elapsed_ms", .nat milliseconds),
              ("truncated", .bool (!log.hasRoom))]),
        ("violations", .array (log.entries.map Violation.toJson))] ++
      (match exportedTo with
        | none => []
        | some path => [("export_path", .text path)]))

end JsonReport
end AssetAudit
