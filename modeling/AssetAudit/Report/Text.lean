import AssetAudit.Report.Terminal
import AssetAudit.Violation.Log

/-!
# Text reports

The outcome of a scan, for reading.  Violations are listed by groups, groups in the order in which
they first occur; `ViolationLog.sections` is the division of a log that the report prints.  A scan
has passed when it recorded nothing and its log was not full, so a log that may hold nothing never
passes.
-/

namespace AssetAudit

/-- The violations of one group. -/
structure ReportSection where
  group : ViolationGroup
  /-- The number that the heading shows. -/
  count : Nat
  entries : List Violation
  deriving DecidableEq, Repr

namespace ViolationLog

/-- The entries of a log, by groups. -/
def sections (log : ViolationLog) : List ReportSection :=
  log.groupCounts.map fun (group, count) =>
    { group, count, entries := log.entries.filter (·.group == group) }

/-- Has the scan that filled the log found everything in order? -/
def hasPassed (log : ViolationLog) : Bool := log.isEmpty && log.hasRoom

end ViolationLog

namespace TextReport

/-- The sign in front of a violation. -/
def marker : ViolationGroup → Emphasis × String
  | .wrongName | .wrongLocation => (.error, "x")
  | .notExists | .notContain | .notValid => (.warning, "!")

/-- The lines of a violation. -/
def violationLines (v : Violation) : List Line :=
  [(.plain, "  "), marker v.group, (.plain, " [" ++ v.category.name ++ "] " ++ v.fullPath)] ::
    (if v.hint.isEmpty then []
      else [[(.plain, "      "), (.faint, "expected:"), (.plain, " " ++ v.hint)]])

/-- The lines of a group. -/
def sectionLines (s : ReportSection) : List Line :=
  Line.blank ::
    [(.failure, s.group.label ++ " (" ++ toString s.count ++ ")")] ::
    s.entries.flatMap violationLines

/-- The last line of a scan that has not passed. -/
def failureLine (log : ViolationLog) (milliseconds : Nat) : Line :=
  let limit := if log.hasRoom then "" else ", limit reached"
  [(.failure, "FAILED"), (.plain, " "),
    (.faint, toString log.count ++ " violation(s) in " ++ toString milliseconds ++ " ms" ++ limit)]

/-- The last line of a scan that has passed. -/
def successLine (milliseconds : Nat) : Line :=
  [(.success, "PASSED"), (.plain, " No violations found "),
    (.faint, "(" ++ toString milliseconds ++ " ms)")]

/-- The report on a project. -/
def lines (project : String) (log : ViolationLog) (milliseconds : Nat) : List Line :=
  [(.heading, "Scanning:"), (.plain, " " ++ project)] ::
    (if log.hasPassed then [Line.blank, successLine milliseconds]
      else log.sections.flatMap sectionLines ++ [Line.blank, failureLine log milliseconds])

end TextReport

end AssetAudit
