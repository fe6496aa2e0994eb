import AssetAudit.Scan

/-!
# What there is to find

The reports of a scan, said without any log: everything that the enabled checks have to say about a
project, in the order in which a scan comes across it, and as often as it does.  `Scan.reports` is
that list, and `Scan.findings` keeps of each report its first occurrence.

A scan with a log records an initial part of the findings, as many as the log has room for.  That
the log may fill up in the middle of the condition rules, and that the allow-list is then
incomplete, makes no difference, because no asset is looked at any more.
-/

namespace AssetAudit
namespace Scan

/-! ## The special folders and the names of folders -/

/-- What there is to say about the special folders. -/
def specialFolderReports (scan : Scan) : List Violation :=
  if scan.settings.filter.specialFolders then
    scan.specialFolders.flatMap scan.reportOnSpecialFolder
  else []

/-- What there is to say about the names of the folders below the assets. -/
def folderReports (scan : Scan) : List Violation :=
  if scan.settings.filter.folders then
    (scan.inventory.foldersBelow Path.assetsRoot).flatMap scan.reportOnFolder
  else []

/-! ## The categories -/

/-- What the condition rules establish about a category. -/
def conditionFindings (scan : Scan) (c : FileCategory) : List ConditionFinding :=
  if scan.settings.filter.conditions then
    (scan.conditions.zipIdx 1).flatMap fun (rule, position) =>
      rule.findings scan.inventory c position
  else []

/-- The folders that the condition rules allow for a category. -/
def allowedFolders (scan : Scan) (c : FileCategory) : AllowList :=
  .ofList ((scan.conditionFindings c).filterMap ConditionFinding.allowed?)

/-- The violations of condition rules that concern a category. -/
def conditionReports (scan : Scan) (c : FileCategory) : List Violation :=
  (scan.conditionFindings c).filterMap ConditionFinding.violation?

/-- What there is to say about the assets of a category. -/
def assetReports (scan : Scan) (c : FileCategory) : List Violation :=
  (scan.inventory.assets c none).flatMap (scan.reportOnAsset c (scan.allowedFolders c))

/-! ## Everything together -/

/-- Everything that there is to say, in the order of a scan. -/
def reports (scan : Scan) : List Violation :=
  scan.specialFolderReports ++ scan.folderReports ++
    scan.categories.flatMap fun c => scan.conditionReports c ++ scan.assetReports c

/-- The different violations among the reports, in the order of their first occurrences. -/
def findings (scan : Scan) : List Violation := scan.reports.eraseDups

end Scan
end AssetAudit
