import AssetAudit.Settings

/-!
# Scans

A scan holds an inventory against rules and settings and records what it finds in a violation log.
First come the special folders, then the names of folders, then the assets of each enabled category
in a fixed order of the categories: what the condition rules say about the category, and then the
location and the name of each asset.

A scan stops early.  No check starts once the log is full, and the walks over folders, condition
rules and assets end there.  `Scan.Complete` describes what a scan with an unlimited log would find.

A `Scan` is everything that stays fixed while it runs; its functions take the log as it is and
return it with their findings added.
-/

namespace AssetAudit

/-- What a scan looks at, and by which rules. -/
structure Scan where
  rules : Rules
  settings : Settings
  inventory : Inventory

namespace Scan

/-! ## What the scan reads -/

/-- The special folders within the row limit. -/
def specialFolders (scan : Scan) : List String :=
  scan.rules.specialFolders.take scan.settings.maxSpecialFolders.toNat

/-- The ignore entries within the row limit. -/
def ignoreFolders (scan : Scan) : List String :=
  scan.rules.ignoreFolders.take scan.settings.maxIgnoreFolders.toNat

/-- The condition rules within the row limit. -/
def conditions (scan : Scan) : List ConditionRule :=
  scan.rules.conditions.take scan.settings.maxConditionRows.toNat

/-- Vendored packages and ignored folders are not checked. -/
def isExcluded (scan : Scan) (segments : List String) : Bool :=
  Path.isVendored segments || Path.isIgnored scan.ignoreFolders segments

/-! ## What there is to say about one folder or asset -/

/-- A special folder must exist.  An empty row asks for nothing. -/
def reportOnSpecialFolder (scan : Scan) (row : String) : List Violation :=
  let path := Path.underAssets row
  if row.isEmpty || scan.inventory.folderExists path then []
  else
    let segments := Path.split path
    [{ kind := .specialFolderMissing
       category := .folder
       name := Path.nameOf segments
       folder := Path.folderOf segments }]

/-- The name of a folder must follow the naming style of folders. -/
def reportOnFolder (scan : Scan) (folder : String) : List Violation :=
  let segments := Path.split folder
  let name := Path.nameOf segments
  let pattern := scan.rules.pattern .folder
  if scan.isExcluded segments || pattern.accepts name then []
  else
    [{ kind := .folderName
       category := .folder
       name := name
       folder := Path.folderOf segments
       hint := pattern.sample }]

/-- Is some folder above the asset one of the accepted folders of the category? -/
def isInRoot (scan : Scan) (c : FileCategory) (segments : List String) : Bool :=
  segments.dropLast.any (Path.alternatives (scan.rules.roots c)).contains

/-- Where assets of a category are expected. -/
def locationHint (scan : Scan) (c : FileCategory) : String :=
  "[Root folder(s): " ++ scan.rules.roots c ++ "] or [Check Conditions]"

/-- An asset must lie below an accepted folder or directly in an allowed one, and its name must
follow the naming style of its category. -/
def reportOnAsset (scan : Scan) (c : FileCategory) (allowed : AllowList) (asset : String) :
    List Violation :=
  let segments := Path.split asset
  if segments.isEmpty || scan.isExcluded segments then []
  else
    let name := Path.nameOf segments
    let folder := Path.folderOf segments
    let pattern := scan.rules.pattern c
    let misplaced : Violation :=
      { kind := .location c
        category := c
        name := name
        folder := folder
        hint := scan.locationHint c }
    let misnamed : Violation :=
      { kind := .naming c
        category := c
        name := name
        folder := folder
        hint := pattern.sample }
    (if scan.isInRoot c segments || allowed.contains folder then [] else [misplaced]) ++
      (if pattern.accepts name then [] else [misnamed])

/-! ## The checks -/

/-- Checks that the special folders exist. -/
def checkSpecialFolders (scan : Scan) (log : ViolationLog) : ViolationLog :=
  log.addAll (scan.specialFolders.flatMap scan.reportOnSpecialFolder)

/-- Checks the names of the folders below the assets. -/
def checkFolders (scan : Scan) (log : ViolationLog) : ViolationLog :=
  log.visitAll (fun log folder => log.addAll (scan.reportOnFolder folder))
    (scan.inventory.foldersBelow Path.assetsRoot)

/-- Looks at the condition rules for a category, if the filter wants them. -/
def resolveConditions (scan : Scan) (c : FileCategory) (log : ViolationLog) : Resolution :=
  if scan.settings.filter.conditions then
    ConditionRule.resolve scan.inventory c scan.conditions log
  else ⟨.empty, log⟩

/-- Checks a category: its condition rules, then its assets. -/
def checkCategory (scan : Scan) (log : ViolationLog) (c : FileCategory) : ViolationLog :=
  let resolution := scan.resolveConditions c log
  resolution.log.visitAll
    (fun log asset => log.addAll (scan.reportOnAsset c resolution.allowed asset))
    (scan.inventory.assets c none)

/-- The order in which categories are checked. -/
def categoryOrder : List FileCategory :=
  [.prefab, .script, .texture, .scene, .model, .sound, .material, .animation]

/-- The categories that the filter enables, in the order in which they are checked. -/
def categories (scan : Scan) : List FileCategory :=
  categoryOrder.filter scan.settings.filter.isEnabled

/-- Runs the scan and adds its findings to a log. -/
def record (scan : Scan) (log : ViolationLog) : ViolationLog :=
  let filter := scan.settings.filter
  let log := if filter.specialFolders && log.hasRoom then scan.checkSpecialFolders log else log
  let log := if filter.folders && log.hasRoom then scan.checkFolders log else log
  log.visitAll scan.checkCategory scan.categories

end Scan

end AssetAudit
