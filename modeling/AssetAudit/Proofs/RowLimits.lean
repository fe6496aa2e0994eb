import AssetAudit.Proofs.CappedScan

/-!
# What a scan reads of its rules

A scan reads three lists of its rules up to a limit each, and one of them only if the filter wants
condition rules.  Cutting the lists beforehand, or emptying the list of condition rules, is
therefore another way to say the same.

`Scan.ReadsAlike` says of two scans that they read the same, whatever else their rules and settings
hold; such scans have the same reports (`Scan.ReadsAlike.reports_eq`), so their logs are the same as
soon as the caps are (`Auditor.log_scan_eq`).  That the row limits and the switch for condition
rules amount to edits of the rules is then a matter of lists: cutting a list twice is cutting it at
the smaller limit.
-/

namespace AssetAudit

namespace Scan

/-! ## Scans that read the same -/

/-- The condition rules that are looked at: those within the row limit, or none if the filter wants
none. -/
def conditionRows (scan : Scan) : List ConditionRule :=
  if scan.settings.filter.conditions then scan.conditions else []

/-- Two scans run the same checks and read the same rows. -/
structure ReadsAlike (scan other : Scan) : Prop where
  inventory : scan.inventory = other.inventory
  naming : scan.rules.naming = other.rules.naming
  rootFolders : scan.rules.rootFolders = other.rules.rootFolders
  specialFolders : scan.specialFolders = other.specialFolders
  ignoreFolders : scan.ignoreFolders = other.ignoreFolders
  conditionRows : scan.conditionRows = other.conditionRows
  checksSpecialFolders :
    scan.settings.filter.specialFolders = other.settings.filter.specialFolders
  checksFolders : scan.settings.filter.folders = other.settings.filter.folders
  checksCategories : scan.settings.filter.categories = other.settings.filter.categories

/-- The condition rules that are looked at say what there is to find. -/
theorem conditionFindings_eq_allFindings (scan : Scan) (c : FileCategory) :
    scan.conditionFindings c =
      ConditionRule.allFindings scan.inventory c (scan.conditionRows.zipIdx 1) := by
  rw [conditionFindings, conditionRows]
  split
  · rfl
  · rfl

namespace ReadsAlike

variable {scan other : Scan}

theorem pattern_eq (h : scan.ReadsAlike other) (c : Category) :
    scan.rules.pattern c = other.rules.pattern c := by
  rw [Rules.pattern, Rules.pattern, Rules.selector, Rules.selector, h.naming]

theorem roots_eq (h : scan.ReadsAlike other) (c : FileCategory) :
    scan.rules.roots c = other.rules.roots c := by
  rw [Rules.roots, Rules.roots, h.rootFolders]

theorem locationHint_eq (h : scan.ReadsAlike other) (c : FileCategory) :
    scan.locationHint c = other.locationHint c :=
  congrArg (fun roots => "[Root folder(s): " ++ roots ++ "] or [Check Conditions]") (h.roots_eq c)

theorem isInRoot_eq (h : scan.ReadsAlike other) (c : FileCategory) (segments : List String) :
    scan.isInRoot c segments = other.isInRoot c segments := by
  rw [isInRoot, isInRoot, h.roots_eq]

theorem isExcluded_eq (h : scan.ReadsAlike other) (segments : List String) :
    scan.isExcluded segments = other.isExcluded segments := by
  rw [isExcluded, isExcluded, h.ignoreFolders]

theorem reportOnSpecialFolder_eq (h : scan.ReadsAlike other) (row : String) :
    scan.reportOnSpecialFolder row = other.reportOnSpecialFolder row := by
  rw [reportOnSpecialFolder, reportOnSpecialFolder, h.inventory]

theorem reportOnFolder_eq (h : scan.ReadsAlike other) (folder : String) :
    scan.reportOnFolder folder = other.reportOnFolder folder := by
  dsimp only [reportOnFolder]
  rw [h.isExcluded_eq, h.pattern_eq]

theorem reportOnAsset_eq (h : scan.ReadsAlike other) (c : FileCategory) (allowed : AllowList)
    (asset : String) :
    scan.reportOnAsset c allowed asset = other.reportOnAsset c allowed asset := by
  dsimp only [reportOnAsset]
  rw [h.isExcluded_eq, h.isInRoot_eq, h.pattern_eq, h.locationHint_eq]

theorem conditionFindings_eq (h : scan.ReadsAlike other) (c : FileCategory) :
    scan.conditionFindings c = other.conditionFindings c := by
  rw [conditionFindings_eq_allFindings, conditionFindings_eq_allFindings, h.inventory,
    h.conditionRows]

/-- **Scans that read the same have the same reports.** -/
theorem reports_eq (h : scan.ReadsAlike other) : scan.reports = other.reports := by
  have hspecial : scan.specialFolderReports = other.specialFolderReports := by
    rw [specialFolderReports, specialFolderReports, h.checksSpecialFolders, h.specialFolders,
      funext h.reportOnSpecialFolder_eq]
  have hfolders : scan.folderReports = other.folderReports := by
    rw [folderReports, folderReports, h.checksFolders, h.inventory, funext h.reportOnFolder_eq]
  have hcategories : scan.categories = other.categories := by
    have henabled : scan.settings.filter.isEnabled = other.settings.filter.isEnabled := by
      funext c
      rw [ScanFilter.isEnabled, ScanFilter.isEnabled, h.checksCategories]
    rw [categories, categories, henabled]
  have hcategory (c : FileCategory) : scan.conditionReports c ++ scan.assetReports c =
      other.conditionReports c ++ other.assetReports c := by
    rw [conditionReports, conditionReports, assetReports, assetReports, allowedFolders,
      allowedFolders, h.conditionFindings_eq, h.inventory, funext (h.reportOnAsset_eq c _)]
  rw [reports, reports, hspecial, hfolders, hcategories, funext hcategory]

end ReadsAlike
end Scan

/-! ## Limits and switches as edits -/

namespace Settings

/-- The settings with the condition rules switched on or off. -/
def withConditions (settings : Settings) (wanted : Bool) : Settings :=
  { settings with filter := { settings.filter with conditions := wanted } }

/-- Other settings read at least as many rows of each list, and are the same otherwise. -/
structure ReadsMore (settings larger : Settings) : Prop where
  maxViolations : larger.maxViolations = settings.maxViolations
  filter : larger.filter = settings.filter
  maxSpecialFolders : settings.maxSpecialFolders ≤ larger.maxSpecialFolders
  maxIgnoreFolders : settings.maxIgnoreFolders ≤ larger.maxIgnoreFolders
  maxConditionRows : settings.maxConditionRows ≤ larger.maxConditionRows

theorem ReadsMore.refl (settings : Settings) : settings.ReadsMore settings :=
  ⟨rfl, rfl, UInt64.le_refl _, UInt64.le_refl _, UInt64.le_refl _⟩

end Settings

/-- A list that has been cut is not cut again at a larger limit. -/
theorem take_take_of_le {α : Type} {n m : UInt64} (h : n ≤ m) (rows : List α) :
    (rows.take n.toNat).take m.toNat = rows.take n.toNat := by
  rw [List.take_take, Nat.min_eq_right (UInt64.le_iff_toNat_le.mp h)]

namespace Rules

/-- Cutting the lists a second time changes nothing. -/
theorem enforceLimits_enforceLimits (rules : Rules) (settings : Settings) :
    (rules.enforceLimits settings).enforceLimits settings = rules.enforceLimits settings := by
  simp only [enforceLimits, take_take_of_le (UInt64.le_refl _)]

end Rules

namespace Scan

variable {rules : Rules} {settings : Settings} {inventory : Inventory}

/-- **Cut lists are read alike**, also with larger limits. -/
theorem readsAlike_enforceLimits {larger : Settings} (h : settings.ReadsMore larger) :
    ReadsAlike ⟨rules.enforceLimits settings, larger, inventory⟩ ⟨rules, settings, inventory⟩ where
  inventory := rfl
  naming := rfl
  rootFolders := rfl
  specialFolders := take_take_of_le h.maxSpecialFolders _
  ignoreFolders := take_take_of_le h.maxIgnoreFolders _
  conditionRows := by
    have hconditions : conditions ⟨rules.enforceLimits settings, larger, inventory⟩ =
        conditions ⟨rules, settings, inventory⟩ := take_take_of_le h.maxConditionRows _
    rw [conditionRows, conditionRows, hconditions, h.filter]
  checksSpecialFolders := by rw [h.filter]
  checksFolders := by rw [h.filter]
  checksCategories := by rw [h.filter]

/-- **No condition rules** are read alike, whether there are none or the filter wants none. -/
theorem readsAlike_withConditions :
    ReadsAlike ⟨rules, settings.withConditions false, inventory⟩
      ⟨{ rules with conditions := [] }, settings.withConditions true, inventory⟩ where
  inventory := rfl
  naming := rfl
  rootFolders := rfl
  specialFolders := rfl
  ignoreFolders := rfl
  conditionRows := (List.take_nil (α := ConditionRule)).symm
  checksSpecialFolders := rfl
  checksFolders := rfl
  checksCategories := rfl

end Scan

namespace Auditor

/-- What a scan with a new auditor amounts to: the recorded violations and the summary. -/
def outcome (rules : Rules) (settings : Settings) (inventory : Inventory) :
    List Violation × ScanSummary :=
  (((new rules settings).scan inventory).log.entries, ((new rules settings).scan inventory).summary)

/-- Scans that read the same and stop at the same number of violations have the same outcome. -/
theorem outcome_eq {rules rules' : Rules} {settings settings' : Settings} {inventory : Inventory}
    (hcap : settings.maxViolations = settings'.maxViolations)
    (h : Scan.ReadsAlike ⟨rules, settings, inventory⟩ ⟨rules', settings', inventory⟩) :
    outcome rules settings inventory = outcome rules' settings' inventory := by
  have hlog : ((new rules settings).scan inventory).log =
      ((new rules' settings').scan inventory).log :=
    log_scan_eq (congrArg UInt64.toNat hcap) h.reports_eq
  rw [outcome, outcome, summary, summary, hlog]

/-- **Limits and switches are edits of the rules.**  For all rules, settings and inventories:

* a scan by the rules, a scan by the rules whose lists have been cut, and a scan by the cut rules
  under settings that read more rows record the same violations in the same order, with the same
  summary;
* cutting the lists twice is cutting them once, and leaves naming styles and root folders alone;
* a scan with the condition rules switched off records what a scan with the condition rules switched
  on records by rules that have no condition rules. -/
theorem row_limits_are_edits (rules : Rules) (settings : Settings) (inventory : Inventory) :
    let cut := rules.enforceLimits settings
    outcome cut settings inventory = outcome rules settings inventory ∧
      (∀ larger : Settings, settings.ReadsMore larger →
        outcome cut larger inventory = outcome rules settings inventory) ∧
      cut.enforceLimits settings = cut ∧ cut.naming = rules.naming ∧
      cut.rootFolders = rules.rootFolders ∧
      outcome rules (settings.withConditions false) inventory =
        outcome { rules with conditions := [] } (settings.withConditions true) inventory := by
  intro cut
  have hlarger (larger : Settings) (h : settings.ReadsMore larger) :
      outcome cut larger inventory = outcome rules settings inventory :=
    outcome_eq h.maxViolations (Scan.readsAlike_enforceLimits h)
  exact ⟨hlarger settings (.refl settings), hlarger, rules.enforceLimits_enforceLimits settings,
    rfl, rfl, outcome_eq rfl Scan.readsAlike_withConditions⟩

/-- With room for one row of each list, a scan asks for one of two special folders, passes over one
of two ignored folders and looks at one of two condition rules; by the cut rules it does so even if
there is room for more. -/
theorem row_limits_are_edits_one_row :
    let rules : Rules := { Rules.default with
      specialFolders := ["Art", "Audio"]
      ignoreFolders := ["a b", "c d"]
      conditions := [⟨"Units", .ofList [.prefab]⟩, ⟨"Levels", .ofList [.scene]⟩] }
    let settings : Settings := { Settings.default with
      maxSpecialFolders := 1, maxIgnoreFolders := 1, maxConditionRows := 1 }
    let inventory :=
      (MemoryInventory.ofLists [] ["Assets/a b", "Assets/c d", "Assets/Units"]).toInventory
    settings.ReadsMore .default ∧
      outcome (rules.enforceLimits settings) .default inventory = outcome rules settings inventory ∧
      (outcome rules settings inventory).1.map Violation.fullPath =
        ["Assets/Art", "Assets/c d", "Assets/Units/[Missing Prefab]"] := by
  intro rules settings inventory
  have hmore : settings.ReadsMore .default := ⟨rfl, rfl, by decide, by decide, by decide⟩
  exact ⟨hmore, (row_limits_are_edits rules settings inventory).2.1 .default hmore,
    by decide +kernel⟩

end Auditor
end AssetAudit
