import AssetAudit.Proofs.CappedScan
import AssetAudit.Proofs.ReportKinds
import AssetAudit.Proofs.ShownPaths

/-!
# What a scan says about ignored folders

An ignore entry takes every path that has it as a segment out of the checks of names and places.  A
violation does not show that path but a folder and a name, which a report may have cut off at the
marker `Assets`; so what is shown has to be compared with what was looked at.

* `Scan.exists_of_mem_reportOnFolder` and `Scan.exists_of_mem_reportOnAsset`: what is shown is an
  end of the path that was looked at, so a shown segment was there.
* `Scan.notMem_fullPath_of_mem_reports`: no report on a name or a place shows an ignore entry.
* `Scan.filter_reports_withoutAssets`: the reports on folders without assets are those of the
  condition rules, and condition rules do not ask about ignore entries.  A wildcard that meets an
  ignored folder reports it like any other (`Auditor.wildcard_reports_ignored_folder`).
-/

namespace AssetAudit

namespace Scan

variable {scan : Scan} {v : Violation}

/-- A path that is not excluded has no ignore entry among its segments. -/
theorem notMem_split_of_not_isExcluded {path entry : String}
    (h : ¬ scan.isExcluded (Path.split path) = true) (hentry : entry ∈ scan.ignoreFolders)
    (hne : entry ≠ "") : entry ∉ Path.split path := by
  intro hmem
  refine h ?_
  rw [isExcluded, Bool.or_eq_true, Path.isIgnored_iff]
  exact .inr ⟨entry, hentry, hne, hmem⟩

/-- A report on the name of a folder shows the path of a folder that is not excluded. -/
theorem exists_of_mem_reportOnFolder {folder : String} (h : v ∈ scan.reportOnFolder folder) :
    ¬ scan.isExcluded (Path.split folder) = true ∧
      Path.split v.fullPath <:+ Path.split folder := by
  simp only [reportOnFolder] at h
  split at h
  · simp at h
  · next hkept =>
    rw [Bool.or_eq_true, not_or] at hkept
    obtain rfl := List.mem_singleton.mp h
    exact ⟨hkept.1, Violation.split_fullPath_of_shown rfl rfl⟩

/-- A report on an asset shows the path of an asset that is not excluded. -/
theorem exists_of_mem_reportOnAsset {c : FileCategory} {allowed : AllowList} {asset : String}
    (h : v ∈ scan.reportOnAsset c allowed asset) :
    ¬ scan.isExcluded (Path.split asset) = true ∧ Path.split v.fullPath <:+ Path.split asset := by
  simp only [reportOnAsset] at h
  split at h
  · simp at h
  · next hkept =>
    rw [Bool.or_eq_true, not_or] at hkept
    refine ⟨hkept.2, ?_⟩
    rcases List.mem_append.mp h with h | h
    · split at h
      · simp at h
      · obtain rfl := List.mem_singleton.mp h
        exact Violation.split_fullPath_of_shown rfl rfl
    · split at h
      · simp at h
      · obtain rfl := List.mem_singleton.mp h
        exact Violation.split_fullPath_of_shown rfl rfl

/-- **Names and places.**  A report on a name or a place shows a path without ignore entries. -/
theorem notMem_fullPath_of_mem_reports (h : v ∈ scan.reports)
    (hgroup : v.group = .wrongName ∨ v.group = .wrongLocation) {entry : String}
    (hentry : entry ∈ scan.ignoreFolders) (hne : entry ≠ "") : entry ∉ Path.split v.fullPath := by
  have hshown : ∃ path, ¬ scan.isExcluded (Path.split path) = true ∧
      Path.split v.fullPath <:+ Path.split path := by
    rcases (mem_reports_iff_of_group hgroup).mp h with h | ⟨c, -, h⟩
    · unfold folderReports at h
      split at h
      · obtain ⟨folder, -, hv⟩ := List.mem_flatMap.mp h
        exact ⟨folder, exists_of_mem_reportOnFolder hv⟩
      · simp at h
    · obtain ⟨asset, -, hv⟩ := List.mem_flatMap.mp h
      exact ⟨asset, exists_of_mem_reportOnAsset hv⟩
  obtain ⟨path, hkept, hend⟩ := hshown
  exact fun hmem => notMem_split_of_not_isExcluded hkept hentry hne (hend.subset hmem)

/-- **Folders without assets.**  They are reported by condition rules only. -/
theorem filter_reports_withoutAssets (scan : Scan) :
    scan.reports.filter (fun v => v.kind = .folderWithoutAssets) =
      scan.categories.flatMap fun c =>
        (scan.conditionReports c).filter fun v => v.kind = .folderWithoutAssets := by
  have hasset (c : FileCategory) :
      (scan.assetReports c).filter (fun v => v.kind = .folderWithoutAssets) = [] := by
    refine List.filter_eq_nil_iff.mpr fun v hv => ?_
    have hlocation : ViolationKind.location c ≠ .folderWithoutAssets := by cases c <;> decide
    have hnaming : ViolationKind.naming c.toCategory ≠ .folderWithoutAssets := by
      cases c <;> decide
    rcases kind_of_mem_assetReports hv with hkind | hkind <;> simp [hkind, hlocation, hnaming]
  refine (filter_reports_of_kind scan (· = .folderWithoutAssets)).trans ?_
  refine List.flatMap_congr fun c _ => ?_
  rw [hasset, List.append_nil]

end Scan

namespace Auditor

/-- The auditor with other ignore entries. -/
def withIgnoreFolders (auditor : Auditor) (entries : List String) : Auditor :=
  auditor.modifyRules fun rules => { rules with ignoreFolders := entries }

/-- **What is left out, and what is not.**  For every auditor and every inventory, no recorded
violation of a name or a place shows a path with an ignore entry among its segments.  Folders
without assets are another matter: whatever the ignore entries are, scans that are not truncated
record the same violations of this kind, in the same order. -/
theorem ignored_folders_left_out (auditor : Auditor) (inventory : Inventory) :
    (∀ v ∈ (auditor.scan inventory).log.entries, v.group = .wrongName ∨ v.group = .wrongLocation →
      ∀ entry ∈ auditor.rules.ignoreFolders.take auditor.settings.maxIgnoreFolders.toNat,
        entry ≠ "" → entry ∉ Path.split v.fullPath) ∧
      ∀ entries : List String,
        (auditor.scan inventory).summary.truncated = false →
        ((auditor.withIgnoreFolders entries).scan inventory).summary.truncated = false →
        ((auditor.withIgnoreFolders entries).scan inventory).log.entries.filter
            (fun v => v.kind = .folderWithoutAssets) =
          (auditor.scan inventory).log.entries.filter
            (fun v => v.kind = .folderWithoutAssets) := by
  constructor
  · intro v hv hgroup entry hentry hne
    rw [(auditor.recordOf_scan inventory).entries_eq] at hv
    have hreported : v ∈ auditor.reports inventory :=
      List.mem_eraseDups.mp (List.mem_of_mem_take hv)
    exact Scan.notMem_fullPath_of_mem_reports hreported hgroup hentry hne
  · intro entries hcomplete hcomplete'
    have hfilter (auditor : Auditor) :
        ((auditor.reports inventory).eraseDups.filter fun v => v.kind = .folderWithoutAssets) =
          ((Scan.categories ⟨auditor.rules, auditor.settings, inventory⟩).flatMap fun c =>
            (Scan.conditionReports ⟨auditor.rules, auditor.settings, inventory⟩ c).filter
              fun v => v.kind = .folderWithoutAssets).eraseDups := by
      rw [filter_eraseDups]
      exact congrArg List.eraseDups (Scan.filter_reports_withoutAssets _)
    rw [entries_scan_of_not_truncated hcomplete, entries_scan_of_not_truncated hcomplete', hfilter,
      hfilter]
    -- Neither the categories nor the condition rules read the ignore entries.
    rfl

/-- Below an ignored folder neither the folder `a b` nor the prefab in it is reported, while the
folder without prefabs beside them is. -/
theorem ignored_folders_left_out_demo :
    let inventory := (MemoryInventory.ofAdditions
      [.file "Assets/Demo/a b/c d.prefab", .file "Assets/Art/x y.prefab",
        .folder "Assets/Art/Empty"]).toInventory
    let auditor : Auditor :=
      .new { Rules.default with
        ignoreFolders := ["", "Demo"]
        conditions := [⟨"Art/*", .ofList [.prefab]⟩] } .default
    let wrongName : Violation :=
      ⟨.prefabName, .prefab, "x y.prefab", "Assets/Art", "ExampleOfNaming"⟩
    (wrongName ∈ (auditor.scan inventory).log.entries ∧ wrongName.group = .wrongName ∧
        "Demo" ∈ auditor.rules.ignoreFolders.take auditor.settings.maxIgnoreFolders.toNat ∧
        "Demo" ∉ Path.split wrongName.fullPath) ∧
      (auditor.scan inventory).summary.truncated = false ∧
      ((auditor.withIgnoreFolders ["Art"]).scan inventory).summary.truncated = false ∧
      ((auditor.withIgnoreFolders ["Art"]).scan inventory).log.entries.filter
          (fun v => v.kind = .folderWithoutAssets) =
        (auditor.scan inventory).log.entries.filter (fun v => v.kind = .folderWithoutAssets) := by
  intro inventory auditor wrongName
  obtain ⟨hv, hentry, hcomplete, hcomplete'⟩ :
      wrongName ∈ (auditor.scan inventory).log.entries ∧
        "Demo" ∈ auditor.rules.ignoreFolders.take auditor.settings.maxIgnoreFolders.toNat ∧
        (auditor.scan inventory).summary.truncated = false ∧
        ((auditor.withIgnoreFolders ["Art"]).scan inventory).summary.truncated = false := by
    decide +kernel
  obtain ⟨hleftOut, hsame⟩ := ignored_folders_left_out auditor inventory
  exact ⟨⟨hv, rfl, hentry, hleftOut _ hv (.inl rfl) _ hentry (by decide)⟩, hcomplete, hcomplete',
    hsame _ hcomplete hcomplete'⟩

/-- **An ignored folder can be reported.**  A rule for every folder in `Units` reports the folder
`Demo` there as one without prefabs, although `Demo` is an ignore entry. -/
theorem wildcard_reports_ignored_folder :
    let inventory := (MemoryInventory.ofAdditions
      [.file "Assets/Units/Elf/Elf.prefab", .folder "Assets/Units/Demo"]).toInventory
    let auditor : Auditor :=
      .new { Rules.default with
        ignoreFolders := ["Demo"]
        conditions := [⟨"Units/*", .ofList [.prefab]⟩] } .default
    ∃ v ∈ (auditor.scan inventory).log.entries, v.kind = .folderWithoutAssets ∧
      ∃ entry ∈ auditor.rules.ignoreFolders.take auditor.settings.maxIgnoreFolders.toNat,
        entry ≠ "" ∧ entry ∈ Path.split v.folder := by
  decide +kernel

end Auditor
end AssetAudit
