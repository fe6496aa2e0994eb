import AssetAudit.Proofs.DiskAgreement
import AssetAudit.Proofs.WildcardRules

/-!
# Scans of a project on disk

A scan asks its inventory about few paths: the folders below `Assets`, the assets of the whole
project, the special folders, and what the formulas of condition rules lead to.  As long as the
rules name shown entries only (`Rules.namesShown`), all of these are shown paths, and two
inventories that answer alike there (`Inventory.AgreeWhereShown`) lead to the same reports, hence to
the same scans (`Auditor.scan_eq_of_agree`).

For a project in a file tree and its shown entries in memory this is the main result,
`FileTree.disk_agrees_with_memory`.
-/

namespace AssetAudit

namespace Rules

/-- Do the special folders and the formulas name shown entries only? -/
def namesShown (rules : Rules) : Bool :=
  rules.specialFolders.all (fun row => (Path.split row).all isVisible) &&
    rules.conditions.all fun rule => (Formula.parse? rule.formula).all fun formula =>
      (Path.split formula.base).all isVisible &&
        formula.suffix.all fun suffix => (Path.split suffix).all isVisible

variable {rules : Rules}

theorem isVisible_special (h : rules.namesShown = true) {row : String}
    (hrow : row ∈ rules.specialFolders) : (Path.split row).all isVisible = true := by
  rw [namesShown, Bool.and_eq_true, List.all_eq_true] at h
  exact h.1 row hrow

theorem isVisible_formula (h : rules.namesShown = true) {rule : ConditionRule}
    (hrule : rule ∈ rules.conditions) {formula : Formula}
    (hparse : Formula.parse? rule.formula = some formula) :
    (Path.split formula.base).all isVisible = true ∧
      ∀ suffix, formula.suffix = some suffix → (Path.split suffix).all isVisible = true := by
  rw [namesShown, Bool.and_eq_true, List.all_eq_true, List.all_eq_true] at h
  have hformula := h.2 rule hrule
  rw [hparse, Option.all_some, Bool.and_eq_true] at hformula
  refine ⟨hformula.1, fun suffix hsuffix => ?_⟩
  rw [hsuffix, Option.all_some] at hformula
  exact hformula.2

end Rules

/-- A path below the assets whose entries are shown is a shown path. -/
theorem Path.isShown_split_underAssets {relative : String}
    (h : (split relative).all isVisible = true) :
    isShown (split (underAssets relative)) = true := by
  rw [split_underAssets, isShown_cons_iff, List.all_cons, h]
  exact ⟨Or.inl rfl, rfl⟩

namespace Inventory

/-- Two inventories that answer alike where entries are shown. -/
structure AgreeWhereShown (disk memory : Inventory) : Prop where
  folderExists : ∀ {path}, Path.isShown (Path.split path) = true →
    disk.folderExists path = memory.folderExists path
  subfolders : ∀ {path}, Path.isShown (Path.split path) = true →
    disk.subfolders path = memory.subfolders path
  foldersBelow : ∀ {path}, Path.isShown (Path.split path) = true →
    disk.foldersBelow path = memory.foldersBelow path
  assets_some : ∀ c {path}, Path.isShown (Path.split path) = true →
    disk.assets c (some path) = memory.assets c (some path)
  assets_none : ∀ c, disk.assets c none = memory.assets c none
  /-- What is listed in a shown folder is shown. -/
  shown_subfolder : ∀ {path subfolder}, Path.isShown (Path.split path) = true →
    subfolder ∈ memory.subfolders path → Path.isShown (Path.split subfolder) = true

end Inventory

open Inventory (AgreeWhereShown)
open AssetAudit.Path (IsSegment)

variable {disk memory : Inventory}

namespace ConditionRule

/-- What there is to say about a shown folder is the same on both sides. -/
theorem inspect_eq (h : AgreeWhereShown disk memory) (c : FileCategory) {folder : String}
    (hshown : Path.isShown (Path.split folder) = true) :
    inspect disk c folder = inspect memory c folder := by
  rw [inspect, inspect, h.assets_some c hshown]

/-- The same holds of a folder that may be missing. -/
theorem outcome_eq (h : AgreeWhereShown disk memory) (c : FileCategory) (position : Nat)
    (rule : ConditionRule) {folder : String} (hshown : Path.isShown (Path.split folder) = true) :
    outcome disk c position rule folder = outcome memory c position rule folder := by
  rw [outcome, outcome, h.folderExists hshown, inspect_eq h c hshown]

/-- **A rule establishes the same on both sides**, if its formula names shown entries. -/
theorem findings_eq (h : AgreeWhereShown disk memory) (c : FileCategory) (position : Nat)
    {rule : ConditionRule}
    (hshown : ∀ formula, Formula.parse? rule.formula = some formula →
      (Path.split formula.base).all isVisible = true ∧
        ∀ suffix, formula.suffix = some suffix → (Path.split suffix).all isVisible = true) :
    rule.findings disk c position = rule.findings memory c position := by
  cases happlies : rule.appliesTo.contains c with
  | false => simp [findings, happlies]
  | true =>
    cases hparse : Formula.parse? rule.formula with
    | none => simp [findings, happlies, hparse]
    | some formula =>
      obtain ⟨hbaseVisible, hsuffixVisible⟩ := hshown formula hparse
      have hbase := Path.isShown_split_underAssets hbaseVisible
      have hexists := h.folderExists hbase
      have hlisting := h.subfolders hbase
      cases hfound : memory.folderExists (Path.underAssets formula.base) with
      | false =>
        rw [findings_of_missing_base happlies hparse (hexists.trans hfound),
          findings_of_missing_base happlies hparse hfound]
      | true =>
        by_cases hnone : memory.subfolders (Path.underAssets formula.base) = []
        · rw [findings_of_no_subfolders happlies hparse (hexists.trans hfound)
              (hlisting.trans hnone),
            findings_of_no_subfolders happlies hparse hfound hnone, inspect_eq h c hbase]
        · rw [findings_of_subfolders happlies hparse (hexists.trans hfound)
              (hlisting.symm ▸ hnone),
            findings_of_subfolders happlies hparse hfound hnone, hlisting]
          refine List.map_congr_left fun subfolder hsubfolder => outcome_eq h c position rule ?_
          have hinside := h.shown_subfolder hbase hsubfolder
          rw [Formula.target]
          cases hsuffix : formula.suffix with
          | none => exact hinside
          | some suffix =>
            rw [Path.split_append_slash, Path.isShown_append (Path.ne_nil_of_isShown hinside)]
            exact ⟨hinside, hsuffixVisible suffix hsuffix⟩

end ConditionRule

namespace Scan

variable {rules : Rules} {settings : Settings}

theorem reportOnSpecialFolder_eq (h : AgreeWhereShown disk memory) {row : String}
    (hrow : (Path.split row).all isVisible = true) :
    reportOnSpecialFolder ⟨rules, settings, disk⟩ row =
      reportOnSpecialFolder ⟨rules, settings, memory⟩ row := by
  rw [reportOnSpecialFolder, reportOnSpecialFolder,
    h.folderExists (Path.isShown_split_underAssets hrow)]

theorem conditionFindings_eq (h : AgreeWhereShown disk memory) (hrules : rules.namesShown = true)
    (c : FileCategory) :
    conditionFindings ⟨rules, settings, disk⟩ c =
      conditionFindings ⟨rules, settings, memory⟩ c := by
  rw [conditionFindings, conditionFindings]
  split
  · refine List.flatMap_congr fun numbered hnumbered => ConditionRule.findings_eq h c numbered.2 ?_
    have hrule : numbered.1 ∈ rules.conditions :=
      List.mem_of_mem_take (List.fst_mem_of_mem_zipIdx hnumbered)
    exact fun formula => Rules.isVisible_formula hrules hrule
  · rfl

/-- **Both sides give rise to the same reports**, if the rules name shown entries. -/
theorem reports_eq (h : AgreeWhereShown disk memory) (hrules : rules.namesShown = true) :
    reports ⟨rules, settings, disk⟩ = reports ⟨rules, settings, memory⟩ := by
  have hspecial : specialFolderReports ⟨rules, settings, disk⟩ =
      specialFolderReports ⟨rules, settings, memory⟩ := by
    rw [specialFolderReports, specialFolderReports]
    split
    · exact List.flatMap_congr fun row hrow =>
        reportOnSpecialFolder_eq h (Rules.isVisible_special hrules (List.mem_of_mem_take hrow))
    · rfl
  have hfolders : folderReports ⟨rules, settings, disk⟩ =
      folderReports ⟨rules, settings, memory⟩ := by
    have hroot : Path.isShown (Path.split Path.assetsRoot) = true := by decide
    rw [folderReports, folderReports, h.foldersBelow hroot]
    rfl
  have hcategory (c : FileCategory) :
      conditionReports ⟨rules, settings, disk⟩ c ++ assetReports ⟨rules, settings, disk⟩ c =
        conditionReports ⟨rules, settings, memory⟩ c ++
          assetReports ⟨rules, settings, memory⟩ c := by
    rw [conditionReports, conditionReports, assetReports, assetReports, allowedFolders,
      allowedFolders, conditionFindings_eq h hrules c, h.assets_none c]
    rfl
  rw [reports, reports, hspecial, hfolders, funext hcategory]
  rfl

end Scan

namespace Auditor

/-- Scans that could make the same reports are the same. -/
theorem scan_eq_of_reports_eq {auditor : Auditor} {inventory inventory' : Inventory}
    (h : auditor.reports inventory = auditor.reports inventory') :
    auditor.scan inventory = auditor.scan inventory' :=
  congrArg (fun log => { auditor with log }) (log_scan_eq rfl h)

end Auditor

namespace FileTree

variable {tree : FileTree} {root : String} {folder : List FileName}

/-- The inventory of a project on disk and the inventory in memory of its shown entries answer
alike. -/
theorem IsProject.agreeWhereShown (h : tree.IsProject root folder) :
    AgreeWhereShown (tree.inventory root) (tree.shownInventory folder).toInventory where
  folderExists := folderExists_eq h
  subfolders := subfolders_eq h
  foldersBelow := foldersBelow_eq h
  assets_some c _ hshown := assets_some_eq h hshown c
  assets_none := assets_none_eq h
  shown_subfolder {path subfolder} _ hmem := by
    obtain ⟨hstored, -⟩ :=
      (MemoryInventory.mem_subfolders_iff (closed_shownInventory tree folder)).mp hmem
    obtain ⟨whole, rights, hshows, rfl⟩ := h.mem_folders_shownInventory_iff.mp hstored
    rw [h.split_join hshows]
    exact hshows.1

/-- **The two inventories agree.**  Take a project in a folder of a file tree, and the inventory in
memory of its files and folders that lie at or below `Assets` or `Packages` and are shown with all
that is above them.  Of these entries `IsProject` asks that their names are texts without
backslashes, that there is no link among them, that the folders among them can be listed and
entered, and that the path texts of these folders are not too long.  Then

* both list the same assets of the whole project;
* for every path at or below `Assets` or `Packages` whose entries are shown, both give the same
  answers;
* a scan of the project on disk is a scan of the inventory in memory: the same violations are
  recorded, in the same order, by every auditor whose special folders and formulas name shown
  entries only. -/
theorem disk_agrees_with_memory (h : tree.IsProject root folder) :
    (∀ c, (tree.inventory root).assets c none =
        (tree.shownInventory folder).toInventory.assets c none) ∧
      (∀ path, Path.isShown (Path.split path) = true →
        (tree.inventory root).folderExists path =
            (tree.shownInventory folder).toInventory.folderExists path ∧
          (tree.inventory root).subfolders path =
            (tree.shownInventory folder).toInventory.subfolders path ∧
          (tree.inventory root).foldersBelow path =
            (tree.shownInventory folder).toInventory.foldersBelow path ∧
          ∀ c, (tree.inventory root).assets c (some path) =
            (tree.shownInventory folder).toInventory.assets c (some path)) ∧
      ∀ auditor : Auditor, auditor.rules.namesShown = true →
        auditor.scan (tree.inventory root) =
          auditor.scan (tree.shownInventory folder).toInventory := by
  have hagree := h.agreeWhereShown
  refine ⟨hagree.assets_none, fun path hshown => ⟨hagree.folderExists hshown,
    hagree.subfolders hshown, hagree.foldersBelow hshown, fun c => hagree.assets_some c hshown⟩, ?_⟩
  exact fun auditor hrules => Auditor.scan_eq_of_reports_eq (Scan.reports_eq hagree hrules)

/-- In a project with a hidden folder, a backup folder, a hidden link and a cache beside the assets,
both inventories know one prefab, and both scans report the folder without prefabs. -/
theorem disk_agrees_with_memory_hidden_entries :
    let folder : FileNode := .folder .full
    let file : FileNode := .file .empty .full
    let entries : List (List FileName × FileName × FileNode) :=
      [([], "game", folder), (["game"], "Assets", folder),
        (["game", "Assets"], "Hero.prefab", file), (["game", "Assets"], "Empty", folder),
        (["game", "Assets"], ".cache", folder),
        (["game", "Assets", ".cache"], "Old.prefab", file),
        (["game", "Assets"], ".link", .link true []),
        (["game", "Assets"], "Backup~", folder), (["game"], "Library", folder),
        (["game", "Library"], "Cached.prefab", file)]
    let tree : FileTree :=
      entries.foldl (fun tree (folder, name, node) => tree.insert folder name node) .empty
    let auditor : Auditor :=
      .new { Rules.default with
        specialFolders := ["Art"]
        conditions := [⟨"Empty", .ofList [.prefab]⟩] } .default
    let memory := (tree.shownInventory ["game"]).toInventory
    tree.IsProject "game" ["game"] ∧ Path.isShown (Path.split "Assets\\") = true ∧
      (tree.inventory "game").subfolders "Assets\\" = memory.subfolders "Assets\\" ∧
      memory.subfolders "Assets\\" = ["Assets/Empty"] ∧
      memory.assets .prefab none = ["Assets/Hero.prefab"] ∧
      auditor.rules.namesShown = true ∧
      auditor.scan (tree.inventory "game") = auditor.scan memory ∧
      (auditor.scan memory).log.entries.map Violation.fullPath =
        ["Assets/Art", "Assets/Empty/[Missing Prefab]", "Assets/Hero.prefab"] := by
  intro folder file entries tree auditor memory
  have hproject : tree.IsProject "game" ["game"] :=
    ⟨.inr (by decide +kernel), by decide +kernel, by decide +kernel, by decide +kernel,
      by decide +kernel, by decide +kernel⟩
  have hshown : Path.isShown (Path.split "Assets\\") = true := by decide
  have hrules : auditor.rules.namesShown = true := by decide +kernel
  obtain ⟨-, hanswers, hscan⟩ := disk_agrees_with_memory hproject
  exact ⟨hproject, hshown, (hanswers _ hshown).2.1, by decide +kernel, by decide +kernel, hrules,
    hscan auditor hrules, by decide +kernel⟩

/-- A path text for the folder in which the program works, as long as one likes. -/
def windingRoot (n : Nat) : String := pathBelow "." (List.replicate n ".")

theorem isSegment_replicate_dot (n : Nat) : ∀ name ∈ List.replicate n ".", IsSegment name := by
  intro name hname
  rw [List.eq_of_mem_replicate hname]
  decide +kernel

theorem utf8ByteSize_windingRoot (n : Nat) : (windingRoot n).utf8ByteSize = 2 * n + 1 := by
  cases n with
  | zero => rfl
  | succ n =>
    have hdot : ".".utf8ByteSize = 1 := rfl
    have hslash : (joinPath "." "").utf8ByteSize = 2 := by decide
    have hne : List.replicate (n + 1) "." ≠ [] := List.cons_ne_nil _ _
    rw [windingRoot, pathBelow_of_ne_nil _ hne, utf8ByteSize_joinPath,
      Path.utf8ByteSize_join, List.map_replicate, List.sum_replicate_nat, List.length_replicate,
      hdot, hslash]
    omega

/-- The text leads to the working folder, if it is not too long and the program may enter the
folder. -/
theorem resolve_windingRoot {n : Nat} (hn : 2 * n + 1 ≤ Location.maxBytes)
    (henter : (tree.rightsAt tree.workingFolder).enter = true) :
    tree.resolve (windingRoot n) = .ok tree.workingFolder := by
  have hdots := isSegment_replicate_dot n
  rw [← utf8ByteSize_windingRoot n] at hn
  refine resolve_pathBelow_of_isFolderAt hdots ?_ hn (fun hempty => ?_) ⟨0, Nat.zero_le _, ?_⟩
    (isFolderAt_of_enter henter)
  · rw [mem_toList_pathBelow_iff (by decide)]
    rintro (hnul | ⟨name, hname, hnul⟩)
    · exact absurd hnul (by decide)
    · rw [List.eq_of_mem_replicate hname] at hnul
      exact absurd hnul (by decide)
  · have hsize := utf8ByteSize_windingRoot n
    rw [windingRoot, hempty] at hsize
    cases hsize
  · have hroot : Location.namesIn "." = [.here] := by decide
    rw [hroot, List.map_replicate]
    exact .here henter (leads_replicate_here henter n)

/-- **Where the two inventories differ.**

* A project without anything unusual in it, in a folder that is given by a path text of 4085 bytes:
  on disk the folder `Assets/Units` does not exist, because its path text has 4098 bytes.
* A folder whose name is a byte that is no text.
* A folder in a folder that can be listed but not entered. -/
theorem disk_and_memory_differ :
    (let tree := (empty.insert [] "Assets" (.folder .full)).insert ["Assets"]
        "Units" (.folder .full)
    tree.LeadsTo (windingRoot 2042) [] ∧
      (∀ entry ∈ tree.nodes, entry.2 = .folder .full ∧
        ∀ name ∈ entry.1, name.isText = true ∧ '\\' ∉ name.shown.toList) ∧
      Path.isShown (Path.split "Assets/Units") = true ∧
      (tree.inventory (windingRoot 2042)).folderExists "Assets/Units" = false ∧
      (tree.shownInventory []).toInventory.folderExists "Assets/Units" = true) ∧
    (let tree := (empty.insert [] "Assets" (.folder .full)).insert ["Assets"]
        (.raw [0xFF] (by decide)) (.folder .full)
    (tree.inventory ".").folderExists "Assets/\uFFFD" = false ∧
      (tree.shownInventory []).toInventory.folderExists "Assets/\uFFFD" = true) ∧
    (let tree := ((empty.insert [] "Assets" (.folder .full)).insert ["Assets"] "Locked"
        (.folder ⟨true, true, false⟩)).insert ["Assets", "Locked"] "Units" (.folder .full)
    (tree.inventory ".").folderExists "Assets/Locked/Units" = false ∧
      (tree.shownInventory []).toInventory.folderExists "Assets/Locked/Units" = true) := by
  refine ⟨?_, by decide +kernel, by decide +kernel⟩
  intro tree
  refine ⟨.inr (resolve_windingRoot (by decide) (by decide +kernel)), by decide +kernel,
    by decide, ?_, by decide +kernel⟩
  have hsplit : Path.split "Assets/Units" = ["Assets", "Units"] := by decide
  have hsize :
      Location.maxBytes < (pathBelow (windingRoot 2042) ["Assets", "Units"]).utf8ByteSize := by
    have hroot := (le_utf8ByteSize_joinPath (windingRoot 2042)).1
    have hunits : (Path.join ["Assets", "Units"]).utf8ByteSize = 12 := by decide
    rw [utf8ByteSize_windingRoot] at hroot
    rw [pathBelow_of_ne_nil _ (List.cons_ne_nil _ _), utf8ByteSize_joinPath, hunits,
      Location.maxBytes]
    omega
  have hexists : (tree.inventory (windingRoot 2042)).folderExists "Assets/Units" =
      tree.projectFolderExists (windingRoot 2042) "Assets/Units" := by
    rw [inventory]
  rw [hexists, projectFolderExists, hsplit, isFolder]
  split
  · next goal hresolve =>
    exact absurd (utf8ByteSize_le_of_resolve hresolve) (Nat.not_le.mpr hsize)
  · rfl

end FileTree

end AssetAudit
