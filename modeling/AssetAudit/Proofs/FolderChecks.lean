import AssetAudit.Proofs.AssetWalk
import AssetAudit.Proofs.ByteOrder

/-!
# The checks on folders

Two checks of a scan are about folders alone: special folders have to exist, and the folders below
the assets have to be named in the style of folders.  What a complete scan records of their kinds is
said here by the paths that its violations show.

## From violations to paths

Both checks report a path that begins at `Assets`, cut into a folder and a name.  Such a path is put
together again from the two (`Violation.fullPath_of_assets`), also if further segments of it are
called `Assets`, and if there is nothing above its name.  So different paths have different reports,
and dropping repeated violations is dropping repeated paths.

## The two checks

* `specialFolderReports_eq`: one report for each row that asks for a folder which does not exist, by
  the path that the row stands for.  Rows may stand for the same path, and then the log keeps the
  first.
* `folderReports_eq`: one report for each folder with `IsMisnamedFolder`, in the order of the
  inventory, where no folder is listed twice.
-/

namespace AssetAudit

open AssetAudit.Path (IsBelow IsCanonical)

/-- **A path that begins at the assets is put together again** from the folder and the name that a
violation shows of it. -/
theorem Violation.fullPath_of_assets {v : Violation} {path : String} (hpath : IsCanonical path)
    (hassets : (Path.split path).head? = some Path.assetsRoot)
    (hname : v.name = Path.nameOf (Path.split path))
    (hfolder : v.folder = Path.folderOf (Path.split path)) : v.fullPath = path := by
  rw [Path.folderOf_of_assets hassets] at hfolder
  exact fullPath_of_isCanonical hpath hname hfolder

/-- Members that contribute one report or none. -/
theorem flatMap_eq_map_filter {α β : Type} {f : α → List β} {p : α → Bool} {g : α → β} {l : List α}
    (h : ∀ a ∈ l, f a = if p a then [g a] else []) : l.flatMap f = (l.filter p).map g := by
  induction l with
  | nil => rfl
  | cons a l ih =>
    have hl := ih fun b hb => h b (List.mem_cons_of_mem a hb)
    rw [List.flatMap_cons, h a List.mem_cons_self, hl]
    cases hp : p a with
    | true => rw [List.filter_cons_of_pos hp, List.map_cons, if_pos rfl, List.singleton_append]
    | false => rw [List.filter_cons_of_neg (by simp [hp]), if_neg (by simp), List.nil_append]

/-! ## Special folders -/

namespace Path

theorem head?_split_underAssets (row : String) :
    (split (underAssets row)).head? = some assetsRoot := by
  rw [split_underAssets, List.head?_cons]

theorem isCanonical_underAssets (row : String) : IsCanonical (underAssets row) := by
  refine isCanonical_join (fun name hname => ?_) (List.cons_ne_nil _ _)
  rcases List.mem_cons.mp hname with rfl | hname
  · exact isSegment_assetsRoot
  · exact isSegment_of_mem_split hname

/-- Rows stand for the same path exactly if they have the same segments. -/
theorem underAssets_eq_iff {row row' : String} :
    underAssets row = underAssets row' ↔ split row = split row' := by
  refine ⟨fun h => ?_, fun h => by rw [underAssets, h, ← underAssets]⟩
  have hsplit := congrArg split h
  rw [split_underAssets, split_underAssets, List.cons.injEq] at hsplit
  exact hsplit.2

/-- A row of separators stands for the assets themselves. -/
theorem underAssets_of_isSeparator {row : String} (h : ∀ c ∈ row.toList, isSeparator c = true) :
    underAssets row = assetsRoot := by
  have hsplit := split_append_of_isSeparator h []
  rw [List.append_nil, String.ofList_toList] at hsplit
  rw [underAssets, hsplit]
  rfl

end Path

namespace Scan

/-- The report on a special folder that does not exist. -/
def missingFolder (path : String) : Violation where
  kind := .specialFolderMissing
  category := .folder
  name := Path.nameOf (Path.split path)
  folder := Path.folderOf (Path.split path)

theorem fullPath_missingFolder {path : String} (hpath : IsCanonical path)
    (hassets : (Path.split path).head? = some Path.assetsRoot) :
    (missingFolder path).fullPath = path :=
  Violation.fullPath_of_assets hpath hassets (by rw [missingFolder]) (by rw [missingFolder])

/-- **The reports on special folders** are those on the paths of the rows that do not lead to a
folder. -/
theorem specialFolderReports_eq {scan : Scan}
    (henabled : scan.settings.filter.specialFolders = true) :
    scan.specialFolderReports =
      (((scan.specialFolders.filter (· ≠ "")).map Path.underAssets).filter
        fun path => !scan.inventory.folderExists path).map missingFolder := by
  have hrow (row : String) : scan.reportOnSpecialFolder row =
      if !scan.inventory.folderExists (Path.underAssets row) && decide (row ≠ "") then
        [missingFolder (Path.underAssets row)] else [] := by
    rw [reportOnSpecialFolder]
    by_cases hrow : row = ""
    · simp [hrow]
    · cases hexists : scan.inventory.folderExists (Path.underAssets row) <;>
        simp [hrow, missingFolder]
  have hrows : scan.specialFolders.flatMap scan.reportOnSpecialFolder =
      (scan.specialFolders.filter fun row =>
        !scan.inventory.folderExists (Path.underAssets row) && decide (row ≠ "")).map
          fun row => missingFolder (Path.underAssets row) :=
    flatMap_eq_map_filter fun row _ => hrow row
  rw [specialFolderReports, if_pos henabled, hrows, List.filter_map, List.map_map,
    List.filter_filter]
  rfl

end Scan

/-- **What a scan records about special folders.**  For every auditor that checks special folders,
every inventory, and every scan that is not truncated, the recorded violations of this kind show the
paths of the rows that are not empty, are within the row limit and do not lead to a folder, each
path where it first occurs.  So

* every row that asks for a missing folder is reported once, together with the rows that differ from
  it in separators only: rows stand for the same path exactly if they have the same segments;
* a row of separators stands for the assets themselves;
* every path that is shown begins with the segment `Assets`. -/
theorem Auditor.special_folder_paths {auditor : Auditor} {inventory : Inventory}
    (henabled : auditor.settings.filter.specialFolders = true)
    (hcomplete : (auditor.scan inventory).summary.truncated = false) :
    let rows := (auditor.rules.specialFolders.take auditor.settings.maxSpecialFolders.toNat).filter
      (· ≠ "")
    let missing := (rows.map Path.underAssets).filter fun path => !inventory.folderExists path
    let paths := ((auditor.scan inventory).log.entries.filter fun v =>
      v.kind = .specialFolderMissing).map Violation.fullPath
    paths = missing.eraseDups ∧
      (∀ row ∈ rows, inventory.folderExists (Path.underAssets row) = false →
        paths.count (Path.underAssets row) = 1) ∧
      (∀ row row',
        Path.underAssets row = Path.underAssets row' ↔ Path.split row = Path.split row') ∧
      (∀ row : String, (∀ c ∈ row.toList, Path.isSeparator c = true) →
        Path.underAssets row = Path.assetsRoot) ∧
      ∀ path ∈ paths, (Path.split path).head? = some Path.assetsRoot := by
  intro rows missing paths
  have hpaths : paths = missing.eraseDups := by
    have hrecorded : (auditor.scan inventory).log.entries.filter (fun v =>
        v.kind = .specialFolderMissing) = (missing.map Scan.missingFolder).eraseDups := by
      rw [filter_entries_scan hcomplete, reports, Scan.filter_reports_eq_specialFolderReports,
        Scan.specialFolderReports_eq henabled]
      rfl
    simp only [paths, hrecorded]
    refine map_eraseDups_map fun path hpath => ?_
    obtain ⟨row, -, rfl⟩ := List.mem_map.mp (List.mem_filter.mp hpath).1
    exact Scan.fullPath_missingFolder (Path.isCanonical_underAssets row)
      (Path.head?_split_underAssets row)
  refine ⟨hpaths, fun row hrow hmissing => ?_, fun _ _ => Path.underAssets_eq_iff,
    fun _ => Path.underAssets_of_isSeparator, fun path hpath => ?_⟩
  · rw [hpaths]
    have hmem : Path.underAssets row ∈ missing :=
      List.mem_filter.mpr ⟨List.mem_map_of_mem hrow, by rw [hmissing]; rfl⟩
    exact List.count_eq_one_of_mem (nodup_eraseDups missing) (List.mem_eraseDups.mpr hmem)
  · rw [hpaths, List.mem_eraseDups] at hpath
    obtain ⟨row, -, rfl⟩ := List.mem_map.mp (List.mem_filter.mp hpath).1
    exact Path.head?_split_underAssets row

/-- Two spellings of one missing folder are reported once, and a row of separators asks for the
assets. -/
theorem Auditor.special_folder_paths_spellings :
    let rules := { Rules.default with specialFolders := ["", "Art", "\\Art//", "Music", "/"] }
    let auditor := Auditor.new rules .default
    let inventory := (MemoryInventory.ofAdditions [.folder "assets/Art"]).toInventory
    let paths := ((auditor.scan inventory).log.entries.filter fun v =>
      v.kind = .specialFolderMissing).map Violation.fullPath
    auditor.settings.filter.specialFolders = true ∧
      (auditor.scan inventory).summary.truncated = false ∧
      paths.count "Assets/Art" = 1 ∧ paths = ["Assets/Art", "Assets/Music", "Assets"] := by
  intro rules auditor inventory paths
  have hcomplete : (auditor.scan inventory).summary.truncated = false := by decide +kernel
  have hpaths : paths = ["Assets/Art", "Assets/Music", "Assets"] := by decide +kernel
  have hplace : Path.underAssets "Art" = "Assets/Art" := by decide +kernel
  have honce : paths.count (Path.underAssets "Art") = 1 :=
    (special_folder_paths rfl hcomplete).2.1 "Art" (by decide +kernel) (by decide +kernel)
  exact ⟨rfl, hcomplete, hplace ▸ honce, hpaths⟩

/-! ## The names of folders -/

namespace Scan

/-- A folder that the check of folder names reports. -/
structure IsMisnamedFolder (scan : Scan) (folder : String) : Prop where
  /-- It lies strictly below the assets. -/
  below_assets : IsBelow [Path.assetsRoot] (Path.split folder)
  /-- None of its segments is an ignore entry. -/
  not_ignored : ∀ entry ∈ scan.ignoreFolders, entry ≠ "" → entry ∉ Path.split folder
  /-- Its last segment does not follow the style that the rules select for folders. -/
  rejected : (Naming.Pattern.ofSelector ((scan.rules.naming .folder).getD 0) .folder).accepts
    (Path.nameOf (Path.split folder)) = false

/-- **The test of the scan.**  What lies below the assets is not vendored. -/
theorem isMisnamedFolder_iff {scan : Scan} {folder : String} :
    scan.IsMisnamedFolder folder ↔
      IsBelow [Path.assetsRoot] (Path.split folder) ∧
        (scan.isExcluded (Path.split folder) ||
          (scan.rules.pattern .folder).accepts (Path.nameOf (Path.split folder))) = false := by
  rw [Bool.or_eq_false_iff, ← Bool.not_eq_true, isExcluded_iff]
  constructor
  · rintro ⟨hbelow, hignored, hrejected⟩
    refine ⟨hbelow, ?_, hrejected⟩
    rintro (hvendored | ⟨entry, hentry, hne, hmem⟩)
    · obtain ⟨rest, -, hsplit⟩ := hbelow
      rw [hsplit, List.singleton_append, List.head?_cons] at hvendored
      exact absurd hvendored (by decide)
    · exact hignored entry hentry hne hmem
  · rintro ⟨hbelow, hwalked, hrejected⟩
    refine ⟨hbelow, fun entry hentry hne hmem => ?_, hrejected⟩
    exact hwalked (.inr ⟨entry, hentry, hne, hmem⟩)

instance (scan : Scan) (folder : String) : Decidable (scan.IsMisnamedFolder folder) :=
  decidable_of_iff' _ isMisnamedFolder_iff

theorem IsMisnamedFolder.head?_split {scan : Scan} {folder : String}
    (h : scan.IsMisnamedFolder folder) :
    (Path.split folder).head? = some Path.assetsRoot := by
  obtain ⟨rest, -, hsplit⟩ := h.below_assets
  rw [hsplit, List.singleton_append, List.head?_cons]

/-- The report on a misnamed folder. -/
def folderMisnaming (scan : Scan) (folder : String) : Violation where
  kind := .folderName
  category := .folder
  name := Path.nameOf (Path.split folder)
  folder := Path.folderOf (Path.split folder)
  hint := (scan.rules.pattern .folder).sample

theorem fullPath_folderMisnaming {scan : Scan} {folder : String} (hfolder : IsCanonical folder)
    (hmisnamed : scan.IsMisnamedFolder folder) : (scan.folderMisnaming folder).fullPath = folder :=
  Violation.fullPath_of_assets hfolder hmisnamed.head?_split (by rw [folderMisnaming])
    (by rw [folderMisnaming])

/-- **One folder** below the assets. -/
theorem reportOnFolder_of_isBelow {scan : Scan} {folder : String}
    (hbelow : IsBelow [Path.assetsRoot] (Path.split folder)) :
    scan.reportOnFolder folder =
      if scan.IsMisnamedFolder folder then [scan.folderMisnaming folder] else [] := by
  rw [reportOnFolder]
  by_cases hmisnamed : scan.IsMisnamedFolder folder
  · rw [if_pos hmisnamed, if_neg (by rw [(isMisnamedFolder_iff.mp hmisnamed).2]; simp)]
    rfl
  · have hpassed := Bool.not_eq_false _ |>.mp fun h =>
      hmisnamed (isMisnamedFolder_iff.mpr ⟨hbelow, h⟩)
    rw [if_neg hmisnamed, if_pos hpassed]

/-- **All folders.**  The reports on the names of folders, in the order of the inventory. -/
theorem folderReports_eq {scan : Scan} {inv : MemoryInventory} (hclosed : inv.Closed)
    (hinventory : scan.inventory = inv.toInventory)
    (henabled : scan.settings.filter.folders = true) :
    scan.folderReports =
      (inv.folders.toList.filter fun folder => scan.IsMisnamedFolder folder).map
        scan.folderMisnaming := by
  have hlisted :
      scan.inventory.foldersBelow Path.assetsRoot = inv.foldersBelow Path.assetsRoot := by
    rw [hinventory]
    rfl
  have hreports : (inv.foldersBelow Path.assetsRoot).flatMap scan.reportOnFolder =
      ((inv.foldersBelow Path.assetsRoot).filter fun folder =>
        scan.IsMisnamedFolder folder).map scan.folderMisnaming := by
    refine flatMap_eq_map_filter fun folder hfolder => ?_
    have hbelow := ((MemoryInventory.mem_foldersBelow_iff hclosed).mp hfolder).2
    rw [reportOnFolder_of_isBelow hbelow]
    simp only [decide_eq_true_eq]
  rw [folderReports, if_pos henabled, hlisted, hreports, MemoryInventory.foldersBelow,
    List.filter_filter]
  refine congrArg (List.map _) (List.filter_congr fun folder hfolder => ?_)
  have hbelow :=
    MemoryInventory.isBelow_normalize_iff (hclosed.canonical_folder hfolder) Path.assetsRoot
  by_cases hmisnamed : scan.IsMisnamedFolder folder
  · rw [hbelow.mpr hmisnamed.below_assets, Bool.and_true]
  · simp [hmisnamed]

end Scan

/-- **What a scan records about the names of folders.**  For every inventory that additions lead to,
every auditor that checks folders, and every scan that is not truncated, the recorded violations of
this kind are the reports on the stored folders with `IsMisnamedFolder`, and show their paths: all
of them, in ascending order, and each once. -/
theorem Auditor.misnamed_folder_paths {additions : List MemoryInventory.Addition}
    {auditor : Auditor}
    (henabled : auditor.settings.filter.folders = true)
    (hcomplete : (auditor.scan
      (MemoryInventory.ofAdditions additions).toInventory).summary.truncated = false) :
    let inv := MemoryInventory.ofAdditions additions
    let scan : Scan := ⟨auditor.rules, auditor.settings, inv.toInventory⟩
    let recorded := (auditor.scan inv.toInventory).log.entries.filter fun v => v.kind = .folderName
    let misnamed := inv.folders.toList.filter fun folder => scan.IsMisnamedFolder folder
    recorded = misnamed.map scan.folderMisnaming ∧
      recorded.map Violation.fullPath = misnamed ∧
      misnamed.Pairwise (fun a b => utf8Bytes a < utf8Bytes b) ∧
      ∀ folder ∈ inv.folders.toList, scan.IsMisnamedFolder folder →
        (recorded.map Violation.fullPath).count folder = 1 := by
  intro inv scan recorded misnamed
  have hclosed : inv.Closed := MemoryInventory.closed_ofAdditions additions
  have hfullPath : (misnamed.map scan.folderMisnaming).map Violation.fullPath = misnamed := by
    rw [List.map_map]
    refine (List.map_congr_left fun folder hfolder => ?_).trans (List.map_id misnamed)
    obtain ⟨hstored, hmisnamed⟩ := List.mem_filter.mp hfolder
    rw [Function.comp_apply, Scan.fullPath_folderMisnaming (hclosed.canonical_folder hstored)
      (of_decide_eq_true hmisnamed)]
    rfl
  have hnodup : misnamed.Nodup := (PathSet.nodup_of_ascending inv.folders.ascending).filter _
  have hrecorded : recorded = misnamed.map scan.folderMisnaming := by
    have hall : recorded = scan.folderReports.eraseDups :=
      (filter_entries_scan hcomplete _).trans
        (congrArg List.eraseDups scan.filter_reports_eq_folderReports)
    rw [hall, Scan.folderReports_eq hclosed rfl henabled]
    exact eraseDups_eq_self (.of_map Violation.fullPath (by rwa [hfullPath]))
  have hpaths : recorded.map Violation.fullPath = misnamed := by rw [hrecorded, hfullPath]
  refine ⟨hrecorded, hpaths, inv.folders.pairwise_utf8Bytes.filter _,
    fun folder hstored hmisnamed => ?_⟩
  rw [hpaths]
  exact List.count_eq_one_of_mem hnodup
    (List.mem_filter.mpr ⟨hstored, decide_eq_true hmisnamed⟩)

/-- A folder that lies below a second `Assets` is reported by its whole path.  An ignored folder,
the folders in it, and what does not lie below the assets are passed over, whatever their names. -/
theorem Auditor.misnamed_folder_paths_nested :
    let additions : List MemoryInventory.Addition :=
      [.folder "Assets/Units/Assets/bad name", .file "Assets/Demo/also bad/Grass.png",
        .folder "Assets\\my Art", .folder "Packages/bad kit"]
    let inventory := (MemoryInventory.ofAdditions additions).toInventory
    let auditor : Auditor := .new { Rules.default with ignoreFolders := ["", "Demo"] } .default
    let recorded := (auditor.scan inventory).log.entries.filter fun v => v.kind = .folderName
    auditor.settings.filter.folders = true ∧ (auditor.scan inventory).summary.truncated = false ∧
      (recorded.map Violation.fullPath).count "Assets/my Art" = 1 ∧
      recorded.map Violation.fullPath = ["Assets/Units/Assets/bad name", "Assets/my Art"] := by
  intro additions inventory auditor recorded
  obtain ⟨hcomplete, hpaths⟩ : (auditor.scan inventory).summary.truncated = false ∧
      recorded.map Violation.fullPath = ["Assets/Units/Assets/bad name", "Assets/my Art"] := by
    decide +kernel
  have hstored : "Assets/my Art" ∈ (MemoryInventory.ofAdditions additions).folders.toList := by
    decide +kernel
  have hmisnamed : Scan.IsMisnamedFolder ⟨auditor.rules, auditor.settings, inventory⟩
      "Assets/my Art" := by decide +kernel
  exact ⟨rfl, hcomplete, (misnamed_folder_paths rfl hcomplete).2.2.2 _ hstored hmisnamed, hpaths⟩

end AssetAudit
