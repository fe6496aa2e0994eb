import AssetAudit.Proofs.CappedScan
import AssetAudit.Proofs.ReportKinds
import AssetAudit.Proofs.ShownPaths
import AssetAudit.Proofs.StoredPaths

/-!
# The walk over the assets of a category

For an inventory in memory whose files lie below `Assets` or `Packages`, what a scan records about
the assets of a category can be said by a walk over stored files: pass over the files of vendored
packages and ignored folders, and report each other file for its place, for its name, for both or
for neither.

## The dictionary

`Scan.IsPassedOver`, `Scan.IsMisplaced` and `Scan.IsMisnamed` are the three conditions, stated on
the segments of a file; `Scan.walk` lists the files that are not passed over, in ascending order.

## Why nothing is lost

The log drops repeated violations, and a violation shows a file as the pair of a folder and a name.
A file below `Assets` lies in the folder that its report shows (`Path.folderOf_of_assets`), so
folder and name together are the path of the file (`Violation.fullPath_of_isCanonical`), different
files have different reports, and nothing is dropped.
-/

namespace AssetAudit

open AssetAudit.Path (IsSegment IsCanonical)

namespace Path

/-- A path that starts at the assets lies in the folder that a report shows for it. -/
theorem folderOf_of_assets {segments : List String} (h : segments.head? = some assetsRoot) :
    folderOf segments = join segments.dropLast := by
  rw [folderOf, fromAssets_dropLast_of_assets h]

end Path

/-- **A violation shows the whole path** of what lies in its folder under its name. -/
theorem Violation.fullPath_of_join {v : Violation} {segments : List String}
    (hsegments : ∀ name ∈ segments, IsSegment name) (hne : segments ≠ [])
    (hname : v.name = Path.nameOf segments) (hfolder : v.folder = Path.join segments.dropLast) :
    v.fullPath = Path.join segments := by
  obtain ⟨folders, name, rfl⟩ := (List.eq_nil_or_concat' segments).resolve_left hne
  rw [Path.nameOf_append_singleton] at hname
  rw [List.dropLast_concat] at hfolder
  have hfolders (other : String) (hother : other ∈ folders) : IsSegment other :=
    hsegments other (List.mem_append_left _ hother)
  rw [fullPath, hname, hfolder]
  by_cases hnil : folders = []
  · simp [hnil]
  · have hnonempty : ¬ (Path.join folders).isEmpty = true := by
      rw [String.isEmpty_iff, Path.join_eq_empty_iff hfolders]
      exact hnil
    rw [if_neg hnonempty, Path.join_append_of_ne_nil hnil (by simp), Path.join_singleton]

/-- In particular, a violation on a canonical path shows this path. -/
theorem Violation.fullPath_of_isCanonical {v : Violation} {path : String} (hpath : IsCanonical path)
    (hname : v.name = Path.nameOf (Path.split path))
    (hfolder : v.folder = Path.join (Path.split path).dropLast) : v.fullPath = path := by
  rw [fullPath_of_join (fun _ => Path.isSegment_of_mem_split) hpath.split_ne_nil hname hfolder,
    hpath.join_split]

namespace Scan

/-! ## What the walk looks for -/

/-- A file is passed over if it is vendored, or if an ignore entry is one of its segments. -/
def IsPassedOver (scan : Scan) (file : String) : Prop :=
  (Path.split file).head? = some Path.packagesRoot ∨
    ∃ entry ∈ scan.ignoreFolders, entry ≠ "" ∧ entry ∈ Path.split file

/-- A file is misplaced if none of the folders above it is an accepted one, and the folder in which
it lies is not allowed by a condition rule. -/
def IsMisplaced (scan : Scan) (c : FileCategory) (file : String) : Prop :=
  (∀ folder ∈ (Path.split file).dropLast, folder ∉ Path.alternatives (scan.rules.roots c)) ∧
    Path.join (Path.split file).dropLast ∉ (scan.allowedFolders c).folders

/-- A file is misnamed if its bare name does not follow the pattern of the category. -/
def IsMisnamed (scan : Scan) (c : FileCategory) (file : String) : Prop :=
  (scan.rules.pattern c).accepts (Path.nameOf (Path.split file)) = false

instance (scan : Scan) (file : String) : Decidable (scan.IsPassedOver file) :=
  inferInstanceAs (Decidable (_ ∨ _))

instance (scan : Scan) (c : FileCategory) (file : String) : Decidable (scan.IsMisplaced c file) :=
  inferInstanceAs (Decidable (_ ∧ _))

instance (scan : Scan) (c : FileCategory) (file : String) : Decidable (scan.IsMisnamed c file) :=
  inferInstanceAs (Decidable (_ = _))

/-- The files of a category that the walk looks at, in ascending order. -/
def walk (scan : Scan) (inv : MemoryInventory) (c : FileCategory) : List String :=
  inv.files.toList.filter fun file => c.discovers file && !decide (scan.IsPassedOver file)

/-- The report on a misplaced file. -/
def misplacement (scan : Scan) (c : FileCategory) (file : String) : Violation where
  kind := .location c
  category := c
  name := Path.nameOf (Path.split file)
  folder := Path.join (Path.split file).dropLast
  hint := scan.locationHint c

/-- The report on a misnamed file. -/
def misnaming (scan : Scan) (c : FileCategory) (file : String) : Violation where
  kind := .naming c
  category := c
  name := Path.nameOf (Path.split file)
  folder := Path.join (Path.split file).dropLast
  hint := (scan.rules.pattern c).sample

/-- What the walk reports about a file: its place first, then its name. -/
def walkReports (scan : Scan) (c : FileCategory) (file : String) : List Violation :=
  (if scan.IsMisplaced c file then [scan.misplacement c file] else []) ++
    (if scan.IsMisnamed c file then [scan.misnaming c file] else [])

/-! ## The scan says what the walk says -/

/-- Members that contribute nothing can be passed over. -/
theorem flatMap_eq_flatMap_filter {α β : Type} {f : α → List β} {p : α → Bool}
    (h : ∀ a, p a = false → f a = []) (l : List α) : l.flatMap f = (l.filter p).flatMap f := by
  induction l with
  | nil => rfl
  | cons a l ih =>
    cases hp : p a with
    | true => rw [List.filter_cons_of_pos hp, List.flatMap_cons, List.flatMap_cons, ih]
    | false =>
      rw [List.filter_cons_of_neg (by simp [hp]), List.flatMap_cons, h a hp, List.nil_append, ih]

section

variable (scan : Scan) (c : FileCategory)

theorem isExcluded_iff (file : String) :
    scan.isExcluded (Path.split file) = true ↔ scan.IsPassedOver file := by
  rw [isExcluded, Bool.or_eq_true, Path.isIgnored_iff, Path.isVendored, beq_iff_eq]
  rfl

theorem isMisplaced_iff (file : String) :
    scan.IsMisplaced c file ↔
      ¬ (scan.isInRoot c (Path.split file) ||
        (scan.allowedFolders c).contains (Path.join (Path.split file).dropLast)) = true := by
  rw [Bool.or_eq_true, not_or, AllowList.contains_iff, isInRoot, List.any_eq_true, IsMisplaced]
  simp

/-- **One file.**  The scan says about a file that is not passed over what the walk says. -/
theorem reportOnAsset_eq_walkReports {file : String} (hfile : IsCanonical file)
    (hassets : (Path.split file).head? = some Path.assetsRoot)
    (hwalked : ¬ scan.IsPassedOver file) :
    scan.reportOnAsset c (scan.allowedFolders c) file = scan.walkReports c file := by
  have hskip : ¬ ((Path.split file).isEmpty || scan.isExcluded (Path.split file)) = true := by
    rw [Bool.or_eq_true, isExcluded_iff, List.isEmpty_iff]
    exact not_or.mpr ⟨hfile.split_ne_nil, hwalked⟩
  simp only [reportOnAsset, if_neg hskip, Path.folderOf_of_assets hassets]
  refine congrArg₂ (· ++ ·) ?_ ?_
  · by_cases hplace : scan.IsMisplaced c file
    · rw [if_neg ((isMisplaced_iff scan c file).mp hplace), if_pos hplace]
      rfl
    · rw [if_pos (not_not.mp fun h => hplace ((isMisplaced_iff scan c file).mpr h)), if_neg hplace]
  · by_cases hname : scan.IsMisnamed c file
    · rw [if_pos hname, if_neg (by rw [hname]; simp)]
      rfl
    · rw [if_neg hname, if_pos (Bool.not_eq_false _ |>.mp hname)]

/-- **All files.**  The reports on the assets of a category are those of the walk. -/
theorem assetReports_eq_walk {inv : MemoryInventory} (hclosed : inv.Closed)
    (hinventory : scan.inventory = inv.toInventory)
    (hplaced : ∀ file ∈ inv.files.toList, (Path.split file).head? = some Path.assetsRoot ∨
      (Path.split file).head? = some Path.packagesRoot) :
    scan.assetReports c = (scan.walk inv c).flatMap (scan.walkReports c) := by
  have hassets : scan.inventory.assets c none = inv.files.toList.filter c.discovers := by
    rw [hinventory]
    exact inv.assets_none c
  have hskipped (file : String) (h : scan.IsPassedOver file) :
      scan.reportOnAsset c (scan.allowedFolders c) file = [] := by
    have hexcluded := (isExcluded_iff scan file).mpr h
    simp [reportOnAsset, hexcluded]
  have hwalk : scan.walk inv c =
      (inv.files.toList.filter c.discovers).filter fun file =>
        !decide (scan.IsPassedOver file) := by
    rw [List.filter_filter]
    exact List.filter_congr fun file _ => Bool.and_comm _ _
  rw [assetReports, hassets, hwalk, flatMap_eq_flatMap_filter (p := fun file =>
    !decide (scan.IsPassedOver file)) fun file h => hskipped file (by simpa using h)]
  refine List.flatMap_congr fun file hfile => ?_
  obtain ⟨hdiscovered, h⟩ := List.mem_filter.mp hfile
  have hstored := (List.mem_filter.mp hdiscovered).1
  have hwalked : ¬ scan.IsPassedOver file := by simpa using h
  have hhead := (hplaced file hstored).resolve_right fun hvendored => hwalked (.inl hvendored)
  exact reportOnAsset_eq_walkReports scan c (hclosed.canonical_file hstored) hhead hwalked

end

/-! ## Nothing is dropped -/

/-- What the walk reports about a file, by kind and path. -/
theorem map_fullPath_walkReports (scan : Scan) (c : FileCategory) {file : String}
    (hfile : IsCanonical file) :
    (scan.walkReports c file).map (fun v => (v.kind, v.fullPath)) =
      (if scan.IsMisplaced c file then [(.location c, file)] else []) ++
        (if scan.IsMisnamed c file then [(.naming c, file)] else []) := by
  have hplace : (scan.misplacement c file).fullPath = file :=
    Violation.fullPath_of_isCanonical hfile rfl rfl
  have hname : (scan.misnaming c file).fullPath = file :=
    Violation.fullPath_of_isCanonical hfile rfl rfl
  rw [walkReports, List.map_append]
  refine congrArg₂ (· ++ ·) ?_ ?_
  · split
    · rw [List.map_singleton, hplace]; rfl
    · rfl
  · split
    · rw [List.map_singleton, hname]; rfl
    · rfl

/-- **Different files and different kinds have different reports.** -/
theorem nodup_walk (scan : Scan) {inv : MemoryInventory} (hclosed : inv.Closed) (c : FileCategory) :
    (((scan.walk inv c).flatMap (scan.walkReports c)).map
      fun v => (v.kind, v.fullPath)).Nodup := by
  have hascending : (scan.walk inv c).Pairwise (· < ·) := inv.files.ascending.filter _
  have hcanonical (file : String) (hfile : file ∈ scan.walk inv c) : IsCanonical file :=
    hclosed.canonical_file (List.mem_filter.mp hfile).1
  have hsnd {file : String} (hfile : file ∈ scan.walk inv c) {key : ViolationKind × String}
      (hkey : key ∈ (scan.walkReports c file).map fun v => (v.kind, v.fullPath)) :
      key.2 = file := by
    rw [map_fullPath_walkReports scan c (hcanonical file hfile), List.mem_append] at hkey
    rcases hkey with hkey | hkey <;> split at hkey <;> simp_all
  rw [List.map_flatMap, List.nodup_flatMap]
  constructor
  · intro file hfile
    rw [map_fullPath_walkReports scan c (hcanonical file hfile)]
    have hne := ViolationKind.location_ne_naming c
    split <;> split <;> simp [hne]
  · refine hascending.imp_of_mem fun {file other} hfile hother hlt key hkey hkey' => ?_
    have heq := (hsnd hfile hkey).symm.trans (hsnd hother hkey')
    exact String.lt_irrefl other (heq ▸ hlt)

/-! ## The whole check -/

/-- **What a scan records about the assets of a category.**  For every inventory that additions lead
to and whose files lie below `Assets` or `Packages`, every auditor that checks the category, and
every scan that is not truncated, the recorded location and naming errors of the category are those
of the walk over the files, in ascending order: a location error for each misplaced file, and then a
naming error for each misnamed one.  Each shows the path of its file, and no file is reported twice
for the same kind. -/
theorem asset_violations_eq_walk {additions : List MemoryInventory.Addition} {auditor : Auditor}
    {c : FileCategory}
    (hplaced : ∀ file ∈ (MemoryInventory.ofAdditions additions).files.toList,
      (Path.split file).head? = some Path.assetsRoot ∨
        (Path.split file).head? = some Path.packagesRoot)
    (henabled : auditor.settings.filter.isEnabled c = true)
    (hcomplete : (auditor.scan
      (MemoryInventory.ofAdditions additions).toInventory).summary.truncated = false) :
    let inv := MemoryInventory.ofAdditions additions
    let scan : Scan := ⟨auditor.rules, auditor.settings, inv.toInventory⟩
    let recorded := (auditor.scan inv.toInventory).log.entries.filter fun v =>
      v.kind = .location c ∨ v.kind = .naming c
    recorded = (scan.walk inv c).flatMap (fun file =>
        (if scan.IsMisplaced c file then [scan.misplacement c file] else []) ++
          (if scan.IsMisnamed c file then [scan.misnaming c file] else [])) ∧
      recorded.map (fun v => (v.kind, v.fullPath)) = (scan.walk inv c).flatMap (fun file =>
        (if scan.IsMisplaced c file then [(.location c, file)] else []) ++
          (if scan.IsMisnamed c file then [(.naming c, file)] else [])) ∧
      (recorded.map fun v => (v.kind, v.fullPath)).Nodup ∧
      (scan.walk inv c).Pairwise (· < ·) ∧
      ∀ file ∈ scan.walk inv c, Path.normalize file = file := by
  intro inv scan recorded
  have hclosed : inv.Closed := MemoryInventory.closed_ofAdditions additions
  have hcanonical (file : String) (hfile : file ∈ scan.walk inv c) : IsCanonical file :=
    hclosed.canonical_file (List.mem_filter.mp hfile).1
  have hnodup := nodup_walk scan hclosed c
  have hrecorded : recorded = (scan.walk inv c).flatMap (scan.walkReports c) := by
    have hkinds (v : Violation) : decide (v.kind = .location c ∨ v.kind = .naming c) =
        (v.kind.fileCategory? == some c) := by
      rw [Bool.eq_iff_iff, decide_eq_true_iff, beq_iff_eq, ViolationKind.fileCategory?_eq_some_iff]
    have hall : recorded = (scan.assetReports c).eraseDups := by
      rw [← filter_reports_eq_assetReports (mem_categories henabled), ← filter_eraseDups]
      have hentries : (auditor.scan inv.toInventory).log.entries = scan.reports.eraseDups :=
        Auditor.entries_scan_of_not_truncated hcomplete
      simp only [recorded, hentries, hkinds]
    rw [hall, assetReports_eq_walk scan c hclosed rfl hplaced]
    exact eraseDups_eq_self (List.Nodup.of_map _ hnodup)
  refine ⟨hrecorded, ?_, by rw [hrecorded]; exact hnodup, inv.files.ascending.filter _,
    fun file hfile => (hcanonical file hfile).normalize_eq⟩
  rw [hrecorded, List.map_flatMap]
  exact List.flatMap_congr fun file hfile => map_fullPath_walkReports scan c (hcanonical file hfile)

/-- Of five prefabs, the vendored one and the one in an ignored folder are passed over, one lies in
its place under a good name, one lies elsewhere, and the last is wrong in both ways. -/
theorem asset_violations_eq_walk_five_prefabs :
    let additions : List MemoryInventory.Addition :=
      [.file "Assets/Prefabs/Elf.prefab", .file "Assets/Weapons/Axe.prefab",
        .file "Assets/Weapons/bow 1.prefab", .file "Packages/a b.prefab",
        .file "Assets/Demo/c d.prefab"]
    let inventory := (MemoryInventory.ofAdditions additions).toInventory
    let auditor : Auditor := .new { Rules.default with ignoreFolders := ["Demo"] } .default
    let recorded := (auditor.scan inventory).log.entries.filter fun v =>
      v.kind = .location .prefab ∨ v.kind = .naming .prefab
    (auditor.scan inventory).summary.truncated = false ∧
      (recorded.map fun v => (v.kind, v.fullPath)).Nodup ∧
      recorded.map (fun v => (v.kind, v.fullPath)) =
        [(.location .prefab, "Assets/Weapons/Axe.prefab"),
          (.location .prefab, "Assets/Weapons/bow 1.prefab"),
          (.naming .prefab, "Assets/Weapons/bow 1.prefab")] := by
  intro additions inventory auditor recorded
  obtain ⟨hcomplete, hpaths⟩ : (auditor.scan inventory).summary.truncated = false ∧
      recorded.map (fun v => (v.kind, v.fullPath)) =
        [(.location .prefab, "Assets/Weapons/Axe.prefab"),
          (.location .prefab, "Assets/Weapons/bow 1.prefab"),
          (.naming .prefab, "Assets/Weapons/bow 1.prefab")] := by decide +kernel
  have hplaced : ∀ file ∈ (MemoryInventory.ofAdditions additions).files.toList,
      (Path.split file).head? = some Path.assetsRoot ∨
        (Path.split file).head? = some Path.packagesRoot := by decide +kernel
  exact ⟨hcomplete, (asset_violations_eq_walk hplaced rfl hcomplete).2.2.1, hpaths⟩

end Scan
end AssetAudit
