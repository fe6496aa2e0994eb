import AssetAudit.Inventory.Memory
import AssetAudit.Proofs.Segments

/-!
# What an inventory in memory stores, and what it answers

An inventory in memory stores texts and answers by comparing texts.  Two facts about every inventory
that additions lead to make this a matter of segments.

## The invariant

`MemoryInventory.Closed` says that every stored text is canonical and that the folders are closed
upwards: all folders above a stored file or folder are stored.  It holds of the empty inventory and
is preserved by every addition, so it holds of `ofAdditions` (`closed_ofAdditions`).

## The queries

On canonical texts, lying below a folder is lying below it by segments (`isBelow_normalize_iff`),
and so each listing has a membership lemma in terms of `Path.IsBelow`: `mem_foldersBelow_iff`,
`mem_subfolders_iff` and `mem_assets_iff`.

## What is stored

The stored files are the files that have been added, and the stored folders are those above them,
those that have been added, and those above these (`mem_files_ofAdditions_iff`,
`mem_folders_ofAdditions_iff`).
-/

namespace AssetAudit

namespace Path

/-- The second list of segments leads strictly below the first. -/
def IsBelow (folder path : List String) : Prop := ∃ rest, rest ≠ [] ∧ path = folder ++ rest

/-- To lie below is to begin with the other and to be longer. -/
theorem isBelow_iff {folder path : List String} :
    IsBelow folder path ↔ folder <+: path ∧ path ≠ folder := by
  constructor
  · rintro ⟨rest, hne, rfl⟩
    exact ⟨List.prefix_append _ _, fun h => hne (List.append_right_eq_self.mp h)⟩
  · rintro ⟨⟨rest, rfl⟩, hne⟩
    exact ⟨rest, fun h => hne (by rw [h, List.append_nil]), rfl⟩

instance (folder path : List String) : Decidable (IsBelow folder path) :=
  decidable_of_iff' _ isBelow_iff

/-- To lie below by one segment is to have one more name. -/
theorem isBelow_and_length_iff {folder path : List String} :
    IsBelow folder path ∧ path.length = folder.length + 1 ↔ ∃ name, path = folder ++ [name] := by
  constructor
  · rintro ⟨⟨rest, -, rfl⟩, hlength⟩
    rw [List.length_append] at hlength
    obtain ⟨name, rfl⟩ := List.length_eq_one_iff.mp (Nat.add_left_cancel hlength)
    exact ⟨name, rfl⟩
  · rintro ⟨name, rfl⟩
    exact ⟨⟨[name], List.cons_ne_nil _ _, rfl⟩, List.length_append⟩

/-- A beginning of the folder of a path lies above the path, and the other way round. -/
theorem prefix_dropLast_iff {P path : List String} (hne : P ≠ []) :
    P <+: path.dropLast ↔ IsBelow P path := by
  constructor
  · rintro ⟨rest, hrest⟩
    have hpath : path ≠ [] := by
      rintro rfl
      rw [List.dropLast_nil, List.append_eq_nil_iff] at hrest
      exact hne hrest.1
    refine ⟨rest ++ [path.getLast hpath], by simp, ?_⟩
    rw [← List.append_assoc, hrest, List.dropLast_concat_getLast]
  · rintro ⟨rest, hrest, rfl⟩
    rw [List.dropLast_append_of_ne_nil hrest]
    exact List.prefix_append _ _

/-- The text is the canonical text of some segments. -/
structure IsCanonical (path : String) : Prop where
  split_ne_nil : split path ≠ []
  normalize_eq : normalize path = path

theorem IsCanonical.join_split {path : String} (h : IsCanonical path) : join (split path) = path :=
  h.normalize_eq

theorem isCanonical_normalize {path : String} (h : split path ≠ []) :
    IsCanonical (normalize path) where
  split_ne_nil := by rwa [split_normalize]
  normalize_eq := normalize_normalize path

theorem isCanonical_join {P : List String} (hP : ∀ name ∈ P, IsSegment name) (hne : P ≠ []) :
    IsCanonical (join P) where
  split_ne_nil := by rwa [split_join hP]
  normalize_eq := by rw [normalize, split_join hP]

end Path

open AssetAudit.Path (IsSegment IsBelow IsCanonical)

namespace MemoryInventory

/-! ## The invariant -/

/-- Stored texts are canonical, and all folders above a stored file or folder are stored. -/
structure Closed (inv : MemoryInventory) : Prop where
  canonical_file : ∀ {file}, file ∈ inv.files.toList → IsCanonical file
  canonical_folder : ∀ {folder}, folder ∈ inv.folders.toList → IsCanonical folder
  above_file : ∀ {file}, file ∈ inv.files.toList → ∀ {P}, P ≠ [] → IsBelow P (Path.split file) →
    Path.join P ∈ inv.folders.toList
  above_folder : ∀ {folder}, folder ∈ inv.folders.toList → ∀ {P}, P ≠ [] →
    P <+: Path.split folder → Path.join P ∈ inv.folders.toList

/-- The lineage of a folder consists of the texts of its nonempty beginnings. -/
theorem mem_lineage_iff {segments : List String} {path : String} :
    path ∈ lineage segments ↔ ∃ P, P ≠ [] ∧ P <+: segments ∧ path = Path.join P := by
  rw [mem_lineage]
  constructor
  · rintro ⟨n, hn, rfl⟩
    refine ⟨segments.take (n + 1), ?_, List.take_prefix _ _, rfl⟩
    exact List.ne_nil_of_length_pos (by rw [List.length_take]; omega)
  · rintro ⟨P, hne, hbegins, rfl⟩
    have hpos : 0 < P.length := List.length_pos_iff.mpr hne
    have hle := hbegins.length_le
    refine ⟨P.length - 1, by omega, ?_⟩
    rw [Nat.sub_add_cancel hpos, ← List.prefix_iff_eq_take.mp hbegins]

theorem closed_empty : empty.Closed where
  canonical_file h := by simp [empty, PathSet.empty] at h
  canonical_folder h := by simp [empty, PathSet.empty] at h
  above_file h := by simp [empty, PathSet.empty] at h
  above_folder h := by simp [empty, PathSet.empty] at h

/-- Adding a folder with the folders above it keeps the folders closed. -/
theorem Closed.addSegments {inv : MemoryInventory} (h : inv.Closed) {segments : List String}
    (hsegments : ∀ name ∈ segments, IsSegment name) : (inv.addSegments segments).Closed where
  canonical_file hfile := h.canonical_file hfile
  canonical_folder hfolder := by
    rcases mem_folders_addSegments.mp hfolder with hnew | hold
    · obtain ⟨P, hne, hbegins, rfl⟩ := mem_lineage_iff.mp hnew
      exact Path.isCanonical_join (fun name hname => hsegments name (hbegins.subset hname)) hne
    · exact h.canonical_folder hold
  above_file hfile P hne hbelow :=
    mem_folders_addSegments.mpr (.inr (h.above_file hfile hne hbelow))
  above_folder hfolder P hne hbegins := by
    refine mem_folders_addSegments.mpr ?_
    rcases mem_folders_addSegments.mp hfolder with hnew | hold
    · obtain ⟨Q, -, hQ, rfl⟩ := mem_lineage_iff.mp hnew
      rw [Path.split_join fun name hname => hsegments name (hQ.subset hname)] at hbegins
      exact .inl (mem_lineage_iff.mpr ⟨P, hne, hbegins.trans hQ, rfl⟩)
    · exact .inr (h.above_folder hold hne hbegins)

/-- Adding a file with the folders above it keeps the folders closed. -/
theorem Closed.addFile {inv : MemoryInventory} (h : inv.Closed) (path : String) :
    (inv.addFile path).Closed := by
  have hparents : (inv.addSegments (Path.split path).dropLast).Closed :=
    h.addSegments fun name hname =>
      Path.isSegment_of_mem_split ((List.dropLast_sublist _).subset hname)
  have hfolders := folders_addFile inv path
  constructor
  · intro file hfile
    rcases mem_files_addFile.mp hfile with ⟨hne, rfl⟩ | hold
    · exact Path.isCanonical_normalize hne
    · exact h.canonical_file hold
  · intro folder hfolder
    rw [hfolders] at hfolder
    exact hparents.canonical_folder hfolder
  · intro file hfile P hne hbelow
    rw [hfolders]
    rcases mem_files_addFile.mp hfile with ⟨-, rfl⟩ | hold
    · rw [Path.split_normalize] at hbelow
      have hbegins : P <+: (Path.split path).dropLast := (Path.prefix_dropLast_iff hne).mpr hbelow
      exact mem_folders_addSegments.mpr (.inl (mem_lineage_iff.mpr ⟨P, hne, hbegins, rfl⟩))
    · exact hparents.above_file hold hne hbelow
  · intro folder hfolder P hne hbegins
    rw [hfolders] at hfolder ⊢
    exact hparents.above_folder hfolder hne hbegins

/-- **Additions keep an inventory closed.** -/
theorem Closed.insert {inv : MemoryInventory} (h : inv.Closed) (a : Addition) :
    (inv.insert a).Closed := by
  cases a with
  | file path => exact h.addFile path
  | folder path => exact h.addSegments fun _ => Path.isSegment_of_mem_split

/-- **Every inventory that additions lead to is closed.** -/
theorem closed_ofAdditions (additions : List Addition) : (ofAdditions additions).Closed := by
  have hfold (inv : MemoryInventory) (h : inv.Closed) : (additions.foldl insert inv).Closed := by
    induction additions generalizing inv with
    | nil => exact h
    | cons a additions ih => exact ih (inv.insert a) (h.insert a)
  exact hfold empty closed_empty

/-! ## The queries -/

/-- **Below by text is below by segments**, for the canonical text of a path. -/
theorem isBelow_normalize_iff {path : String} (h : IsCanonical path) (folder : String) :
    isBelow (Path.normalize folder) path = true ↔
      IsBelow (Path.split folder) (Path.split path) := by
  have hsegments (text name : String) (hname : name ∈ Path.split text) : IsSegment name :=
    Path.isSegment_of_mem_split hname
  by_cases hnil : Path.split folder = []
  · have htext : Path.normalize folder = "" := by rw [Path.normalize, hnil, Path.join_nil]
    rw [htext, hnil]
    exact iff_of_true rfl ⟨_, h.split_ne_nil, rfl⟩
  · have htext : (Path.normalize folder).isEmpty = false := by
      rw [← Bool.not_eq_true, String.isEmpty_iff, Path.normalize,
        Path.join_eq_empty_iff (hsegments folder)]
      exact hnil
    rw [isBelow, htext, Bool.false_or, List.isPrefixOf_iff_prefix]
    have hiff := Path.slash_prefix_join_iff (hsegments folder) (hsegments path) hnil
    rw [h.join_split] at hiff
    exact hiff

variable {inv : MemoryInventory}

theorem folderExists_iff {path : String} :
    inv.folderExists path = true ↔ Path.normalize path ∈ inv.folders.toList :=
  PathSet.contains_iff

/-- The folders below a path. -/
theorem mem_foldersBelow_iff (h : inv.Closed) {path folder : String} :
    folder ∈ inv.foldersBelow path ↔
      folder ∈ inv.folders.toList ∧ IsBelow (Path.split path) (Path.split folder) := by
  rw [foldersBelow, List.mem_filter]
  exact and_congr_right fun hfolder => isBelow_normalize_iff (h.canonical_folder hfolder) path

/-- The folders directly below a path. -/
theorem mem_subfolders_iff (h : inv.Closed) {path folder : String} :
    folder ∈ inv.subfolders path ↔
      folder ∈ inv.folders.toList ∧ ∃ name, Path.split folder = Path.split path ++ [name] := by
  rw [subfolders, List.mem_filter]
  refine and_congr_right fun hfolder => ?_
  rw [Bool.and_eq_true, isBelow_normalize_iff (h.canonical_folder hfolder), beq_iff_eq, depth,
    depth]
  exact Path.isBelow_and_length_iff

/-- The files of a category below a path. -/
theorem mem_assets_iff (h : inv.Closed) {c : FileCategory} {within : Option String}
    {file : String} :
    file ∈ inv.assets c within ↔
      file ∈ inv.files.toList ∧ c.discovers file = true ∧
        IsBelow (Path.split (within.getD "")) (Path.split file) := by
  rw [assets, List.mem_filter]
  refine and_congr_right fun hfile => ?_
  rw [Bool.and_eq_true, isBelow_normalize_iff (h.canonical_file hfile), and_comm]

/-- Some file of the category lies strictly below the folder. -/
def HoldsAsset (inv : MemoryInventory) (c : FileCategory) (folder : String) : Prop :=
  ∃ file ∈ inv.files.toList, c.discovers file = true ∧
    IsBelow (Path.split folder) (Path.split file)

/-- A listing of the assets below a folder tells whether there are any. -/
theorem isEmpty_assets_iff (h : inv.Closed) {c : FileCategory} {folder : String} :
    (inv.assets c (some folder)).isEmpty = true ↔ ¬ inv.HoldsAsset c folder := by
  rw [List.isEmpty_iff, List.eq_nil_iff_forall_not_mem]
  constructor
  · rintro hnone ⟨file, hfile, hdiscovers, hbelow⟩
    exact hnone file ((mem_assets_iff h).mpr ⟨hfile, hdiscovers, hbelow⟩)
  · intro hnone file hfile
    have hheld := (mem_assets_iff h).mp hfile
    exact hnone ⟨file, hheld⟩

/-- Without a folder, all files of the category. -/
theorem assets_none (inv : MemoryInventory) (c : FileCategory) :
    inv.assets c none = inv.files.toList.filter c.discovers := by
  have hroot : Path.normalize ((none : Option String).getD "") = "" := rfl
  rw [assets, hroot]
  refine List.filter_congr fun file _ => ?_
  have hbelow : isBelow "" file = true := rfl
  rw [hbelow, Bool.true_and]

/-! ## What is stored -/

/-- The innermost folder that an addition brings with it, by its segments. -/
def Addition.innermost : Addition → List String
  | .file path => (Path.split path).dropLast
  | .folder path => Path.split path

/-- One more addition adds its innermost folder and the folders above it. -/
theorem mem_folders_insert_iff {inv : MemoryInventory} {a : Addition} {folder : String} :
    folder ∈ (inv.insert a).folders.toList ↔
      folder ∈ lineage a.innermost ∨ folder ∈ inv.folders.toList := by
  cases a with
  | file path =>
    rw [insert, folders_addFile]
    exact mem_folders_addSegments
  | folder path => exact mem_folders_addSegments

/-- **The stored folders** are those that some addition brings with it. -/
theorem mem_folders_ofAdditions_iff {additions : List Addition} {folder : String} :
    folder ∈ (ofAdditions additions).folders.toList ↔
      ∃ a ∈ additions, folder ∈ lineage a.innermost := by
  have hfold (inv : MemoryInventory) :
      folder ∈ (additions.foldl insert inv).folders.toList ↔
        (∃ a ∈ additions, folder ∈ lineage a.innermost) ∨ folder ∈ inv.folders.toList := by
    induction additions generalizing inv with
    | nil => simp
    | cons a additions ih =>
      rw [List.foldl_cons, ih, mem_folders_insert_iff]
      simp only [List.mem_cons, or_and_right, exists_or, exists_eq_left, or_assoc, or_left_comm]
  rw [ofAdditions, hfold]
  exact or_iff_left List.not_mem_nil

/-- **The stored files** are those that have been added, by their canonical texts. -/
theorem mem_files_ofAdditions_iff {additions : List Addition} {file : String} :
    file ∈ (ofAdditions additions).files.toList ↔
      ∃ path, .file path ∈ additions ∧ Path.split path ≠ [] ∧ file = Path.normalize path := by
  have hfold (inv : MemoryInventory) :
      file ∈ (additions.foldl insert inv).files.toList ↔
        (∃ path, .file path ∈ additions ∧ Path.split path ≠ [] ∧ file = Path.normalize path) ∨
          file ∈ inv.files.toList := by
    induction additions generalizing inv with
    | nil => simp
    | cons a additions ih =>
      rw [List.foldl_cons, ih]
      cases a with
      | file path =>
        rw [insert, mem_files_addFile]
        simp only [List.mem_cons, Addition.file.injEq, or_and_right, exists_or, exists_eq_left,
          or_assoc, or_left_comm]
      | folder path => simp [insert]
  rw [ofAdditions, hfold]
  exact or_iff_left List.not_mem_nil

end MemoryInventory
end AssetAudit
