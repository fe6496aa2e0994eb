import AssetAudit.Proofs.StoredPaths
import AssetAudit.Scan.Auditor

/-!
# Inventories do not remember how they were filled

Files and folders are added to an inventory one after the other, under any text, and every addition
brings the folders above it with it.  This file shows what can be found out about an inventory
afterwards: which files and folders have been added, and nothing about the order, the repetitions or
the spelling.

* `mem_folders_ofAdditions_iff_below` says which folders are stored without speaking of how they got
  there: the nonempty beginnings of added folders, and those of added files that leave a rest.
* `MemoryInventory.named` lists what a sequence of additions names, in canonical spelling.  The
  stored files and folders depend on the members of this list only
  (`mem_files_ofAdditions_iff_named`, `mem_folders_ofAdditions_iff_named`).
* `ext_mem`: an inventory is its members, because path sets are.  So two sequences that name the
  same files and folders lead to one inventory (`ofAdditions_eq_of_addsSame`), and everything that
  is asked of it has one answer.
-/

namespace AssetAudit

open AssetAudit.Path (IsBelow IsCanonical)

namespace MemoryInventory

/-- Inventories with the same members are equal. -/
theorem ext_mem {inv other : MemoryInventory}
    (hfiles : ∀ file, file ∈ inv.files.toList ↔ file ∈ other.files.toList)
    (hfolders : ∀ folder, folder ∈ inv.folders.toList ↔ folder ∈ other.folders.toList) :
    inv = other := by
  obtain ⟨files, folders⟩ := inv
  obtain ⟨files', folders'⟩ := other
  have heqFiles : files = files' := PathSet.ext_mem hfiles
  have heqFolders : folders = folders' := PathSet.ext_mem hfolders
  rw [heqFiles, heqFolders]

/-! ## Which folders are stored -/

/-- **The stored folders** are the added ones with all folders above them, and the folders above the
added files. -/
theorem mem_folders_ofAdditions_iff_below {additions : List Addition} {folder : String} :
    folder ∈ (ofAdditions additions).folders.toList ↔
      ∃ P, P ≠ [] ∧ folder = Path.join P ∧
        ((∃ path, .folder path ∈ additions ∧ P <+: Path.split path) ∨
          ∃ path, .file path ∈ additions ∧ IsBelow P (Path.split path)) := by
  rw [mem_folders_ofAdditions_iff]
  constructor
  · rintro ⟨a, ha, hlineage⟩
    obtain ⟨P, hne, hbegins, rfl⟩ := mem_lineage_iff.mp hlineage
    refine ⟨P, hne, rfl, ?_⟩
    cases a with
    | file path => exact .inr ⟨path, ha, (Path.prefix_dropLast_iff hne).mp hbegins⟩
    | folder path => exact .inl ⟨path, ha, hbegins⟩
  · rintro ⟨P, hne, rfl, ⟨path, ha, hbegins⟩ | ⟨path, ha, hbelow⟩⟩
    · exact ⟨_, ha, mem_lineage_iff.mpr ⟨P, hne, hbegins, rfl⟩⟩
    · exact ⟨_, ha, mem_lineage_iff.mpr ⟨P, hne, (Path.prefix_dropLast_iff hne).mpr hbelow, rfl⟩⟩

/-! ## What additions name -/

/-- The segments of the text of an addition. -/
def Addition.segments : Addition → List String
  | .file path | .folder path => Path.split path

/-- The addition with the canonical text. -/
def Addition.normalize : Addition → Addition
  | .file path => .file (Path.normalize path)
  | .folder path => .folder (Path.normalize path)

/-- What a sequence of additions names, in canonical spelling.  A text without segments names
nothing. -/
def named (additions : List Addition) : List Addition :=
  (additions.filter fun a => !a.segments.isEmpty).map Addition.normalize

/-- Two sequences add the same files and the same folders: in whatever order, however often, and
however the separators are written. -/
def AddsSame (additions others : List Addition) : Prop :=
  (∀ a ∈ named additions, a ∈ named others) ∧ ∀ a ∈ named others, a ∈ named additions

instance (additions others : List Addition) : Decidable (AddsSame additions others) :=
  inferInstanceAs (Decidable (_ ∧ _))

theorem mem_named_iff {additions : List Addition} {a : Addition} :
    a ∈ named additions ↔ ∃ b ∈ additions, b.segments ≠ [] ∧ b.normalize = a := by
  rw [named, List.mem_map]
  simp only [List.mem_filter, Bool.not_eq_true', List.isEmpty_eq_false_iff, and_assoc]

/-- The spelling of an addition makes no difference to the folder that it brings with it. -/
theorem Addition.innermost_normalize (a : Addition) : a.normalize.innermost = a.innermost := by
  cases a with
  | file path => exact congrArg List.dropLast (Path.split_normalize path)
  | folder path => exact Path.split_normalize path

/-- An addition without segments brings no folder with it. -/
theorem Addition.innermost_of_segments_eq_nil {a : Addition} (h : a.segments = []) :
    a.innermost = [] := by
  cases a with
  | file path => exact congrArg List.dropLast h
  | folder path => exact h

/-- The stored files are the named ones. -/
theorem mem_files_ofAdditions_iff_named {additions : List Addition} {file : String} :
    file ∈ (ofAdditions additions).files.toList ↔ .file file ∈ named additions := by
  rw [mem_files_ofAdditions_iff, mem_named_iff]
  constructor
  · rintro ⟨path, ha, hne, rfl⟩
    exact ⟨.file path, ha, hne, rfl⟩
  · rintro ⟨b, hb, hne, hnormalize⟩
    cases b with
    | file path => exact ⟨path, hb, hne, (Addition.file.inj hnormalize).symm⟩
    | folder path => cases hnormalize

/-- The stored folders are those that a named addition brings with it. -/
theorem mem_folders_ofAdditions_iff_named {additions : List Addition} {folder : String} :
    folder ∈ (ofAdditions additions).folders.toList ↔
      ∃ a ∈ named additions, folder ∈ lineage a.innermost := by
  rw [mem_folders_ofAdditions_iff]
  constructor
  · rintro ⟨a, ha, hfolder⟩
    have hne : a.segments ≠ [] := by
      intro hnil
      rw [a.innermost_of_segments_eq_nil hnil] at hfolder
      cases hfolder
    refine ⟨a.normalize, mem_named_iff.mpr ⟨a, ha, hne, rfl⟩, ?_⟩
    rwa [a.innermost_normalize]
  · rintro ⟨b, hnamed, hfolder⟩
    obtain ⟨a, ha, -, rfl⟩ := mem_named_iff.mp hnamed
    rw [a.innermost_normalize] at hfolder
    exact ⟨a, ha, hfolder⟩

/-- **The order of additions does not matter**, nor do repetitions and spellings. -/
theorem ofAdditions_eq_of_addsSame {additions others : List Addition}
    (h : AddsSame additions others) : ofAdditions additions = ofAdditions others := by
  have hnamed (a : Addition) : a ∈ named additions ↔ a ∈ named others := ⟨h.1 a, h.2 a⟩
  refine ext_mem (fun file => ?_) (fun folder => ?_)
  · rw [mem_files_ofAdditions_iff_named, mem_files_ofAdditions_iff_named, hnamed]
  · simp only [mem_folders_ofAdditions_iff_named, hnamed]

/-- **What an inventory stores.**  After any sequence of additions, under any texts,

* every stored file and every stored folder is a canonical text with at least one segment;
* the folders above a stored folder and those above a stored file are stored;
* a folder is stored exactly if it is an added folder or lies above one, or lies above an added
  file, and a file exactly if it has been added;
* every sequence of additions that adds the same files and the same folders, in whatever order,
  however often and however spelled, leads to an equal inventory, which every auditor scans with the
  same result. -/
theorem ofAdditions_stores_what_is_named (additions : List Addition) :
    let inv := ofAdditions additions
    ((∀ file ∈ inv.files.toList, IsCanonical file) ∧
        ∀ folder ∈ inv.folders.toList, IsCanonical folder) ∧
      (∀ P, P ≠ [] →
        (∃ folder ∈ inv.folders.toList, IsBelow P (Path.split folder)) ∨
          (∃ file ∈ inv.files.toList, IsBelow P (Path.split file)) →
        Path.join P ∈ inv.folders.toList) ∧
      (∀ folder, folder ∈ inv.folders.toList ↔
        ∃ P, P ≠ [] ∧ folder = Path.join P ∧
          ((∃ path, .folder path ∈ additions ∧ P <+: Path.split path) ∨
            ∃ path, .file path ∈ additions ∧ IsBelow P (Path.split path))) ∧
      (∀ file, file ∈ inv.files.toList ↔
        ∃ path, .file path ∈ additions ∧ Path.split path ≠ [] ∧ file = Path.normalize path) ∧
      ∀ others, AddsSame additions others →
        inv = ofAdditions others ∧
          ∀ auditor : Auditor,
            auditor.scan inv.toInventory = auditor.scan (ofAdditions others).toInventory := by
  intro inv
  have hclosed : inv.Closed := closed_ofAdditions additions
  refine ⟨⟨fun _ => hclosed.canonical_file, fun _ => hclosed.canonical_folder⟩, ?_,
    fun _ => mem_folders_ofAdditions_iff_below, fun _ => mem_files_ofAdditions_iff, ?_⟩
  · rintro P hne (⟨folder, hfolder, rest, -, hsplit⟩ | ⟨file, hfile, hbelow⟩)
    · exact hclosed.above_folder hfolder hne ⟨rest, hsplit.symm⟩
    · exact hclosed.above_file hfile hne hbelow
  · intro others hsame
    have heq : inv = ofAdditions others := ofAdditions_eq_of_addsSame hsame
    exact ⟨heq, fun auditor => by rw [heq]⟩

/-- Three spellings of one file, in two sequences with different beginnings. -/
theorem ofAdditions_stores_what_is_named_three_spellings :
    let additions : List Addition :=
      [.file "Assets\\Units//Orc.prefab", .folder "//", .folder "Assets/Art/"]
    let others : List Addition :=
      [.folder "\\Assets\\Art", .file "/Assets/Units/Orc.prefab", .file "Assets/Units/Orc.prefab/"]
    AddsSame additions others ∧
      (ofAdditions additions).folders.toList = ["Assets", "Assets/Art", "Assets/Units"] ∧
      (∃ file ∈ (ofAdditions additions).files.toList,
        IsBelow ["Assets", "Units"] (Path.split file)) ∧
      Path.join ["Assets", "Units"] ∈ (ofAdditions additions).folders.toList ∧
      ofAdditions additions = ofAdditions others := by
  intro additions others
  have hsame : AddsSame additions others := by decide +kernel
  have hbelow : ∃ file ∈ (ofAdditions additions).files.toList,
      IsBelow ["Assets", "Units"] (Path.split file) := by decide +kernel
  have hstored := ofAdditions_stores_what_is_named additions
  exact ⟨hsame, by decide +kernel, hbelow, hstored.2.1 _ (List.cons_ne_nil _ _) (.inr hbelow),
    (hstored.2.2.2.2 others hsame).1⟩

end MemoryInventory
end AssetAudit
