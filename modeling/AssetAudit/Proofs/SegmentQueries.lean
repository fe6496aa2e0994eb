import AssetAudit.Proofs.ByteOrder
import AssetAudit.Proofs.StoredPaths

/-!
# Queries by segments

A query to an inventory in memory gives a path as a text, in any spelling, and the inventory
compares texts.  What it answers depends on the segments of the path only, and this file says how,
for every inventory that additions lead to.

* `folderExists_iff_exists_mem`: a folder exists if one with the same segments is stored.  The path
  without segments, of which everything is below, is no folder.
* `folderExists_of_isBelow_folder` and `folderExists_of_isBelow_file`: whatever has something stored
  below it exists, because folders are stored with all that lie above them.
* `answers_by_segments`: the answers to all queries together.  The listings are strictly ascending
  in the order of bytes, so the membership statements determine them.
-/

namespace AssetAudit

open AssetAudit.Path (IsBelow)

namespace MemoryInventory

variable {inv : MemoryInventory}

/-! ## Which folders exist -/

/-- **Folders exist by their segments.** -/
theorem folderExists_iff_exists_mem (h : inv.Closed) {path : String} :
    inv.folderExists path = true ↔
      Path.split path ≠ [] ∧
        ∃ folder ∈ inv.folders.toList, Path.split folder = Path.split path := by
  rw [folderExists_iff]
  constructor
  · intro hstored
    have hne := (h.canonical_folder hstored).split_ne_nil
    rw [Path.split_normalize] at hne
    exact ⟨hne, Path.normalize path, hstored, Path.split_normalize path⟩
  · rintro ⟨-, folder, hstored, hsplit⟩
    have htext : Path.normalize path = folder := by
      rw [← (h.canonical_folder hstored).normalize_eq]
      exact Path.normalize_eq_iff.mpr hsplit.symm
    rwa [htext]

/-- A path with a stored folder below it is that of a folder. -/
theorem folderExists_of_isBelow_folder (h : inv.Closed) {path folder : String}
    (hne : Path.split path ≠ []) (hstored : folder ∈ inv.folders.toList)
    (hbelow : IsBelow (Path.split path) (Path.split folder)) : inv.folderExists path = true := by
  obtain ⟨rest, -, hsplit⟩ := hbelow
  exact folderExists_iff.mpr (h.above_folder hstored hne ⟨rest, hsplit.symm⟩)

/-- A path with a stored file below it is that of a folder. -/
theorem folderExists_of_isBelow_file (h : inv.Closed) {path file : String}
    (hne : Path.split path ≠ []) (hstored : file ∈ inv.files.toList)
    (hbelow : IsBelow (Path.split path) (Path.split file)) : inv.folderExists path = true :=
  folderExists_iff.mpr (h.above_file hstored hne hbelow)

/-! ## Listings -/

/-- The folders directly below a path are those below it with one segment more. -/
theorem mem_subfolders_iff_length (h : inv.Closed) {path folder : String} :
    folder ∈ inv.subfolders path ↔
      folder ∈ inv.folders.toList ∧ IsBelow (Path.split path) (Path.split folder) ∧
        (Path.split folder).length = (Path.split path).length + 1 := by
  rw [mem_subfolders_iff h, Path.isBelow_and_length_iff]

/-- Without a scope, all files of a category are listed. -/
theorem mem_assets_none_iff {c : FileCategory} {file : String} :
    file ∈ inv.assets c none ↔ file ∈ inv.files.toList ∧ c.discovers file = true := by
  rw [assets_none, List.mem_filter]

/-- **A path with a listing is that of a folder.** -/
theorem folderExists_of_listing (h : inv.Closed) {path : String} (hne : Path.split path ≠ [])
    (hlisting : inv.foldersBelow path ≠ [] ∨ inv.subfolders path ≠ [] ∨
      ∃ c, inv.assets c (some path) ≠ []) : inv.folderExists path = true := by
  obtain hlisting | hlisting | ⟨c, hlisting⟩ := hlisting
  · obtain ⟨folder, hmem⟩ := List.exists_mem_of_ne_nil _ hlisting
    obtain ⟨hstored, hbelow⟩ := (mem_foldersBelow_iff h).mp hmem
    exact folderExists_of_isBelow_folder h hne hstored hbelow
  · obtain ⟨folder, hmem⟩ := List.exists_mem_of_ne_nil _ hlisting
    obtain ⟨hstored, hbelow, -⟩ := (mem_subfolders_iff_length h).mp hmem
    exact folderExists_of_isBelow_folder h hne hstored hbelow
  · obtain ⟨file, hmem⟩ := List.exists_mem_of_ne_nil _ hlisting
    obtain ⟨hstored, -, hbelow⟩ := (mem_assets_iff h).mp hmem
    exact folderExists_of_isBelow_file h hne hstored hbelow

/-- **What an inventory in memory answers.**  For every inventory that additions lead to and every
path:

* there is a folder of this path if it has segments and a stored folder has the same;
* the folders below it are the stored ones whose segments continue those of the path, and the
  folders directly below it are those of them with one segment more;
* the files of a category below it are the stored ones of the category whose segments continue those
  of the path, and without a path all stored ones of the category are listed;
* all listings are strictly ascending in the order of bytes;
* if the path has segments and any of its listings is not empty, then there is a folder of this
  path. -/
theorem answers_by_segments (additions : List Addition) (path : String) :
    let inv := ofAdditions additions
    (inv.folderExists path = true ↔
        Path.split path ≠ [] ∧
          ∃ folder ∈ inv.folders.toList, Path.split folder = Path.split path) ∧
      (∀ folder, folder ∈ inv.foldersBelow path ↔
        folder ∈ inv.folders.toList ∧ IsBelow (Path.split path) (Path.split folder)) ∧
      (∀ folder, folder ∈ inv.subfolders path ↔
        folder ∈ inv.folders.toList ∧ IsBelow (Path.split path) (Path.split folder) ∧
          (Path.split folder).length = (Path.split path).length + 1) ∧
      (∀ c file, file ∈ inv.assets c (some path) ↔
        file ∈ inv.files.toList ∧ c.discovers file = true ∧
          IsBelow (Path.split path) (Path.split file)) ∧
      (∀ c file, file ∈ inv.assets c none ↔
        file ∈ inv.files.toList ∧ c.discovers file = true) ∧
      ((inv.foldersBelow path).Pairwise (fun a b => utf8Bytes a < utf8Bytes b) ∧
        (inv.subfolders path).Pairwise (fun a b => utf8Bytes a < utf8Bytes b) ∧
        ∀ c within, (inv.assets c within).Pairwise fun a b => utf8Bytes a < utf8Bytes b) ∧
      (Path.split path ≠ [] →
        (inv.foldersBelow path ≠ [] ∨ inv.subfolders path ≠ [] ∨
          ∃ c, inv.assets c (some path) ≠ []) →
        inv.folderExists path = true) := by
  intro inv
  have hclosed : inv.Closed := closed_ofAdditions additions
  have hfolders := inv.folders.pairwise_utf8Bytes
  have hfiles := inv.files.pairwise_utf8Bytes
  exact ⟨folderExists_iff_exists_mem hclosed, fun _ => mem_foldersBelow_iff hclosed,
    fun _ => mem_subfolders_iff_length hclosed, fun _ _ => mem_assets_iff hclosed,
    fun _ _ => mem_assets_none_iff,
    ⟨hfolders.filter _, hfolders.filter _, fun _ _ => hfiles.filter _⟩,
    folderExists_of_listing hclosed⟩

/-- The folder `Prefabs` is not confused with its neighbour `PrefabsOld`, whatever slashes are
written. -/
theorem answers_by_segments_neighbour :
    let inv := ofAdditions
      [.file "Assets/Prefabs/Sword.prefab", .file "Assets/PrefabsOld/Axe.prefab",
        .folder "Assets/Prefabs/Shields"]
    Path.split "\\Assets//Prefabs\\" ≠ [] ∧ inv.subfolders "\\Assets//Prefabs\\" ≠ [] ∧
      inv.folderExists "\\Assets//Prefabs\\" = true ∧
      inv.subfolders "\\Assets//Prefabs\\" = ["Assets/Prefabs/Shields"] ∧
      inv.assets .prefab (some "\\Assets//Prefabs\\") = ["Assets/Prefabs/Sword.prefab"] := by
  intro inv
  have hne : Path.split "\\Assets//Prefabs\\" ≠ [] := by decide +kernel
  have hlisting : inv.subfolders "\\Assets//Prefabs\\" = ["Assets/Prefabs/Shields"] := by
    decide +kernel
  have hnonempty : inv.subfolders "\\Assets//Prefabs\\" ≠ [] := by
    rw [hlisting]
    exact List.cons_ne_nil _ _
  exact ⟨hne, hnonempty,
    (answers_by_segments _ "\\Assets//Prefabs\\").2.2.2.2.2.2 hne (.inr (.inl hnonempty)),
    hlisting, by decide +kernel⟩

end MemoryInventory
end AssetAudit
