import AssetAudit.Proofs.Segments
import AssetAudit.Violation
import Mathlib.Data.List.Basic
import Mathlib.Data.List.TakeWhile

/-!
# Paths as they are shown

A report shows a path as a folder and a name.  The folder begins at the first folder called
`Assets`, so the path may lose its beginning, but nothing else gets lost.

* `Path.fromAssets_of_notMem` and `Path.fromAssets_append_cons`: where the part that is shown
  begins.
* `Path.split_shown`: folder and name, with a slash between them, have the segments of this part.
  The same holds of what a violation shows (`Violation.split_fullPath`), which leaves the slash out
  if there is no folder.  So what is shown is an end of the path
  (`Violation.split_fullPath_of_shown`).
* `Path.texts_and_segments` puts together what texts of paths and their segments have to do with
  each other.  Every check compares texts, and its proof compares segments.
-/

namespace AssetAudit

namespace Path

/-! ## Where the shown part begins -/

/-- Without an `Assets` among them, all folders are shown. -/
theorem fromAssets_of_notMem {folders : List String} (h : assetsRoot ∉ folders) :
    fromAssets folders = folders := by
  have hnone : folders.dropWhile (· != assetsRoot) = [] := by
    refine List.dropWhile_eq_nil_iff.mpr fun folder hfolder => bne_iff_ne.mpr ?_
    rintro rfl
    exact h hfolder
  rw [fromAssets, hnone]

/-- The folders in front of the first `Assets` are left out. -/
theorem fromAssets_append_cons {before : List String} (h : assetsRoot ∉ before)
    (after : List String) :
    fromAssets (before ++ assetsRoot :: after) = assetsRoot :: after := by
  rw [fromAssets, dropWhile_ne_append_cons h]

/-- All folders of a path that begins at the assets are shown. -/
theorem fromAssets_dropLast_of_assets {segments : List String}
    (h : segments.head? = some assetsRoot) :
    fromAssets segments.dropLast = segments.dropLast := by
  obtain ⟨rest, rfl⟩ := List.head?_eq_some_iff.mp h
  cases rest with
  | nil => rfl
  | cons name rest => rw [List.dropLast_cons_cons, fromAssets_cons_assetsRoot]

/-- A path that begins in the middle of another one is an end of it. -/
theorem fromAssets_suffix (folders : List String) : fromAssets folders <:+ folders := by
  rw [fromAssets]
  split
  · exact List.suffix_rfl
  · exact List.dropWhile_suffix _

/-- A path consists of its folders and its name. -/
theorem dropLast_append_nameOf {segments : List String} (h : segments ≠ []) :
    segments.dropLast ++ [nameOf segments] = segments := by
  obtain ⟨folders, name, rfl⟩ := (List.eq_nil_or_concat' segments).resolve_left h
  rw [List.dropLast_concat, nameOf_append_singleton]

/-- What is shown is an end of the path. -/
theorem fromAssets_dropLast_suffix {segments : List String} (h : segments ≠ []) :
    fromAssets segments.dropLast ++ [nameOf segments] <:+ segments := by
  have hend : fromAssets segments.dropLast ++ [nameOf segments] <:+
      segments.dropLast ++ [nameOf segments] :=
    List.suffix_append_self_iff.mpr (fromAssets_suffix segments.dropLast)
  rwa [dropLast_append_nameOf h] at hend

/-- All of a path is shown if it begins at the assets, or if none of its folders are called
`Assets`. -/
theorem fromAssets_dropLast_append {segments : List String} (hne : segments ≠ [])
    (h : segments.head? = some assetsRoot ∨ assetsRoot ∉ segments.dropLast) :
    fromAssets segments.dropLast ++ [nameOf segments] = segments := by
  have hall : fromAssets segments.dropLast = segments.dropLast := by
    rcases h with hassets | hnone
    · exact fromAssets_dropLast_of_assets hassets
    · exact fromAssets_of_notMem hnone
  rw [hall, dropLast_append_nameOf hne]

/-! ## Folder and name together -/

/-- **What is shown of a path**, put together again, has the segments of its shown folders and its
name. -/
theorem split_shown {path : String} (h : split path ≠ []) :
    split (folderOf (split path) ++ "/" ++ nameOf (split path)) =
      fromAssets (split path).dropLast ++ [nameOf (split path)] := by
  have hshown : ∀ segment ∈ fromAssets (split path).dropLast ++ [nameOf (split path)],
      IsSegment segment := fun segment hsegment =>
    isSegment_of_mem_split ((fromAssets_dropLast_suffix h).subset hsegment)
  have hfolders : ∀ segment ∈ fromAssets (split path).dropLast, IsSegment segment :=
    fun segment hsegment => hshown segment (List.mem_append_left _ hsegment)
  have hname : IsSegment (nameOf (split path)) := hshown _ (by simp)
  rw [split_append_slash, folderOf, split_join hfolders, split_of_isSegment hname]

end Path

namespace Violation

variable {v : Violation} {path : String}

/-- **What a violation shows of a path** has the same segments, whether or not there is a folder. -/
theorem split_fullPath (h : Path.split path ≠ []) (hname : v.name = Path.nameOf (Path.split path))
    (hfolder : v.folder = Path.folderOf (Path.split path)) :
    Path.split v.fullPath =
      Path.fromAssets (Path.split path).dropLast ++ [Path.nameOf (Path.split path)] := by
  rw [← Path.split_shown h, ← hname, ← hfolder, fullPath]
  split
  · next hempty =>
    rw [String.isEmpty_iff.mp hempty, Path.split_append_slash, Path.split_empty, List.nil_append]
  · rfl

/-- A violation that shows a path by its folder and its name shows an end of it. -/
theorem split_fullPath_of_shown (hname : v.name = Path.nameOf (Path.split path))
    (hfolder : v.folder = Path.folderOf (Path.split path)) :
    Path.split v.fullPath <:+ Path.split path := by
  by_cases hnil : Path.split path = []
  · have hempty : v.fullPath = "" := by
      rw [fullPath, hname, hfolder, hnil]
      rfl
    rw [hempty, Path.split_empty]
    exact List.nil_suffix
  · rw [split_fullPath hnil hname hfolder]
    exact Path.fromAssets_dropLast_suffix hnil

end Violation

/-! ## Texts and segments -/

namespace Path

/-- A name that separators can stand around is not empty and holds no slash of either kind. -/
theorem isSegment_iff {name : String} :
    IsSegment name ↔ name ≠ "" ∧ '/' ∉ name.toList ∧ '\\' ∉ name.toList := by
  refine and_congr_right fun _ => ?_
  constructor
  · intro h
    refine ⟨fun hmem => ?_, fun hmem => ?_⟩
    · exact absurd (h _ hmem) (by decide)
    · exact absurd (h _ hmem) (by decide)
  · rintro ⟨hslash, hbackslash⟩ c hc
    rw [isSeparator, Bool.or_eq_false_iff, beq_eq_false_iff_ne, beq_eq_false_iff_ne]
    refine ⟨?_, ?_⟩
    · rintro rfl
      exact hslash hc
    · rintro rfl
      exact hbackslash hc

/-- **Texts of paths and their segments.**

* Segments are the names that are not empty and hold neither kind of slash.  A text is cut at every
  slash of either kind, and only there; what is cut off are segments.
* Cutting undoes joining.  The canonical text of a path has the same segments and is its own
  canonical text, and two paths have the same canonical text exactly if they have the same segments.
  A path below the assets has the segment `Assets` in front of its own.
* The folder and the name that are shown of a path, joined with a slash, have the last segments of
  the path: all of them if the path begins at `Assets` or none of its folders are called so, and
  otherwise those from the first folder called `Assets` on.  What a violation shows has the same
  segments. -/
theorem texts_and_segments :
    ((∀ name, IsSegment name ↔ name ≠ "" ∧ '/' ∉ name.toList ∧ '\\' ∉ name.toList) ∧
      (∀ path, ∀ name ∈ split path, IsSegment name) ∧
      (∀ name, IsSegment name → split name = [name]) ∧
      ∀ (c : Char) (front back : List Char), c = '/' ∨ c = '\\' →
        split (String.ofList (front ++ c :: back)) =
          split (String.ofList front) ++ split (String.ofList back)) ∧
    ((∀ segments : List String, (∀ name ∈ segments, IsSegment name) →
        split (join segments) = segments) ∧
      (∀ path, split (normalize path) = split path ∧
        normalize (normalize path) = normalize path ∧
        split (underAssets path) = "Assets" :: split path) ∧
      ∀ path path', normalize path = normalize path' ↔ split path = split path') ∧
    ∀ path, split path ≠ [] →
      let segments := split path
      let shown := split (folderOf segments ++ "/" ++ nameOf segments)
      shown <:+ segments ∧
        (segments.head? = some "Assets" ∨ "Assets" ∉ segments.dropLast → shown = segments) ∧
        (∀ before after, segments.dropLast = before ++ "Assets" :: after → "Assets" ∉ before →
          shown = "Assets" :: after ++ [nameOf segments]) ∧
        ∀ v : Violation, v.name = nameOf segments → v.folder = folderOf segments →
          split v.fullPath = shown := by
  refine ⟨⟨fun name => isSegment_iff, fun path name => isSegment_of_mem_split,
    fun name => split_of_isSegment, fun c front back hc => split_append_cons ?_ front back⟩,
    ⟨fun segments => split_join, fun path => ⟨split_normalize path, normalize_normalize path,
      split_underAssets path⟩, fun path path' => normalize_eq_iff⟩, fun path hne => ?_⟩
  · rcases hc with rfl | rfl
    · decide
    · decide
  · intro segments shown
    have hshown : shown = fromAssets segments.dropLast ++ [nameOf segments] := split_shown hne
    refine ⟨?_, fun h => ?_, fun before after hsplit hbefore => ?_, fun v hname hfolder => ?_⟩
    · rw [hshown]
      exact fromAssets_dropLast_suffix hne
    · rw [hshown]
      exact fromAssets_dropLast_append hne h
    · have hfrom : fromAssets segments.dropLast = "Assets" :: after := by
        rw [hsplit]
        exact fromAssets_append_cons hbefore after
      rw [hshown, hfrom]
    · rw [hshown]
      exact Violation.split_fullPath hne hname hfolder

/-- A project deep inside a file system, with a second folder called `Assets` in it. -/
theorem texts_and_segments_imported :
    let path := "C:\\Work//Game/Assets/Imported\\Assets/Hero.png"
    let asset := "Weapons/Shield.prefab"
    split path = ["C:", "Work", "Game", "Assets", "Imported", "Assets", "Hero.png"] ∧
      split (join (split path)) = split path ∧
      split (folderOf (split path) ++ "/" ++ nameOf (split path)) =
        ["Assets", "Imported", "Assets", "Hero.png"] ∧
      split (folderOf (split asset) ++ "/" ++ nameOf (split asset)) = split asset := by
  intro path asset
  have hpath : split path = ["C:", "Work", "Game", "Assets", "Imported", "Assets", "Hero.png"] := by
    decide +kernel
  have hasset : split asset = ["Weapons", "Shield.prefab"] := by decide +kernel
  obtain ⟨⟨-, hsegments, -⟩, ⟨hjoin, -⟩, hshown⟩ := texts_and_segments
  obtain ⟨-, -, hpart, -⟩ := hshown path (by simp [hpath])
  obtain ⟨-, hall, -⟩ := hshown asset (by simp [hasset])
  refine ⟨hpath, hjoin _ (hsegments path), ?_, hall (.inr (by rw [hasset]; decide))⟩
  rw [hpart ["C:", "Work", "Game"] ["Imported", "Assets"] (by rw [hpath]; rfl) (by decide), hpath]
  rfl

end Path
end AssetAudit
