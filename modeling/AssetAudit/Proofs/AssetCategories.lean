import AssetAudit.Inventory.Disk
import AssetAudit.Inventory.Memory
import AssetAudit.Proofs.Segments
import AssetAudit.Proofs.SmallLetters

/-!
# A file has one category

Which category a file belongs to is read off its extension.  This file says what an extension is,
for paths with any characters, and that no two categories share one.

* `FileCategory.HasExtension` cuts the last segment of a path at its last dot.
  `FileCategory.extension?` finds the cut (`FileCategory.extension?_eq_some_iff`), and there is one
  cut at most (`append_cons_inj_of_notMem_right`).
* No table of extensions holds a letter beyond ASCII, or a `k`.  So an extension is looked up in
  small letters with the same outcome whichever small forms are taken, and as if only its ASCII
  letters had been made small (`FileCategory.mem_extensions_iff_of_lowersTo`).
* `FileCategory.discovers_iff`: a category discovers the files that have one of its extensions.  The
  eight tables have nothing in common (`FileCategory.eq_of_mem_extensions`), so a file is discovered
  by one category at most.
* Inventories in memory and inventories of file trees list as assets of a category what the category
  discovers (`MemoryInventory.discovers_of_mem_assets`, `FileTree.discovers_of_mem_assets`), so
  their listings have nothing in common either.
-/

namespace AssetAudit

/-- A list is cut at the last occurrence of an entry in one way only. -/
theorem append_cons_inj_of_notMem_right {α : Type} [DecidableEq α] {a : α} {l l' r r' : List α}
    (hr : a ∉ r) (hr' : a ∉ r') (h : l ++ a :: r = l' ++ a :: r') : l = l' ∧ r = r' := by
  have hreversed : r.reverse ++ a :: l.reverse = r'.reverse ++ a :: l'.reverse := by
    simpa using congrArg List.reverse h
  have hmem : a ∉ r.reverse := by simpa using hr
  have hmem' : a ∉ r'.reverse := by simpa using hr'
  have hrest : r.reverse = r'.reverse := by
    rw [← takeWhile_ne_append_cons hmem l.reverse, hreversed, takeWhile_ne_append_cons hmem']
  rw [hrest, List.append_cancel_left_eq, List.cons.injEq] at hreversed
  exact ⟨List.reverse_inj.mp hreversed.2, List.reverse_inj.mp hrest⟩

namespace Path

/-- What a path text ends with ends its last segment, if no separator is in it. -/
theorem exists_nameOf_split_append {tail : String} (htail : IsSegment tail) (front : String) :
    ∃ start, nameOf (split (front ++ tail)) = start ++ tail := by
  obtain ⟨start, rest, hfront, hstart, hrest⟩ :=
    exists_cut (fun c => !isSeparator c) front.toList.reverse
  have hpath : front ++ tail = String.ofList (rest.reverse ++ (start.reverse ++ tail.toList)) := by
    rw [← List.append_assoc, ← List.reverse_append, ← hfront, List.reverse_reverse,
      String.ofList_append, String.ofList_toList, String.ofList_toList]
  have hname : IsSegment (String.ofList (start.reverse ++ tail.toList)) := by
    constructor
    · simpa using fun _ => htail.1
    · intro c hc
      rw [String.toList_ofList, List.mem_append, List.mem_reverse] at hc
      rcases hc with hc | hc
      · simpa using hstart c hc
      · exact htail.2 c hc
  refine ⟨String.ofList start.reverse, ?_⟩
  rw [hpath]
  cases rest with
  | nil =>
    rw [List.reverse_nil, List.nil_append, split_of_isSegment hname]
    simp [nameOf]
  | cons c rest =>
    have hc : isSeparator c = true := by simpa using hrest c rfl
    rw [List.reverse_cons, List.append_assoc, List.singleton_append, split_append_cons hc,
      split_of_isSegment hname, nameOf_append_singleton]
    simp

end Path

namespace FileCategory

/-! ## Extensions -/

/-- The last segment of the path consists of a stem, a dot and an extension without dots. -/
structure HasExtension (path stem extension : String) : Prop where
  nameOf_eq : Path.nameOf (Path.split path) = stem ++ "." ++ extension
  stem_ne_empty : stem ≠ ""
  dot_notMem : '.' ∉ extension.toList

/-- The extension of a path. -/
def extension? (path : String) : Option String :=
  (stemAndExtension? (Path.nameOf (Path.split path)).toList).map fun cut => String.ofList cut.2

/-- A name is cut at its last dot, unless nothing stands in front of it. -/
theorem stemAndExtension?_eq_some_iff {name stem extension : List Char} :
    stemAndExtension? name = some (stem, extension) ↔
      name = stem ++ '.' :: extension ∧ stem ≠ [] ∧ '.' ∉ extension := by
  constructor
  · intro h
    have hname :
        name.reverse =
          name.reverse.takeWhile (· != '.') ++ name.reverse.dropWhile (· != '.') :=
      List.takeWhile_append_dropWhile.symm
    have hbefore : '.' ∉ name.reverse.takeWhile (· != '.') := fun hmem =>
      absurd (List.all_eq_true.mp List.all_takeWhile '.' hmem) (by simp)
    have hhead := List.head?_dropWhile_not (· != '.') name.reverse
    unfold stemAndExtension? at h
    dsimp only at h
    split at h
    · cases h
    · cases h
    · next d reversed hreversed hdrop =>
      rw [Option.some.injEq, Prod.mk.injEq] at h
      obtain ⟨rfl, rfl⟩ := h
      rw [hdrop] at hname hhead
      obtain rfl : d = '.' := by simpa using hhead
      have hcut := congrArg List.reverse hname
      exact ⟨by simpa using hcut, by simpa using hreversed, by simpa using hbefore⟩
  · rintro ⟨rfl, hne, hdot⟩
    have hreversed :
        (stem ++ '.' :: extension).reverse = extension.reverse ++ '.' :: stem.reverse := by
      simp
    have hmem : '.' ∉ extension.reverse := by simpa using hdot
    have hne' : stem.reverse ≠ [] := by simpa using hne
    unfold stemAndExtension?
    dsimp only
    rw [hreversed, dropWhile_ne_append_cons hmem, takeWhile_ne_append_cons hmem]
    split
    · next h => cases h
    · next h => exact absurd (List.cons.inj h).2 hne'
    · next h =>
      rw [← (List.cons.inj h).2, List.reverse_reverse, List.reverse_reverse]

/-- **What the extension of a path is.** -/
theorem extension?_eq_some_iff {path extension : String} :
    extension? path = some extension ↔ ∃ stem, HasExtension path stem extension := by
  rw [extension?, Option.map_eq_some_iff]
  constructor
  · rintro ⟨⟨stem, extension⟩, hcut, rfl⟩
    obtain ⟨hname, hne, hdot⟩ := stemAndExtension?_eq_some_iff.mp hcut
    refine ⟨String.ofList stem, ⟨?_, by simpa using hne, by simpa using hdot⟩⟩
    rw [← String.toList_inj, hname]
    simp
  · rintro ⟨stem, hname, hne, hdot⟩
    refine ⟨(stem.toList, extension.toList), ?_, String.ofList_toList⟩
    refine stemAndExtension?_eq_some_iff.mpr ⟨?_, by simpa using hne, hdot⟩
    rw [hname]
    simp

/-! ## Which category a file belongs to -/

/-- The tables hold ASCII words in small letters, and no `k`. -/
theorem isAsciiWithoutK_of_mem_extensions {c : FileCategory} {known : String}
    (h : known ∈ c.extensions) :
    IsAsciiWithoutK known.toList ∧ known.toList.map Char.toLower = known.toList := by
  have htable : ∀ c ∈ all, ∀ known ∈ c.extensions,
      IsAsciiWithoutK known.toList ∧ known.toList.map Char.toLower = known.toList := by
    decide +kernel
  exact htable c (mem_all c) known h

/-- **The tables have nothing in common.** -/
theorem eq_of_mem_extensions {c c' : FileCategory} {known : String} (h : known ∈ c.extensions)
    (h' : known ∈ c'.extensions) : c = c' := by
  have htable : ∀ c ∈ all, ∀ c' ∈ all, ∀ known ∈ c.extensions, known ∈ c'.extensions → c = c' := by
    decide +kernel
  exact htable c (mem_all c) c' (mem_all c') known h h'

variable {c c' : FileCategory} {path stem extension : String}

/-- **Small letters of other scripts make no difference**: whichever small form of an extension is
looked up, it is found exactly if the extension is in the table up to capital and small ASCII
letters. -/
theorem mem_extensions_iff_of_lowersTo {lowered : String}
    (h : LowersTo extension.toList lowered.toList) :
    lowered ∈ c.extensions ↔ ∃ known ∈ c.extensions, EqIgnoringCase extension known := by
  have hword {known : String} (hknown : known ∈ c.extensions) :
      lowered = known ↔ EqIgnoringCase extension known := by
    obtain ⟨hascii, hsmall⟩ := isAsciiWithoutK_of_mem_extensions hknown
    rw [EqIgnoringCase, hsmall, ← h.eq_iff hascii, String.toList_inj]
  constructor
  · intro hmem
    exact ⟨lowered, hmem, (hword hmem).mp rfl⟩
  · rintro ⟨known, hknown, heq⟩
    rwa [(hword hknown).mpr heq]

theorem discovers_iff_extension? : c.discovers path = true ↔
    ∃ extension, extension? path = some extension ∧ lowercase extension ∈ c.extensions := by
  rw [discovers, extension?]
  cases stemAndExtension? (Path.nameOf (Path.split path)).toList with
  | none => simp
  | some cut => simp

/-- **A file belongs to a category by its extension**, in capital or small ASCII letters. -/
theorem discovers_iff :
    c.discovers path = true ↔
      ∃ stem extension, HasExtension path stem extension ∧
        ∃ known ∈ c.extensions, EqIgnoringCase extension known := by
  rw [discovers_iff_extension?]
  constructor
  · rintro ⟨extension, hextension, hmem⟩
    obtain ⟨stem, hcut⟩ := extension?_eq_some_iff.mp hextension
    exact ⟨stem, extension, hcut, (mem_extensions_iff_of_lowersTo (lowersTo_lowercase _)).mp hmem⟩
  · rintro ⟨stem, extension, hcut, hknown⟩
    exact ⟨extension, extension?_eq_some_iff.mpr ⟨stem, hcut⟩,
      (mem_extensions_iff_of_lowersTo (lowersTo_lowercase _)).mpr hknown⟩

/-- No file belongs to two categories. -/
theorem eq_of_discovers (h : c.discovers path = true) (h' : c'.discovers path = true) : c = c' := by
  obtain ⟨extension, hextension, hmem⟩ := discovers_iff_extension?.mp h
  obtain ⟨extension', hextension', hmem'⟩ := discovers_iff_extension?.mp h'
  obtain rfl : extension = extension' := Option.some.inj (hextension.symm.trans hextension')
  exact eq_of_mem_extensions hmem hmem'

/-- Only the last segment of a path counts. -/
theorem discovers_congr {path' : String}
    (h : (Path.split path).getLast? = (Path.split path').getLast?) :
    c.discovers path = c.discovers path' := by
  have hname : Path.nameOf (Path.split path) = Path.nameOf (Path.split path') := by
    rw [Path.nameOf, Path.nameOf, h]
  rw [discovers, discovers, hname]

/-- The extension that a path has decides, in whichever small form. -/
theorem HasExtension.discovers_iff_of_lowersTo (h : HasExtension path stem extension)
    {lowered : String} (hlowered : LowersTo extension.toList lowered.toList) :
    c.discovers path = true ↔ lowered ∈ c.extensions := by
  have hextension := extension?_eq_some_iff.mpr ⟨stem, h⟩
  rw [mem_extensions_iff_of_lowersTo hlowered,
    ← mem_extensions_iff_of_lowersTo (lowersTo_lowercase extension), discovers_iff_extension?,
    hextension]
  simp only [Option.some.injEq, exists_eq_left']

/-- **Sidecar files are no assets.** -/
theorem discovers_append_meta (front : String) : c.discovers (front ++ ".meta") = false := by
  rw [← Bool.not_eq_true, FileCategory.discovers_iff]
  rintro ⟨stem, extension, ⟨hname, -, hdot⟩, known, hknown, heq⟩
  have hsegment : Path.IsSegment ".meta" := by decide
  obtain ⟨start, hstart⟩ := Path.exists_nameOf_split_append hsegment front
  have hcut : start.toList ++ '.' :: "meta".toList = stem.toList ++ '.' :: extension.toList := by
    have htexts := congrArg String.toList (hstart.symm.trans hname)
    simpa using htexts
  obtain ⟨-, hextension⟩ := append_cons_inj_of_notMem_right (by decide) hdot hcut
  rw [EqIgnoringCase, ← hextension] at heq
  have htable : ∀ c ∈ all, ∀ known ∈ c.extensions,
      "meta".toList.map Char.toLower ≠ known.toList.map Char.toLower := by decide +kernel
  exact htable c (mem_all c) known hknown heq

end FileCategory

/-! ## Listings -/

/-- An inventory in memory lists what the category discovers. -/
theorem MemoryInventory.discovers_of_mem_assets {inv : MemoryInventory} {c : FileCategory}
    {within : Option String} {file : String} (h : file ∈ inv.assets c within) :
    c.discovers file = true := by
  have hfile := (List.mem_filter.mp h).2
  rw [Bool.and_eq_true] at hfile
  exact hfile.2

/-- The inventory of a file tree lists what the category discovers. -/
theorem FileTree.discovers_of_mem_assets {tree : FileTree} {root : String} {c : FileCategory}
    {within : Option String} {file : String} (h : file ∈ (tree.inventory root).assets c within) :
    c.discovers file = true := by
  obtain ⟨start, -, hfile⟩ := List.mem_flatMap.mp (List.mem_mergeSort.mp h)
  exact (List.mem_filter.mp hfile).2

/-- The listings of the eight categories have no file in common, and no sidecar file is in any. -/
structure PartsFiles (listing : FileCategory → List String) : Prop where
  disjoint : ∀ c c', c ≠ c' → ∀ file ∈ listing c, file ∉ listing c'
  append_meta_notMem : ∀ c front, front ++ ".meta" ∉ listing c

theorem partsFiles_of_discovers {listing : FileCategory → List String}
    (h : ∀ c, ∀ file ∈ listing c, c.discovers file = true) : PartsFiles listing where
  disjoint c c' hne file hfile hfile' :=
    hne (FileCategory.eq_of_discovers (h c file hfile) (h c' file hfile'))
  append_meta_notMem c front hmem := by
    have hdiscovers := h c _ hmem
    rw [FileCategory.discovers_append_meta] at hdiscovers
    cases hdiscovers

/-- **A file has one category at most.**

* No path is discovered by two categories, and whether a category discovers a path depends on its
  last segment only.
* A category discovers a path exactly if the last segment consists of a nonempty stem, a dot and an
  extension without dots that is one of its extensions, up to capital and small ASCII letters.
* Every extension has small forms in Unicode, and whichever of them is looked up in the table of the
  category, the outcome is the same.
* In every inventory in memory and in every project of a file tree, the listings of the eight
  categories below a folder, or in all of the project, have no file in common, and no file that ends
  in `.meta` is in any of them. -/
theorem file_has_one_category :
    (∀ (path : String) (c c' : FileCategory),
        c.discovers path = true → c'.discovers path = true → c = c') ∧
      (∀ (c : FileCategory) (path path' : String),
        (Path.split path).getLast? = (Path.split path').getLast? →
          c.discovers path = c.discovers path') ∧
      (∀ (c : FileCategory) (path : String), c.discovers path = true ↔
        ∃ stem extension, FileCategory.HasExtension path stem extension ∧
          ∃ known ∈ c.extensions, EqIgnoringCase extension known) ∧
      (∀ (path stem extension : String), FileCategory.HasExtension path stem extension →
        (∃ lowered : String, LowersTo extension.toList lowered.toList) ∧
          ∀ lowered : String, LowersTo extension.toList lowered.toList →
            ∀ c : FileCategory, c.discovers path = true ↔ lowered ∈ c.extensions) ∧
      (∀ (inv : MemoryInventory) (within : Option String),
        PartsFiles fun c => inv.assets c within) ∧
      ∀ (tree : FileTree) (root : String) (within : Option String),
        PartsFiles fun c => (tree.inventory root).assets c within := by
  refine ⟨fun _ _ _ => FileCategory.eq_of_discovers, fun _ _ _ => FileCategory.discovers_congr,
    fun _ _ => FileCategory.discovers_iff, fun path stem extension h => ⟨?_, ?_⟩,
    fun inv within => ?_, fun tree root within => ?_⟩
  · exact ⟨lowercase extension, lowersTo_lowercase extension⟩
  · exact fun lowered hlowered c => h.discovers_iff_of_lowersTo hlowered
  · exact partsFiles_of_discovers fun c file => MemoryInventory.discovers_of_mem_assets
  · exact partsFiles_of_discovers fun c file => FileTree.discovers_of_mem_assets

/-- A name with three dots, the last of them in front of capital letters. -/
theorem file_has_one_category_capital_letters :
    let path := "Assets\\Art/.hero.v2.PNG"
    FileCategory.HasExtension path ".hero.v2" "PNG" ∧
      LowersTo "PNG".toList "png".toList ∧ FileCategory.texture.discovers path = true ∧
      (∀ c : FileCategory, c.discovers path = true → c = .texture) ∧
      FileCategory.texture.discovers ".hero.v2.PNG" = true := by
  intro path
  have hextension : FileCategory.HasExtension path ".hero.v2" "PNG" :=
    ⟨by decide +kernel, by decide, by decide⟩
  have hascii : ∀ c ∈ "PNG".toList, c.toNat < 0x80 := by simp
  have hlowered : LowersTo "PNG".toList "png".toList := lowersTo_map_toLower hascii
  obtain ⟨hunique, hlast, -, hforms, -⟩ := file_has_one_category
  have htexture : FileCategory.texture.discovers path = true :=
    ((hforms path _ _ hextension).2 _ hlowered .texture).mpr (by decide)
  have hname := hlast .texture ".hero.v2.PNG" path (by decide +kernel)
  exact ⟨hextension, hlowered, htexture, fun c hc => hunique path c .texture hc htexture,
    hname.trans htexture⟩

end AssetAudit
