import AssetAudit.Proofs.StoredPaths
import AssetAudit.Proofs.TreeWalks

/-!
# Listed folders lead back into the inventory

A condition rule asks an inventory for the folders in a folder and asks on with what it gets:
whether a listed folder exists, what lies in it.  So a listing has to lead back into the inventory
that made it (`Inventory.LeadsBack`): every listed folder exists, and the folders below a path are
its subfolders and what is listed below each of these.

## In memory

What is stored is closed upwards, and a stored text is the text of its segments.  So every listing
leads back, for every path and whatever has been added (`MemoryInventory.leadsBack`).

## On disk

A listing shows names that the file system knows, joined with slashes, and a question cuts a text at
slashes and backslashes.  The two fit together as long as what is shown is plain
(`FileTree.IsPlainText`): it holds no backslash, and no replacement for bytes that are no text.
`FileTree.Finds` says what a search comes across; through plain texts it leads down from folder to
folder (`FileTree.Finds.of_cons`) and back up (`FileTree.Finds.cons`).

A search sees what lies in a folder that it may read, and a question is answered in a folder that it
may enter, by a text that is not too long.  `FileTree.Finds.folderExists_iff` says that nothing else
decides whether a listed folder with a plain text is found again, and
`FileTree.listings_lead_astray` shows that all of it is needed.
-/

namespace AssetAudit

open AssetAudit.Path (IsSegment IsBelow)

namespace Inventory

/-- What the inventory lists below a path leads back into it: every listed folder exists, and the
folders below the path are its subfolders and what is listed below each of these. -/
structure LeadsBack (inventory : Inventory) (path : String) : Prop where
  subfolder_exists : ∀ folder ∈ inventory.subfolders path, inventory.folderExists folder = true
  below_exists : ∀ folder ∈ inventory.foldersBelow path, inventory.folderExists folder = true
  mem_foldersBelow_iff : ∀ folder, folder ∈ inventory.foldersBelow path ↔
    ∃ child ∈ inventory.subfolders path, folder = child ∨ folder ∈ inventory.foldersBelow child

end Inventory

/-! ## Listings in memory -/

namespace MemoryInventory

variable {inv : MemoryInventory}

/-- A stored folder exists. -/
theorem folderExists_of_mem (h : inv.Closed) {folder : String}
    (hstored : folder ∈ inv.folders.toList) : inv.folderExists folder = true := by
  rw [folderExists_iff, (h.canonical_folder hstored).normalize_eq]
  exact hstored

/-- The folder through which a path leads down to a stored folder is stored. -/
theorem exists_subfolder_of_isBelow (h : inv.Closed) {path folder : String}
    (hstored : folder ∈ inv.folders.toList)
    (hbelow : IsBelow (Path.split path) (Path.split folder)) :
    ∃ child ∈ inv.subfolders path, folder = child ∨ folder ∈ inv.foldersBelow child := by
  obtain ⟨rest, hrest, hsplit⟩ := hbelow
  obtain ⟨name, rest, rfl⟩ := List.exists_cons_of_ne_nil hrest
  have hbegins : Path.split path ++ [name] <+: Path.split folder :=
    ⟨rest, by rw [hsplit, List.append_assoc, List.singleton_append]⟩
  have hsegments : ∀ segment ∈ Path.split path ++ [name], IsSegment segment := by
    intro segment hsegment
    exact Path.isSegment_of_mem_split (hbegins.subset hsegment)
  have hchild := h.above_folder hstored (List.concat_ne_nil _ _) hbegins
  have hsplitChild := Path.split_join hsegments
  refine ⟨_, (mem_subfolders_iff h).mpr ⟨hchild, name, hsplitChild⟩, ?_⟩
  by_cases hnil : rest = []
  · subst hnil
    exact .inl (by rw [← hsplit, (h.canonical_folder hstored).join_split])
  · refine .inr ((mem_foldersBelow_iff h).mpr ⟨hstored, rest, hnil, ?_⟩)
    rw [hsplitChild, hsplit, List.append_assoc, List.singleton_append]

/-- **Listings in memory lead back.** -/
theorem leadsBack (h : inv.Closed) (path : String) : inv.toInventory.LeadsBack path where
  subfolder_exists _ hmem := folderExists_of_mem h ((mem_subfolders_iff h).mp hmem).1
  below_exists _ hmem := folderExists_of_mem h ((mem_foldersBelow_iff h).mp hmem).1
  mem_foldersBelow_iff folder := by
    show folder ∈ inv.foldersBelow path ↔
      ∃ child ∈ inv.subfolders path, folder = child ∨ folder ∈ inv.foldersBelow child
    constructor
    · intro hmem
      obtain ⟨hstored, hbelow⟩ := (mem_foldersBelow_iff h).mp hmem
      exact exists_subfolder_of_isBelow h hstored hbelow
    · rintro ⟨child, hchild, hfolder⟩
      obtain ⟨hstored, name, hsplit⟩ := (mem_subfolders_iff h).mp hchild
      rw [mem_foldersBelow_iff h]
      rcases hfolder with rfl | hfolder
      · exact ⟨hstored, [name], List.cons_ne_nil _ _, hsplit⟩
      · obtain ⟨hstoredFolder, rest, -, hrest⟩ := (mem_foldersBelow_iff h).mp hfolder
        refine ⟨hstoredFolder, name :: rest, List.cons_ne_nil _ _, ?_⟩
        rw [hrest, hsplit, List.append_assoc, List.singleton_append]

end MemoryInventory

/-! ## Listings on disk -/

/-- What is repeated once is repeated again, and so are other names behind it. -/
theorem keptSegments_append (root : String) {query names : List String} (h : "." ∉ names) :
    keptSegments root (keptSegments root query ++ names) = keptSegments root query ++ names := by
  have hquiet (rest : List String) : "." ∉ rest.filter (· != ".") := by simp
  have hnames : names.filter (· != ".") = names := List.filter_eq_self.mpr fun name hname => by
    rw [bne_iff_ne]
    rintro rfl
    exact h hname
  by_cases hdot : "." ∈ keptSegments root query
  · unfold keptSegments at hdot ⊢
    split at hdot
    · next rest =>
      split at hdot
      · next hroot =>
        simp only [if_pos hroot, List.cons_append, List.filter_append, List.filter_filter,
          Bool.and_self, hnames]
      · exact absurd hdot (hquiet rest)
    · exact absurd hdot (hquiet query)
  · exact keptSegments_of_notMem root fun hmem => (List.mem_append.mp hmem).elim hdot h

/-- Something is repeated of a query that is put below nothing. -/
theorem eq_nil_of_keptSegments_eq_nil {query : List String} (h : keptSegments "" query = []) :
    query = [] := by
  unfold keptSegments at h
  split at h
  · cases h
  · next hhead =>
    cases query with
    | nil => rfl
    | cons name rest =>
      have hname : name ≠ "." := by
        rintro rfl
        exact hhead rest rfl
      rw [List.filter_cons_of_pos (by simpa using hname)] at h
      cases h

/-- The path by which a search goes is not longer than the texts of its start and of what it
finds. -/
theorem sizeBelow_dropLast_le_utf8ByteSize_foundPath (start root : String) (query : List String)
    (name : FileName) {rest : List FileName} (hrest : rest ≠ []) :
    sizeBelow start (name :: rest.dropLast) ≤
      start.utf8ByteSize + (foundPath root query (name :: rest)).utf8ByteSize := by
  have hsizes : ((name :: rest.dropLast).map FileName.size).sum ≤
      ((keptSegments root query ++ (name :: rest).map FileName.shown).map
        String.utf8ByteSize).sum :=
    calc ((name :: rest.dropLast).map FileName.size).sum
      _ ≤ ((name :: rest).map FileName.size).sum :=
          (((List.dropLast_sublist rest).cons_cons name).map _).sum_le_sum fun _ _ => Nat.zero_le _
      _ ≤ ((name :: rest).map fun name => name.shown.utf8ByteSize).sum :=
          List.sum_le_sum fun name _ => name.size_le_utf8ByteSize_shown
      _ ≤ _ := by
          rw [List.map_append, List.sum_append, List.map_map]
          exact Nat.le_add_left _ _
  have hjoin := (le_utf8ByteSize_joinPath start).2
  have hpos := List.length_pos_iff.mpr hrest
  rw [sizeBelow_of_ne_nil start (List.cons_ne_nil _ _), foundPath, Path.utf8ByteSize_join,
    List.length_append, List.length_map, List.length_cons, List.length_cons, List.length_dropLast]
  omega

namespace FileTree

variable {tree : FileTree} {root path : String}

/-- The segments that are repeated lead where the query leads. -/
theorem QueryLeads.keptSegments {query : List String} {goal : List FileName}
    (h : tree.QueryLeads root query goal) :
    tree.QueryLeads root (keptSegments root query) goal := by
  unfold AssetAudit.keptSegments
  split
  · next rest =>
    split
    · -- Behind the first name the others are left out.
      obtain ⟨links, hle, hleads⟩ := h
      have hwhole : Location.namesIn root ++ ("." :: rest).map .text =
          Location.namesIn root ++ [.here] ++ rest.map .text := by
        simp [FileName.here]
      rw [hwhole] at hleads
      obtain ⟨middle, before, after, hfront, hback, rfl⟩ := hleads.exists_of_append
      refine ⟨_, hle, ?_⟩
      rw [List.map_cons, ← List.singleton_append, ← List.append_assoc]
      refine hfront.append ?_
      rw [← FileName.filter_map_text]
      exact hback.filter_ne_here
    · have hfiltered := h.filter_ne_dot
      rwa [List.filter_cons_of_neg (by simp)] at hfiltered
  · exact h.filter_ne_dot

/-- A text that shows names as they are: without backslashes, at which a question would cut it, and
without replacements for bytes.  If all names are texts, a replacement character was in a name. -/
def IsPlainText (tree : FileTree) (text : String) : Prop :=
  '\\' ∉ text.toList ∧
    (Utf8.replacement ∈ text.toList → ∀ entry ∈ tree.nodes, ∀ name ∈ entry.1, name.isText = true)

instance (tree : FileTree) (text : String) : Decidable (tree.IsPlainText text) :=
  inferInstanceAs (Decidable (_ ∧ (_ → _)))

/-- May names be looked up in the folder to which the text leads? -/
def maySearch (tree : FileTree) (text : String) : Bool :=
  match tree.resolve text with
  | .ok folder => (tree.rightsAt folder).enter
  | .error _ => false

theorem maySearch_iff {text : String} :
    tree.maySearch text = true ↔
      ∃ folder, tree.resolve text = .ok folder ∧ (tree.rightsAt folder).enter = true := by
  rw [maySearch]
  cases tree.resolve text <;> simp

/-- **What a search comes across.**  The query path leads to the folder `place`, from where the
shown names `found` lead down to another folder, and the folders on the way can be read. -/
structure Finds (tree : FileTree) (root path : String) (place found : List FileName) : Prop where
  start : tree.resolve (pathBelow root (Path.split path)) = .ok place
  ne_nil : found ≠ []
  isFolderAt : tree.isFolderAt (place ++ found) = true
  visible : ∀ name ∈ found, isVisible name.shown = true
  reached : sizeBelow (pathBelow root (Path.split path)) found.dropLast ≤ Location.maxBytes
  listed : tree.isListed place found = true

/-- The members of a listing are the texts of what is found. -/
theorem mem_projectFolders_iff {wanted : List FileName → Bool} {text : String} :
    text ∈ tree.projectFolders root path wanted ↔
      ∃ place found, tree.Finds root path place found ∧ wanted found = true ∧
        text = foundPath root (Path.split path) found := by
  have hshown (place found : List FileName) :
      (found.all (isVisible ·.shown) && isReached (pathBelow root (Path.split path)) found &&
          tree.isListed place found) = true ↔
        (∀ name ∈ found, isVisible name.shown = true) ∧
          sizeBelow (pathBelow root (Path.split path)) found.dropLast ≤ Location.maxBytes ∧
            tree.isListed place found = true := by
    rw [Bool.and_eq_true, Bool.and_eq_true, List.all_eq_true, isReached, decide_eq_true_iff,
      and_assoc]
  rw [projectFolders, sortTexts, List.mem_mergeSort, List.mem_filterMap]
  constructor
  · rintro ⟨⟨found, node⟩, hmem, htext⟩
    obtain ⟨hwanted, hfound⟩ := Option.ite_none_right_eq_some.mp htext
    rw [Bool.and_eq_true] at hwanted
    rw [search] at hmem
    split at hmem
    · next place hstart =>
      obtain ⟨hcontents, hpasses⟩ := List.mem_filter.mp hmem
      obtain ⟨hne, hnode⟩ := mem_contents_iff.mp hcontents
      obtain ⟨hvisible, hreached, hlisted⟩ := (hshown place found).mp hpasses
      have hfolder : tree.isFolderAt (place ++ found) = true := by
        rw [isFolderAt, (node?_eq_some_iff (tree.below _ hnode)).mpr hnode]
        exact hwanted.1
      exact ⟨place, found, ⟨hstart, hne, hfolder, hvisible, hreached, hlisted⟩, hwanted.2,
        (Option.some.inj hfound).symm⟩
    · cases hmem
  · rintro ⟨place, found, h, hwanted, rfl⟩
    obtain ⟨rights, hnode⟩ := isFolderAt_iff.mp h.isFolderAt
    have hmem := mem_of_node?_eq_some (List.append_ne_nil_of_right_ne_nil _ h.ne_nil) hnode
    refine ⟨(found, .folder rights), ?_, if_pos (by rw [hwanted]; rfl)⟩
    rw [search, h.start]
    exact List.mem_filter.mpr ⟨mem_contents_iff.mpr ⟨h.ne_nil, hmem⟩,
      (hshown place found).mpr ⟨h.visible, h.reached, h.listed⟩⟩

/-- The folders below a path are those that are found. -/
theorem mem_foldersBelow_iff {text : String} :
    text ∈ (tree.inventory root).foldersBelow path ↔
      ∃ place found, tree.Finds root path place found ∧
        text = foundPath root (Path.split path) found := by
  have hlisting : (tree.inventory root).foldersBelow path =
      tree.projectFolders root path fun _ => true := by rw [inventory]
  rw [hlisting, mem_projectFolders_iff]
  simp only [true_and]

/-- The folders directly below a path are those that are found under one name. -/
theorem mem_subfolders_iff {text : String} :
    text ∈ (tree.inventory root).subfolders path ↔
      ∃ place name, tree.Finds root path place [name] ∧
        text = foundPath root (Path.split path) [name] := by
  have hlisting : (tree.inventory root).subfolders path =
      tree.projectFolders root path (·.length == 1) := by rw [inventory]
  rw [hlisting, mem_projectFolders_iff]
  constructor
  · rintro ⟨place, found, h, hlength, rfl⟩
    obtain ⟨name, rfl⟩ := List.length_eq_one_iff.mp (beq_iff_eq.mp hlength)
    exact ⟨place, name, h, rfl⟩
  · rintro ⟨place, name, h, rfl⟩
    exact ⟨place, [name], h, rfl, rfl⟩

namespace Finds

variable {place found : List FileName}

/-- The names of what is found are legal. -/
theorem isLegal (h : tree.Finds root path place found) : ∀ name ∈ found, name.isLegal = true :=
  fun _ hname => isLegal_of_isFolderAt h.isFolderAt (List.mem_append_right _ hname)

/-- **Plain text shows segments.** -/
theorem exists_segments (h : tree.Finds root path place found)
    (hplain : tree.IsPlainText (foundPath root (Path.split path) found)) :
    ∃ names : List String, found = names.map .text ∧ (∀ name ∈ names, IsSegment name) ∧
      "." ∉ names := by
  have hshown {name : FileName} (hname : name ∈ found) {c : Char} (hc : c ≠ '/')
      (hmem : c ∈ name.shown.toList) : c ∈ (foundPath root (Path.split path) found).toList := by
    rw [foundPath, Path.mem_toList_join_iff hc]
    exact ⟨_, List.mem_append_right _ (List.mem_map_of_mem hname), hmem⟩
  have htext : ∀ name ∈ found, name.isText = true := by
    intro name hname
    by_contra hraw
    rw [Bool.not_eq_true] at hraw
    obtain ⟨rights, hnode⟩ := isFolderAt_iff.mp h.isFolderAt
    have hentry := mem_of_node?_eq_some (List.append_ne_nil_of_right_ne_nil _ h.ne_nil) hnode
    have hreplaced := hshown hname (by decide) (FileName.replacement_mem_shown hraw)
    have hall := hplain.2 hreplaced _ hentry name (List.mem_append_right _ hname)
    rw [hraw] at hall
    cases hall
  refine ⟨found.map FileName.shown, (FileName.map_text_map_shown htext).symm, ?_, ?_⟩
  · intro text hmem
    obtain ⟨name, hname, rfl⟩ := List.mem_map.mp hmem
    have hlegal := h.isLegal name hname
    rw [FileName.eq_text_shown (htext name hname)] at hlegal
    exact Path.isSegment_of_isLegal hlegal fun hc => hplain.1 (hshown hname (by decide) hc)
  · intro hmem
    obtain ⟨name, hname, hdot⟩ := List.mem_map.mp hmem
    have hvisible := h.visible name hname
    rw [hdot] at hvisible
    exact absurd hvisible (by decide)

/-- What is put together of a query and found segments are segments. -/
theorem isSegment_of_mem_kept_append (root path : String) {names : List String}
    (hsegments : ∀ name ∈ names, IsSegment name) :
    ∀ name ∈ keptSegments root (Path.split path) ++ names, IsSegment name := by
  intro name hname
  rcases List.mem_append.mp hname with hname | hname
  · exact Path.isSegment_of_mem_split ((keptSegments_sublist root _).subset hname)
  · exact hsegments name hname

/-- The segments in a plain text of what is found. -/
theorem split_foundPath (root path : String) {names : List String}
    (hsegments : ∀ name ∈ names, IsSegment name) :
    Path.split (foundPath root (Path.split path) (names.map .text)) =
      keptSegments root (Path.split path) ++ names := by
  have hshown : FileName.shown ∘ FileName.text = id := rfl
  rw [foundPath, List.map_map, hshown, List.map_id]
  exact Path.split_join (isSegment_of_mem_kept_append root path hsegments)

theorem split_foundPath_singleton (root path : String) {segment : String}
    (hsegment : ∀ other ∈ [segment], IsSegment other) :
    Path.split (foundPath root (Path.split path) [.text segment]) =
      keptSegments root (Path.split path) ++ [segment] := by
  have hsplit := split_foundPath root path hsegment
  rwa [List.map_singleton] at hsplit

/-- What answers repeat of the query leads where the search starts. -/
theorem queryLeads_kept (h : tree.Finds root path place found) :
    tree.QueryLeads root (keptSegments root (Path.split path)) place :=
  (queryLeads_of_resolve (fun _ => Path.isSegment_of_mem_split) h.start).keptSegments

/-- The way to what is found is straight. -/
theorem isStraight (h : tree.Finds root path place found) : tree.IsStraight place found :=
  isStraight_of_isFolderAt h.isFolderAt

/-- The folders above the one that is found can be entered, apart from the last. -/
theorem letsPass (h : tree.Finds root path place found) : tree.LetsPass place found.dropLast :=
  ((isListed_iff h.isLegal).mp h.listed).2

/-- **A text of found names leads to a folder** if it is not too long and the program may enter the
folders on the way. -/
theorem resolve (names more : List String)
    (h : tree.Finds root path place ((names ++ more).map .text))
    (hsegments : ∀ name ∈ names ++ more, IsSegment name)
    (hpass : tree.LetsPass place (names.map .text))
    (hsize : (pathBelow root (keptSegments root (Path.split path) ++ names)).utf8ByteSize ≤
      Location.maxBytes) :
    tree.resolve (pathBelow root (keptSegments root (Path.split path) ++ names)) =
      .ok (place ++ names.map .text) := by
  have hkept := keptSegments_sublist root (Path.split path)
  have hwhole := isSegment_of_mem_kept_append root path fun name hname =>
    hsegments name (List.mem_append_left more hname)
  have hfolder := h.isFolderAt
  have hstraight := h.isStraight
  rw [List.map_append] at hstraight
  rw [List.map_append, ← List.append_assoc] at hfolder
  have hnames := (leads_iff_of_isStraight hstraight.of_append).mpr ⟨rfl, rfl, hpass⟩
  refine resolve_pathBelow_of_isFolderAt hwhole ?_ hsize ?_ (h.queryLeads_kept.append hnames)
    (isFolderAt_of_append hfolder)
  · have hnul := nul_notMem_of_resolve h.start
    rw [mem_toList_pathBelow_iff (by decide)] at hnul ⊢
    rintro (hroot | ⟨name, hname, hc⟩)
    · exact hnul (.inl hroot)
    · rcases List.mem_append.mp hname with hname | hname
      · exact hnul (.inr ⟨name, hkept.subset hname, hc⟩)
      · exact FileName.nul_notMem_of_isLegal (h.isLegal (.text name)
          (List.mem_map_of_mem (List.mem_append_left _ hname))) hc
  · intro hempty
    have hnil : keptSegments root (Path.split path) ++ names = [] := by
      by_contra hne
      exact pathBelow_ne_empty root hwhole hne hempty
    rw [hnil, pathBelow_nil] at hempty
    subst hempty
    have hstart := h.start
    rw [eq_nil_of_keptSegments_eq_nil (List.append_eq_nil_iff.mp hnil).1] at hstart
    cases hstart

/-- **When a listed folder is found again.**  If its text is plain, it is found again exactly if the
text is not too long and the folder in which it lies may be searched. -/
theorem folderExists_iff (h : tree.Finds root path place found)
    (hplain : tree.IsPlainText (foundPath root (Path.split path) found)) :
    (tree.inventory root).folderExists (foundPath root (Path.split path) found) = true ↔
      (pathBelow root (Path.split (foundPath root (Path.split path) found))).utf8ByteSize ≤
          Location.maxBytes ∧
        tree.maySearch (pathBelow root
          (Path.split (foundPath root (Path.split path) found)).dropLast) = true := by
  obtain ⟨names, rfl, hsegments, -⟩ := h.exists_segments hplain
  obtain ⟨front, last, rfl⟩ :=
    (List.eq_nil_or_concat' names).resolve_left fun hnil => h.ne_nil (by rw [hnil]; rfl)
  have hfound := h.isFolderAt
  have hstraight := h.isStraight
  have hlegal := h.isLegal
  have hkept := h.queryLeads_kept
  have hsegment := isSegment_of_mem_kept_append root path hsegments
  have hdrop : (keptSegments root (Path.split path) ++ (front ++ [last])).dropLast =
      keptSegments root (Path.split path) ++ front := by
    rw [← List.append_assoc, List.dropLast_concat]
  have hexists (text : String) : (tree.inventory root).folderExists text =
      tree.projectFolderExists root text := by rw [inventory]
  rw [hexists, projectFolderExists, split_foundPath _ _ hsegments, hdrop, maySearch_iff]
  constructor
  · intro hfolder
    rw [isFolder] at hfolder
    split at hfolder
    · next goal hresolve =>
      have hsize := utf8ByteSize_le_of_resolve hresolve
      obtain ⟨middle, links, hmiddle, hleads⟩ :=
        (queryLeads_of_resolve hsegment hresolve).exists_of_append
      obtain rfl := hmiddle.goal_unique hkept
      obtain ⟨-, -, hpass⟩ := (leads_iff_of_isStraight hstraight).mp hleads
      rw [List.map_append, letsPass_append_iff] at hpass
      have hsublist : (keptSegments root (Path.split path) ++ front).Sublist
          (keptSegments root (Path.split path) ++ (front ++ [last])) :=
        (List.Sublist.refl _).append (List.sublist_append_left _ _)
      exact ⟨hsize, _, h.resolve _ _ hsegments hpass.1
        ((utf8ByteSize_pathBelow_le_of_sublist root hsublist).trans hsize), hpass.2.1⟩
    · cases hfolder
  · rintro ⟨hsize, folder, hresolve, henter⟩
    obtain ⟨middle, links, hmiddle, hleads⟩ := (queryLeads_of_resolve
      (fun name hname => hsegment name (by
        rw [← List.append_assoc]
        exact List.mem_append_left _ hname)) hresolve).exists_of_append
    obtain rfl := hmiddle.goal_unique hkept
    rw [List.map_append] at hstraight
    obtain ⟨rfl, -, hpass⟩ := (leads_iff_of_isStraight hstraight.of_append).mp hleads
    have hlast := FileName.size_le_of_isLegal
      (hlegal (.text last) (List.mem_map_of_mem List.mem_concat_self))
    have hwhole : tree.LetsPass middle ((front ++ [last]).map .text) := by
      rw [List.map_append, letsPass_append_iff]
      exact ⟨hpass, henter, hlast, trivial⟩
    have hgoal := resolve (front ++ [last]) [] (by rwa [List.append_nil])
      (by rwa [List.append_nil]) hwhole hsize
    rw [isFolder, hgoal]
    exact hfound

/-- The first of the found names is found. -/
theorem head {name : FileName} {rest : List FileName}
    (h : tree.Finds root path place (name :: rest)) : tree.Finds root path place [name] where
  start := h.start
  ne_nil := List.cons_ne_nil _ _
  isFolderAt := by
    have hfolder := h.isFolderAt
    rw [← List.singleton_append, ← List.append_assoc] at hfolder
    exact isFolderAt_of_append hfolder
  visible := by
    intro other hother
    rw [List.mem_singleton.mp hother]
    exact h.visible name List.mem_cons_self
  reached := utf8ByteSize_le_of_resolve h.start
  listed := by
    have hlisted := h.listed
    rw [isListed, Bool.and_eq_true, Bool.and_eq_true] at hlisted
    rw [isListed, hlisted.1.1]
    rfl

/-- A plain text of one found name shows a segment. -/
theorem exists_segment {name : FileName} (h : tree.Finds root path place [name])
    (hplain : tree.IsPlainText (foundPath root (Path.split path) [name])) :
    ∃ segment : String, name = .text segment ∧ (∀ other ∈ [segment], IsSegment other) ∧
      "." ∉ [segment] := by
  obtain ⟨names, hnames, hsegments, hdot⟩ := h.exists_segments hplain
  obtain ⟨segment, rest, rfl⟩ := List.exists_cons_of_ne_nil
    (show names ≠ [] by rintro rfl; cases hnames)
  obtain ⟨rfl, hrest⟩ := List.cons.inj hnames
  obtain rfl := List.map_eq_nil_iff.mp hrest.symm
  exact ⟨segment, rfl, hsegments, hdot⟩

/-- The text of names that are found below a listed folder continues the text of that folder. -/
theorem foundPath_cons {segment : String} (hsegment : ∀ other ∈ [segment], IsSegment other)
    (hdot : "." ∉ [segment]) (rest : List FileName) :
    foundPath root (Path.split (foundPath root (Path.split path) [.text segment])) rest =
      foundPath root (Path.split path) (.text segment :: rest) := by
  have hsplit := split_foundPath_singleton root path hsegment
  rw [hsplit, foundPath, foundPath, keptSegments_append root hdot, List.append_assoc]
  rfl

/-- **One folder down.**  What is found below a path is found below the first folder on the way. -/
theorem of_cons {segment : String} {rest : List FileName}
    (h : tree.Finds root path place (.text segment :: rest)) (hrest : rest ≠ [])
    (hsegment : ∀ other ∈ [segment], IsSegment other) :
    tree.Finds root (foundPath root (Path.split path) [.text segment]) (place ++ [.text segment])
      rest := by
  have hreached := h.reached
  rw [List.dropLast_cons_of_ne_nil hrest,
    sizeBelow_pathBelow root fun _ => Path.isSegment_of_mem_split] at hreached
  have hsplit := split_foundPath_singleton root path hsegment
  have hkept : ((keptSegments root (Path.split path)).map FileName.text).Sublist
      ((Path.split path).map .text) := (keptSegments_sublist root _).map _
  have hpass := h.letsPass
  rw [List.dropLast_cons_of_ne_nil hrest] at hpass
  have hlisted := h.listed
  rw [isListed, Bool.and_eq_true] at hlisted
  constructor
  · rw [hsplit]
    have hhead := h.head
    refine hhead.resolve [segment] [] hsegment ⟨hpass.1, hpass.2.1, trivial⟩ ?_
    rw [← sizeBelow_map_text, List.map_append]
    exact (sizeBelow_le_of_sublist root
      (hkept.append ((List.nil_sublist _).cons_cons _))).trans hreached
  · exact hrest
  · have hfolder := h.isFolderAt
    rwa [List.append_assoc, List.singleton_append]
  · exact fun other hother => h.visible other (List.mem_cons_of_mem _ hother)
  · rw [sizeBelow_pathBelow root fun _ => Path.isSegment_of_mem_split, hsplit, List.map_append,
      List.append_assoc]
    exact (sizeBelow_le_of_sublist root (hkept.append_right _)).trans hreached
  · exact hlisted.2

/-- **One folder up.**  What is found below a listed folder is found below the path, if the names
`.` in the path do not make its text too long. -/
theorem cons {segment : String} {place' rest : List FileName}
    (h : tree.Finds root path place [.text segment])
    (hsegment : ∀ other ∈ [segment], IsSegment other)
    (hbelow : tree.Finds root (foundPath root (Path.split path) [.text segment]) place' rest)
    (hdots : "." ∈ Path.split path →
      (pathBelow root (Path.split path)).utf8ByteSize +
        (foundPath root (Path.split path) (.text segment :: rest)).utf8ByteSize ≤
          Location.maxBytes) :
    tree.Finds root path place (.text segment :: rest) := by
  have hsplit := split_foundPath_singleton root path hsegment
  -- The listed folder is found again, so it lies where it was found and can be entered from there.
  have hkept := h.queryLeads_kept
  have hstart := queryLeads_of_resolve (fun _ => Path.isSegment_of_mem_split) hbelow.start
  rw [hsplit] at hstart
  obtain ⟨middle, links, hmiddle, hleads⟩ := hstart.exists_of_append
  obtain rfl := hmiddle.goal_unique hkept
  obtain ⟨rfl, -, hpass⟩ := (leads_iff_of_isStraight h.isStraight).mp hleads
  have hread := h.listed
  rw [isListed, Bool.and_eq_true, Bool.and_eq_true] at hread
  constructor
  · exact h.start
  · exact List.cons_ne_nil _ _
  · have hfolder := hbelow.isFolderAt
    rwa [List.append_assoc, List.singleton_append] at hfolder
  · intro other hother
    rcases List.mem_cons.mp hother with rfl | hother
    · exact h.visible _ List.mem_cons_self
    · exact hbelow.visible other hother
  · rw [List.dropLast_cons_of_ne_nil hbelow.ne_nil]
    by_cases hdot : "." ∈ Path.split path
    · exact (sizeBelow_dropLast_le_utf8ByteSize_foundPath _ root _ _ hbelow.ne_nil).trans
        (hdots hdot)
    · have hreached := hbelow.reached
      rw [sizeBelow_pathBelow root fun _ => Path.isSegment_of_mem_split, hsplit,
        keptSegments_of_notMem root hdot, List.map_append, List.append_assoc] at hreached
      rwa [sizeBelow_pathBelow root fun _ => Path.isSegment_of_mem_split]
  · have hlisted := hbelow.listed
    rw [isListed, hread.1.1, hpass.1, Bool.or_true, Bool.true_and, Bool.true_and]
    exact hlisted

end Finds

/-- The text of names that are found below a folder continues the text of that folder after a
slash. -/
theorem slash_prefix_foundPath (root : String) (query : List String) (name : FileName)
    {rest : List FileName} (hrest : rest ≠ []) :
    (foundPath root query [name] ++ "/").toList <+:
      (foundPath root query (name :: rest)).toList := by
  have htext : foundPath root query (name :: rest) =
      foundPath root query [name] ++ "/" ++ Path.join (rest.map FileName.shown) := by
    have hwhole : keptSegments root query ++ (name :: rest).map FileName.shown =
        keptSegments root query ++ [name].map FileName.shown ++ rest.map FileName.shown := by
      rw [List.append_assoc]
      rfl
    have hne : rest.map FileName.shown ≠ [] := by simpa using hrest
    have hfront : keptSegments root query ++ [name].map FileName.shown ≠ [] :=
      List.concat_ne_nil _ _
    rw [foundPath, foundPath, hwhole, Path.join_append_of_ne_nil hfront hne]
  refine ⟨(Path.join (rest.map FileName.shown)).toList, ?_⟩
  rw [htext, ← String.toList_append]

/-- **Listed folders lead back into the inventory.**

* In memory they do so for every path, whatever has been added: every listed folder exists, and the
  folders below a path are its subfolders and what is listed below each of these.

On disk, for every tree, every text of a project folder and every path:

* A listed folder with a plain text exists exactly if its path text is not too long for the system
  and the program may look up names in the folder in which it lies.
* Every subfolder is listed below the path, and so is what is listed below a subfolder with a plain
  text.  Names `.` in the path make the texts longer by which a search goes, so with such names the
  latter holds of a folder whose text and that of the path are together not too long.
* Every folder below the path is a subfolder, or is listed below one, or lies in a subfolder whose
  text is not plain. -/
theorem listings_lead_back :
    (∀ (additions : List MemoryInventory.Addition) (path : String),
        (MemoryInventory.ofAdditions additions).toInventory.LeadsBack path) ∧
      ∀ (tree : FileTree) (root path : String),
        (∀ folder, folder ∈ (tree.inventory root).subfolders path ∨
            folder ∈ (tree.inventory root).foldersBelow path → tree.IsPlainText folder →
          ((tree.inventory root).folderExists folder = true ↔
            (pathBelow root (Path.split folder)).utf8ByteSize ≤ Location.maxBytes ∧
              tree.maySearch (pathBelow root (Path.split folder).dropLast) = true)) ∧
        (∀ child ∈ (tree.inventory root).subfolders path,
          child ∈ (tree.inventory root).foldersBelow path ∧
            (tree.IsPlainText child → ∀ folder ∈ (tree.inventory root).foldersBelow child,
              ("." ∈ Path.split path →
                (pathBelow root (Path.split path)).utf8ByteSize + folder.utf8ByteSize ≤
                  Location.maxBytes) →
              folder ∈ (tree.inventory root).foldersBelow path)) ∧
        ∀ folder ∈ (tree.inventory root).foldersBelow path,
          ∃ child ∈ (tree.inventory root).subfolders path,
            folder = child ∨ folder ∈ (tree.inventory root).foldersBelow child ∨
              (¬ tree.IsPlainText child ∧ (child ++ "/").toList <+: folder.toList) := by
  refine ⟨fun additions path => MemoryInventory.leadsBack
    (MemoryInventory.closed_ofAdditions additions) path, fun tree root path => ⟨?_, ?_, ?_⟩⟩
  · intro folder hlisted hplain
    have hfinds : ∃ place found, tree.Finds root path place found ∧
        folder = foundPath root (Path.split path) found := by
      rcases hlisted with hlisted | hlisted
      · obtain ⟨place, name, h, hfolder⟩ := mem_subfolders_iff.mp hlisted
        exact ⟨place, [name], h, hfolder⟩
      · exact mem_foldersBelow_iff.mp hlisted
    obtain ⟨place, found, h, rfl⟩ := hfinds
    exact h.folderExists_iff hplain
  · intro child hchild
    obtain ⟨place, name, h, rfl⟩ := mem_subfolders_iff.mp hchild
    refine ⟨mem_foldersBelow_iff.mpr ⟨place, [name], h, rfl⟩, ?_⟩
    intro hplain folder hfolder hdots
    obtain ⟨segment, rfl, hsegment, hdot⟩ := h.exists_segment hplain
    obtain ⟨place', rest, hbelow, htext⟩ := mem_foldersBelow_iff.mp hfolder
    rw [Finds.foundPath_cons hsegment hdot] at htext
    subst htext
    exact mem_foldersBelow_iff.mpr
      ⟨place, .text segment :: rest, h.cons hsegment hbelow hdots, rfl⟩
  · intro folder hfolder
    obtain ⟨place, found, h, rfl⟩ := mem_foldersBelow_iff.mp hfolder
    obtain ⟨name, rest, rfl⟩ := List.exists_cons_of_ne_nil h.ne_nil
    refine ⟨_, mem_subfolders_iff.mpr ⟨place, name, h.head, rfl⟩, ?_⟩
    by_cases hrest : rest = []
    · exact .inl (by rw [hrest])
    · by_cases hplain : tree.IsPlainText (foundPath root (Path.split path) [name])
      · obtain ⟨segment, rfl, hsegment, hdot⟩ := h.head.exists_segment hplain
        exact .inr (.inl (mem_foldersBelow_iff.mpr ⟨_, rest, h.of_cons hrest hsegment,
          (Finds.foundPath_cons hsegment hdot rest).symm⟩))
      · exact .inr (.inr ⟨hplain, slash_prefix_foundPath root (Path.split path) name hrest⟩)

/-- From a path that winds through a hidden folder, a shown folder is listed and exists, and what is
listed in it is listed below the path. -/
theorem listings_lead_back_winding_path :
    let entries : List (List FileName × FileName) :=
      [([], "game"), (["game"], "Assets"), (["game", "Assets"], ".cache"),
        (["game", "Assets"], "Units"), (["game", "Assets", "Units"], "Elf")]
    let tree : FileTree :=
      entries.foldl (fun tree (folder, name) => tree.insert folder name (.folder .full)) .empty
    let path := "./Assets//.cache\\../"
    let units := "Assets/.cache/../Units"
    (units ∈ (tree.inventory "game").subfolders path ∧ tree.IsPlainText units ∧
        (tree.inventory "game").folderExists units = true) ∧
      (units ++ "/Elf" ∈ (tree.inventory "game").foldersBelow units ∧ "." ∈ Path.split path ∧
        (pathBelow "game" (Path.split path)).utf8ByteSize + (units ++ "/Elf").utf8ByteSize ≤
          Location.maxBytes ∧
        units ++ "/Elf" ∈ (tree.inventory "game").foldersBelow path) := by
  intro entries tree path units
  obtain ⟨hexists, hdown, -⟩ := listings_lead_back.2 tree "game" path
  have hlisted : units ∈ (tree.inventory "game").subfolders path := by decide +kernel
  have hplain : tree.IsPlainText units := by decide +kernel
  have hroom : (pathBelow "game" (Path.split path)).utf8ByteSize + (units ++ "/Elf").utf8ByteSize ≤
      Location.maxBytes := by
    decide +kernel
  have helf : units ++ "/Elf" ∈ (tree.inventory "game").foldersBelow units := by decide +kernel
  exact ⟨⟨hlisted, hplain, (hexists units (.inl hlisted) hplain).mpr (by decide +kernel)⟩, helf,
    by decide +kernel, hroom, (hdown units hlisted).2 hplain _ helf fun _ => hroom⟩

/-- **What leads astray.**

* In a project with a folder `a\b` below the assets and a folder `c` in that, the folder `a\b` is
  listed and does not exist, and `c` is listed below the assets and not below any of their
  subfolders: asked for `Assets/a\b`, the inventory looks for a folder `b` in a folder `a`.
* A folder whose name is a byte that is no text is listed under a name that no folder has.
* In a folder that can be listed but not entered, a folder is listed and does not exist. -/
theorem listings_lead_astray :
    (let tree : FileTree := ([([], "Assets"), (["Assets"], "a\\b"), (["Assets", "a\\b"], "c")] :
        List (List FileName × FileName)).foldl
      (fun tree (folder, name) => tree.insert folder name (.folder .full)) .empty
    ("Assets/a\\b" ∈ (tree.inventory ".").subfolders "Assets" ∧
        (tree.inventory ".").folderExists "Assets/a\\b" = false) ∧
      ("Assets/a\\b/c" ∈ (tree.inventory ".").foldersBelow "Assets" ∧
        ¬ ∃ child ∈ (tree.inventory ".").subfolders "Assets",
          "Assets/a\\b/c" = child ∨ "Assets/a\\b/c" ∈ (tree.inventory ".").foldersBelow child) ∧
      ¬ (tree.inventory ".").LeadsBack "Assets") ∧
    (let tree := (FileTree.empty.insert [] "Assets" (.folder .full)).insert ["Assets"]
        (.raw [0xFF] (by decide)) (.folder .full)
    "Assets/\uFFFD" ∈ (tree.inventory ".").subfolders "Assets" ∧
      (tree.inventory ".").folderExists "Assets/\uFFFD" = false) ∧
    (let tree := ((FileTree.empty.insert [] "Assets" (.folder .full)).insert ["Assets"] "Locked"
        (.folder ⟨true, true, false⟩)).insert ["Assets", "Locked"] "Units" (.folder .full)
    "Assets/Locked/Units" ∈ (tree.inventory ".").subfolders "Assets/Locked" ∧
      (tree.inventory ".").folderExists "Assets/Locked/Units" = false) := by
  refine ⟨?_, by decide +kernel, by decide +kernel⟩
  intro tree
  have hlisted : "Assets/a\\b" ∈ (tree.inventory ".").subfolders "Assets" := by decide +kernel
  have hmissing : (tree.inventory ".").folderExists "Assets/a\\b" = false := by decide +kernel
  have hfinds : tree.Finds "." "Assets" ["Assets"] ["a\\b", "c"] :=
    ⟨by decide +kernel, by decide, by decide +kernel, by decide, by decide +kernel,
      by decide +kernel⟩
  have hbelow : "Assets/a\\b/c" ∈ (tree.inventory ".").foldersBelow "Assets" :=
    mem_foldersBelow_iff.mpr ⟨_, _, hfinds, by decide +kernel⟩
  have hlost : ¬ ∃ child ∈ (tree.inventory ".").subfolders "Assets",
      "Assets/a\\b/c" = child ∨ "Assets/a\\b/c" ∈ (tree.inventory ".").foldersBelow child := by
    decide +kernel
  refine ⟨⟨hlisted, hmissing⟩, ⟨hbelow, hlost⟩, fun h => ?_⟩
  have hfound := h.subfolder_exists _ hlisted
  rw [hmissing] at hfound
  cases hfound

end FileTree
end AssetAudit
