import AssetAudit.Inventory.Memory
import AssetAudit.Proofs.StoredPaths
import AssetAudit.Proofs.TreeWalks

/-!
# A project on disk and the same project in memory

An inventory of a file tree walks the tree, and an inventory in memory filters stored texts.  For a
project in a file tree (`FileTree.IsProject`) this file builds the inventory in memory of the
entries that are shown (`FileTree.shownInventory`) and compares the answers of the two.

## Both sides say the same thing about entries

* On disk, a search below a shown path comes across the shown entries that continue the path
  (`mem_search_iff`).  Here the shown folders must lie open to the program and must not lie too
  deep, which `IsProject` says.
* In memory, the stored files and folders are the shown ones, because everything above a shown entry
  is shown (`IsProject.mem_files_shownInventory_iff`, `IsProject.mem_folders_shownInventory_iff`).

`FileTree.Shows` is what both are said in: a path of texts, and what stands there.

## Both sides list it in the same order

A listing on disk is sorted at the end, a listing in memory is part of a sorted set, and no entry
occurs twice in either.  By `sortTexts_eq` it remains to compare the members, which gives
`folderExists_eq`, `subfolders_eq`, `foldersBelow_eq`, `assets_some_eq` and `assets_none_eq`.
-/

namespace AssetAudit

open AssetAudit.Path (IsSegment IsBelow)

/-! ## What is shown -/

namespace Path

/-- Does the path lie at or below `Assets` or `Packages`, with every entry on the way shown? -/
def isShown (segments : List String) : Bool :=
  (segments.head? == some assetsRoot || segments.head? == some packagesRoot) &&
    segments.all isVisible

theorem isShown_cons_iff {name : String} {rest : List String} :
    isShown (name :: rest) = true ↔
      (name = assetsRoot ∨ name = packagesRoot) ∧ (name :: rest).all isVisible = true := by
  rw [isShown, List.head?_cons, Bool.and_eq_true, Bool.or_eq_true, beq_iff_eq, beq_iff_eq,
    Option.some_inj, Option.some_inj]

theorem ne_nil_of_isShown {P : List String} (h : isShown P = true) : P ≠ [] := by
  rintro rfl
  cases h

/-- What is reached from a shown path through shown entries is shown. -/
theorem isShown_append {P Q : List String} (hne : P ≠ []) :
    isShown (P ++ Q) = true ↔ isShown P = true ∧ Q.all isVisible = true := by
  rw [isShown, isShown, List.head?_append_of_ne_nil _ hne, List.all_append, Bool.and_eq_true,
    Bool.and_eq_true, Bool.and_eq_true, and_assoc]

/-- An entry that is shown has no special name. -/
theorem not_special_of_isVisible {name : String} (h : isVisible name = true) :
    name ≠ "." ∧ name ≠ ".." := by
  constructor <;> rintro rfl <;> exact absurd h (by decide)

theorem isVisible_of_isShown {P : List String} (h : isShown P = true) :
    ∀ name ∈ P, isVisible name = true := by
  rw [isShown, Bool.and_eq_true, List.all_eq_true] at h
  exact h.2

end Path

namespace FileTree

/-- **A sorted list is determined by its members**, if none of them occurs twice. -/
theorem sortTexts_eq {texts listing : List String} (hdistinct : texts.Nodup)
    (hascending : listing.Pairwise (· < ·)) (h : ∀ text, text ∈ texts ↔ text ∈ listing) :
    sortTexts texts = listing := by
  have htrans (a b c : String) (hab : decide (a ≤ b) = true) (hbc : decide (b ≤ c) = true) :
      decide (a ≤ c) = true :=
    decide_eq_true (String.le_trans (of_decide_eq_true hab) (of_decide_eq_true hbc))
  have htotal (a b : String) : (decide (a ≤ b) || decide (b ≤ a)) = true := by
    rw [Bool.or_eq_true, decide_eq_true_eq, decide_eq_true_eq]
    exact String.le_total a b
  have hmerge := List.pairwise_mergeSort htrans htotal texts
  have hsorted : (sortTexts texts).Pairwise (· ≤ ·) := hmerge.imp of_decide_eq_true
  have hlisting : listing.Nodup := PathSet.nodup_of_ascending hascending
  have hperm : (sortTexts texts).Perm listing :=
    (List.mergeSort_perm _ _).trans ((List.perm_ext_iff_of_nodup hdistinct hlisting).mpr h)
  exact List.Perm.eq_of_pairwise (fun a b _ _ hab hba => String.le_antisymm hab hba) hsorted
    (hascending.imp fun hlt => Std.le_of_lt hlt) hperm

/-! ## Projects -/

/-- The entries of a folder that are shown, each with its path from there. -/
def shownContents (tree : FileTree) (folder : List FileName) : List (List FileName × FileNode) :=
  (tree.contents folder).filter fun entry => Path.isShown (entry.1.map FileName.shown)

/-- **A project** in a folder of a file tree, and a path text that leads to the folder.  Of what is
not shown in it nothing is asked. -/
structure IsProject (tree : FileTree) (root : String) (folder : List FileName) : Prop where
  leads_to : tree.LeadsTo root folder
  enter : (tree.rightsAt folder).enter = true
  /-- Names are texts, and hold no backslash, which a path text could not tell from a slash. -/
  plain_names : ∀ entry ∈ tree.shownContents folder, ∀ name ∈ entry.1,
    name.isText = true ∧ '\\' ∉ name.shown.toList
  no_links : ∀ entry ∈ tree.shownContents folder, entry.2.isLink = false
  /-- Folders can be listed and entered. -/
  opens : ∀ entry ∈ tree.shownContents folder, entry.2.isFolder = true →
    (tree.rightsAt (folder ++ entry.1)).read = true ∧
      (tree.rightsAt (folder ++ entry.1)).enter = true
  /-- The path texts of folders are not too long to be followed. -/
  not_too_deep : ∀ entry ∈ tree.shownContents folder, entry.2.isFolder = true →
    sizeBelow root entry.1 ≤ Location.maxBytes

/-- The path is shown, and the node stands there in the folder. -/
def Shows (tree : FileTree) (folder : List FileName) (path : List String) (node : FileNode) :
    Prop :=
  Path.isShown path = true ∧ tree.node? (folder ++ path.map .text) = some node

variable {tree : FileTree} {root : String} {folder : List FileName}

theorem map_shown_map_text (path : List String) :
    (path.map FileName.text).map FileName.shown = path := by
  have hshown : FileName.shown ∘ FileName.text = id := rfl
  rw [List.map_map, hshown, List.map_id]

theorem mem_shownContents_iff {names : List FileName} {node : FileNode} :
    (names, node) ∈ tree.shownContents folder ↔
      Path.isShown (names.map FileName.shown) = true ∧
      tree.node? (folder ++ names) = some node := by
  rw [shownContents, List.mem_filter, mem_contents_iff, and_comm]
  refine and_congr_right fun hshown => ?_
  have hne : names ≠ [] := fun hnil =>
    Path.ne_nil_of_isShown hshown (List.map_eq_nil_iff.mpr hnil)
  rw [node?_eq_some_iff (List.append_ne_nil_of_right_ne_nil _ hne)]
  exact and_iff_right hne

namespace Shows

variable {path : List String} {node : FileNode}

theorem mem_shownContents (h : tree.Shows folder path node) :
    (path.map .text, node) ∈ tree.shownContents folder :=
  mem_shownContents_iff.mpr ⟨by rw [map_shown_map_text]; exact h.1, h.2⟩

theorem ne_nil (h : tree.Shows folder path node) : path ≠ [] := Path.ne_nil_of_isShown h.1

theorem mem_nodes (h : tree.Shows folder path node) :
    (folder ++ path.map .text, node) ∈ tree.nodes :=
  mem_of_node?_eq_some (List.append_ne_nil_of_right_ne_nil _ (by simpa using h.ne_nil)) h.2

theorem isLegal (h : tree.Shows folder path node) :
    ∀ name ∈ path, (FileName.text name).isLegal = true :=
  fun _ hname => tree.legal _ h.mem_nodes _ (List.mem_append_right _ (List.mem_map_of_mem hname))

/-- **Every shown path leads through shown folders.** -/
theorem above {P Q : List String} (h : tree.Shows folder (P ++ Q) node) (hP : P ≠ [])
    (hQ : Q ≠ []) :
    ∃ rights, tree.Shows folder P (.folder rights) := by
  have hmem := h.mem_nodes
  rw [List.map_append, ← List.append_assoc] at hmem
  obtain ⟨rights, hfolder⟩ := isFolderAt_iff.mp (isFolderAt_above hmem (by simpa using hQ))
  exact ⟨rights, ((Path.isShown_append hP).mp h.1).1, hfolder⟩

end Shows

namespace IsProject

/-- What is shown has a path of texts. -/
theorem exists_shows (h : tree.IsProject root folder) {names : List FileName} {node : FileNode}
    (hmem : (names, node) ∈ tree.shownContents folder) :
    ∃ path, names = path.map .text ∧ tree.Shows folder path node := by
  have hnames := (FileName.map_text_map_shown fun name hname =>
    (h.plain_names _ hmem name hname).1).symm
  obtain ⟨hshown, hnode⟩ := mem_shownContents_iff.mp hmem
  exact ⟨_, hnames, hshown, hnames ▸ hnode⟩

section Shown

variable {path : List String} {node : FileNode}

/-- The names on the path of a shown entry are segments. -/
theorem isSegment (h : tree.IsProject root folder) (hshows : tree.Shows folder path node) :
    ∀ name ∈ path, IsSegment name := fun name hname =>
  Path.isSegment_of_isLegal (hshows.isLegal name hname)
    (h.plain_names _ hshows.mem_shownContents _ (List.mem_map_of_mem hname)).2

/-- The text of a shown entry has the path of the entry as its segments. -/
theorem split_join (h : tree.IsProject root folder) (hshows : tree.Shows folder path node) :
    Path.split (Path.join path) = path :=
  Path.split_join (h.isSegment hshows)

/-- The folders above a shown entry can be entered. -/
theorem enter_above (h : tree.IsProject root folder) (hshows : tree.Shows folder path node)
    {P : List String} (hP : P <+: path) (hne : P ≠ path) :
    (tree.rightsAt (folder ++ P.map .text)).enter = true := by
  by_cases hnil : P = []
  · rw [hnil, List.map_nil, List.append_nil]
    exact h.enter
  · obtain ⟨Q, rfl⟩ := hP
    obtain ⟨rights, hfolder⟩ := hshows.above hnil fun hQ => hne (by rw [hQ, List.append_nil])
    exact (h.opens _ hfolder.mem_shownContents rfl).2

/-- The way to a shown entry is open. -/
theorem letsPass (h : tree.IsProject root folder) (hshows : tree.Shows folder path node) :
    tree.LetsPass folder (path.map .text) := by
  refine letsPass_of_forall (fun name hname => ?_) fun front hfront hne => ?_
  · obtain ⟨text, htext, rfl⟩ := List.mem_map.mp hname
    exact hshows.isLegal text htext
  · obtain ⟨P, hP, rfl⟩ := List.prefix_map_iff.mp hfront
    exact h.enter_above hshows hP fun hsame => hne (by rw [hsame])

/-- The way along a shown path is straight, whether there is an entry at its end or not. -/
theorem isStraight (h : tree.IsProject root folder) (hsegments : ∀ name ∈ path, IsSegment name)
    (hshown : Path.isShown path = true) : tree.IsStraight folder (path.map .text) := by
  refine isStraight_of_forall (fun name hname => ?_) fun front hfront hne => ?_
  · obtain ⟨text, htext, rfl⟩ := List.mem_map.mp hname
    obtain ⟨hhere, hup⟩ :=
      Path.not_special_of_isVisible (Path.isVisible_of_isShown hshown text htext)
    have hnothing := (hsegments text htext).1
    exact isPlain_iff.mpr ⟨fun h => hnothing (FileName.text.inj h),
      fun h => hhere (FileName.text.inj h), fun h => hup (FileName.text.inj h)⟩
  · obtain ⟨P, ⟨Q, rfl⟩, rfl⟩ := List.prefix_map_iff.mp hfront
    have hP : P ≠ [] := by simpa using hne
    by_contra hlink
    rw [Bool.not_eq_false, isLinkAt, Option.any_eq_true] at hlink
    obtain ⟨node, hnode, hlink⟩ := hlink
    have hshows : tree.Shows folder P node := ⟨((Path.isShown_append hP).mp hshown).1, hnode⟩
    rw [h.no_links _ hshows.mem_shownContents] at hlink
    cases hlink

/-- **A shown path leads straight down**, if it leads anywhere. -/
theorem goal_eq (h : tree.IsProject root folder) (hsegments : ∀ name ∈ path, IsSegment name)
    (hshown : Path.isShown path = true) {goal : List FileName}
    (hresolve : tree.resolve (pathBelow root path) = .ok goal) :
    goal = folder ++ path.map .text := by
  have hleads := queryLeads_of_resolve hsegments hresolve
  rw [← List.nil_append path] at hleads
  obtain ⟨middle, links, hmiddle, hpath⟩ := hleads.exists_of_append
  obtain rfl := hmiddle.goal_unique h.leads_to.queryLeads
  exact ((leads_iff_of_isStraight (h.isStraight hsegments hshown)).mp hpath).1

/-- **A shown folder is found where it lies.** -/
theorem resolve_pathBelow (h : tree.IsProject root folder) {rights : Rights}
    (hshows : tree.Shows folder path (.folder rights)) :
    tree.resolve (pathBelow root path) = .ok (folder ++ path.map .text) := by
  have hsegments := h.isSegment hshows
  have hsize := h.not_too_deep _ hshows.mem_shownContents rfl
  rw [sizeBelow_map_text] at hsize
  refine resolve_pathBelow_of_isFolderAt hsegments ?_ hsize
    (pathBelow_ne_empty root hsegments hshows.ne_nil) ?_ (isFolderAt_iff.mpr ⟨rights, hshows.2⟩)
  · rw [mem_toList_pathBelow_iff (by decide)]
    rintro (hroot | ⟨name, hname, hnul⟩)
    · rcases h.leads_to with ⟨rfl, -⟩ | hresolve
      · cases hroot
      · exact nul_notMem_of_resolve hresolve hroot
    · exact FileName.nul_notMem_of_isLegal (hshows.isLegal name hname) hnul
  · exact h.leads_to.queryLeads.append
      ((leads_iff_of_isStraight (h.isStraight hsegments hshows.1)).mpr
        ⟨rfl, rfl, h.letsPass hshows⟩)

end Shown

section Search

variable {query path : List String} {node : FileNode}

/-- The folders between a shown folder and a shown entry are listed. -/
theorem isListed_below (h : tree.IsProject root folder) (hquery : query ≠ [])
    (hshows : tree.Shows folder (query ++ path) node) :
    tree.isListed (folder ++ query.map .text) (path.map .text) = true := by
  have hpass := h.letsPass hshows
  rw [List.map_append, letsPass_append_iff] at hpass
  refine (isListed_iff fun name hname => ?_).mpr ⟨fun above habove hdiffer => ?_, ?_⟩
  · obtain ⟨text, htext, rfl⟩ := List.mem_map.mp hname
    exact hshows.isLegal text (List.mem_append_right _ htext)
  · obtain ⟨P, ⟨Q, rfl⟩, rfl⟩ := List.prefix_map_iff.mp habove
    have hQ : Q ≠ [] := fun hnil => hdiffer (by rw [hnil, List.append_nil])
    rw [← List.append_assoc] at hshows
    obtain ⟨_, hP⟩ := hshows.above (List.append_ne_nil_of_left_ne_nil hquery P) hQ
    rw [List.append_assoc, ← List.map_append]
    exact (h.opens _ hP.mem_shownContents rfl).1
  · obtain ⟨rest, hrest⟩ := List.dropLast_prefix (path.map FileName.text)
    rw [← hrest, letsPass_append_iff] at hpass
    exact hpass.2.1

/-- The folder in which a shown entry lies has a path text that can be followed. -/
theorem isReached_below (h : tree.IsProject root folder) (hquery : query ≠ [])
    (hsegments : ∀ name ∈ query, IsSegment name) (hpath : path ≠ [])
    (hshows : tree.Shows folder (query ++ path) node) :
    isReached (pathBelow root query) (path.map .text) = true := by
  obtain ⟨front, last, rfl⟩ := (List.eq_nil_or_concat' path).resolve_left hpath
  rw [← List.append_assoc] at hshows
  -- The last folder on the way is the query itself or a shown folder below it.
  obtain ⟨_, hdeepest⟩ := hshows.above (List.append_ne_nil_of_left_ne_nil hquery _)
    (List.cons_ne_nil last [])
  have hsize := h.not_too_deep _ hdeepest.mem_shownContents rfl
  rw [isReached, decide_eq_true_iff, List.map_append, List.map_singleton, List.dropLast_concat,
    sizeBelow_pathBelow root hsegments, ← List.map_append]
  exact hsize

/-- **What a search comes across** below a shown path: the shown entries that continue it. -/
theorem mem_search_iff (h : tree.IsProject root folder)
    (hsegments : ∀ name ∈ query, IsSegment name) (hshown : Path.isShown query = true)
    {found : List FileName} :
    (found, node) ∈ tree.search root query ↔
      ∃ path, path ≠ [] ∧ found = path.map .text ∧ tree.Shows folder (query ++ path) node := by
  have hquery := Path.ne_nil_of_isShown hshown
  rw [search]
  constructor
  · intro hmem
    split at hmem
    · next goal hresolve =>
      rw [h.goal_eq hsegments hshown hresolve, List.mem_filter, mem_contents_iff, Bool.and_eq_true,
        Bool.and_eq_true, List.append_assoc] at hmem
      obtain ⟨⟨hne, hnode⟩, ⟨hvisible, -⟩, -⟩ := hmem
      have hentry : (query.map .text ++ found, node) ∈ tree.shownContents folder := by
        refine mem_shownContents_iff.mpr ⟨?_, (node?_eq_some_iff (tree.below _ hnode)).mpr hnode⟩
        rw [List.map_append, map_shown_map_text, Path.isShown_append hquery, List.all_map]
        exact ⟨hshown, hvisible⟩
      obtain ⟨whole, hwhole, hshows⟩ := h.exists_shows hentry
      obtain ⟨front, path, rfl, hfront, rfl⟩ := List.map_eq_append_iff.mp hwhole.symm
      obtain rfl := List.map_injective_iff.mpr (fun _ _ => FileName.text.inj) hfront
      exact ⟨path, fun hnil => hne (by rw [hnil, List.map_nil]), rfl, hshows⟩
    · cases hmem
  · rintro ⟨path, hne, rfl, hshows⟩
    obtain ⟨rights, hfolder⟩ := hshows.above hquery hne
    have hvisible := ((Path.isShown_append hquery).mp hshows.1).2
    rw [← map_shown_map_text path, List.all_map] at hvisible
    have hnode := hshows.mem_nodes
    rw [List.map_append, ← List.append_assoc] at hnode
    simp only [h.resolve_pathBelow hfolder]
    rw [List.mem_filter, mem_contents_iff, Bool.and_eq_true, Bool.and_eq_true]
    exact ⟨⟨by simpa using hne, hnode⟩,
      ⟨hvisible, h.isReached_below hquery hsegments hne hshows⟩, h.isListed_below hquery hshows⟩

end Search

end IsProject

/-! ## The same project in memory -/

/-- The shown files of a folder. -/
def shownFiles (tree : FileTree) (folder : List FileName) : List String :=
  ((tree.shownContents folder).filter (·.2.isFile)).map fun entry =>
    Path.join (entry.1.map FileName.shown)

/-- The shown folders of a folder. -/
def shownFolders (tree : FileTree) (folder : List FileName) : List String :=
  ((tree.shownContents folder).filter (·.2.isFolder)).map fun entry =>
    Path.join (entry.1.map FileName.shown)

/-- The inventory in memory of the shown files and folders of a project. -/
def shownInventory (tree : FileTree) (folder : List FileName) : MemoryInventory :=
  .ofLists (tree.shownFiles folder) (tree.shownFolders folder)

theorem closed_shownInventory (tree : FileTree) (folder : List FileName) :
    (tree.shownInventory folder).Closed :=
  MemoryInventory.closed_ofAdditions _

namespace IsProject

theorem mem_shownFiles_iff (h : tree.IsProject root folder) {text : String} :
    text ∈ tree.shownFiles folder ↔ ∃ path node, tree.Shows folder path node ∧
      node.isFile = true ∧ text = Path.join path := by
  rw [shownFiles, List.mem_map]
  constructor
  · rintro ⟨⟨names, node⟩, hmem, rfl⟩
    obtain ⟨hentry, hfile⟩ := List.mem_filter.mp hmem
    obtain ⟨path, rfl, hshows⟩ := h.exists_shows hentry
    exact ⟨path, node, hshows, hfile, by rw [map_shown_map_text]⟩
  · rintro ⟨path, node, hshows, hfile, rfl⟩
    exact ⟨_, List.mem_filter.mpr ⟨hshows.mem_shownContents, hfile⟩, by rw [map_shown_map_text]⟩

theorem mem_shownFolders_iff (h : tree.IsProject root folder) {text : String} :
    text ∈ tree.shownFolders folder ↔
      ∃ path rights, tree.Shows folder path (.folder rights) ∧ text = Path.join path := by
  rw [shownFolders, List.mem_map]
  constructor
  · rintro ⟨⟨names, node⟩, hmem, rfl⟩
    obtain ⟨hentry, hfolder⟩ := List.mem_filter.mp hmem
    obtain ⟨path, rfl, hshows⟩ := h.exists_shows hentry
    cases node with
    | folder rights => exact ⟨path, rights, hshows, by rw [map_shown_map_text]⟩
    | file content rights => cases hfolder
    | link absolute pieces => cases hfolder
  · rintro ⟨path, rights, hshows, rfl⟩
    exact ⟨_, List.mem_filter.mpr ⟨hshows.mem_shownContents, rfl⟩, by rw [map_shown_map_text]⟩

/-- The stored files are the shown files. -/
theorem mem_files_shownInventory_iff (h : tree.IsProject root folder) {text : String} :
    text ∈ (tree.shownInventory folder).files.toList ↔
      ∃ path node, tree.Shows folder path node ∧ node.isFile = true ∧ text = Path.join path := by
  rw [shownInventory, MemoryInventory.ofLists, MemoryInventory.mem_files_ofAdditions_iff]
  constructor
  · rintro ⟨added, hadded, -, rfl⟩
    simp only [List.mem_append, List.mem_map, reduceCtorEq, and_false, exists_false, or_false,
      MemoryInventory.Addition.file.injEq, exists_eq_right] at hadded
    obtain ⟨path, node, hshows, hfile, rfl⟩ := h.mem_shownFiles_iff.mp hadded
    exact ⟨path, node, hshows, hfile, by rw [Path.normalize, h.split_join hshows]⟩
  · rintro ⟨path, node, hshows, hfile, rfl⟩
    have hsplit := h.split_join hshows
    refine ⟨Path.join path, List.mem_append_left _ (List.mem_map_of_mem
      (h.mem_shownFiles_iff.mpr ⟨path, node, hshows, hfile, rfl⟩)), ?_, ?_⟩
    · rw [hsplit]
      exact hshows.ne_nil
    · rw [Path.normalize, hsplit]

/-- The stored folders are the shown folders. -/
theorem mem_folders_shownInventory_iff (h : tree.IsProject root folder) {text : String} :
    text ∈ (tree.shownInventory folder).folders.toList ↔
      ∃ path rights, tree.Shows folder path (.folder rights) ∧ text = Path.join path := by
  rw [shownInventory, MemoryInventory.ofLists, MemoryInventory.mem_folders_ofAdditions_iff]
  constructor
  · rintro ⟨a, hadded, hlineage⟩
    obtain ⟨P, hne, hbegins, rfl⟩ := MemoryInventory.mem_lineage_iff.mp hlineage
    -- A stored folder lies above a shown file, or is or lies above a shown folder.
    rcases List.mem_append.mp hadded with hfile | hfolder
    · obtain ⟨text, htext, rfl⟩ := List.mem_map.mp hfile
      obtain ⟨path, node, hshows, -, rfl⟩ := h.mem_shownFiles_iff.mp htext
      rw [MemoryInventory.Addition.innermost, h.split_join hshows] at hbegins
      obtain ⟨rest, hrest⟩ := hbegins
      have hwhole : path = P ++ (rest ++ [path.getLast hshows.ne_nil]) := by
        rw [← List.append_assoc, hrest, List.dropLast_concat_getLast]
      rw [hwhole] at hshows
      obtain ⟨rights, habove⟩ := hshows.above hne (List.concat_ne_nil _ _)
      exact ⟨P, rights, habove, rfl⟩
    · obtain ⟨text, htext, rfl⟩ := List.mem_map.mp hfolder
      obtain ⟨path, rights, hshows, rfl⟩ := h.mem_shownFolders_iff.mp htext
      rw [MemoryInventory.Addition.innermost, h.split_join hshows] at hbegins
      obtain ⟨rest, rfl⟩ := hbegins
      by_cases hrest : rest = []
      · rw [hrest, List.append_nil] at hshows
        exact ⟨P, rights, hshows, rfl⟩
      · obtain ⟨rights', habove⟩ := hshows.above hne hrest
        exact ⟨P, rights', habove, rfl⟩
  · rintro ⟨path, rights, hshows, rfl⟩
    have hinnermost : (MemoryInventory.Addition.folder (Path.join path)).innermost = path :=
      h.split_join hshows
    refine ⟨.folder (Path.join path), List.mem_append_right _ (List.mem_map_of_mem
      (h.mem_shownFolders_iff.mpr ⟨path, rights, hshows, rfl⟩)), ?_⟩
    rw [hinnermost]
    exact MemoryInventory.mem_lineage_iff.mpr ⟨path, hshows.ne_nil, List.prefix_rfl, rfl⟩

end IsProject

/-! ## The same answers -/

section Answers

variable {path : String}

/-- What a search below the text of a shown path comes across. -/
theorem mem_search_split_iff (h : tree.IsProject root folder)
    (hshown : Path.isShown (Path.split path) = true) {found : List FileName} {node : FileNode} :
    (found, node) ∈ tree.search root (Path.split path) ↔
      ∃ rest, rest ≠ [] ∧ found = rest.map .text ∧
        tree.Shows folder (Path.split path ++ rest) node :=
  h.mem_search_iff (fun _ => Path.isSegment_of_mem_split) hshown

/-- The path of a found entry continues a shown path. -/
theorem foundPath_eq (root : String) {query : List String} (hshown : Path.isShown query = true)
    (found : List String) :
    foundPath root query (found.map .text) = Path.join (query ++ found) := by
  have hdot : "." ∉ query := fun hmem =>
    (Path.not_special_of_isVisible (Path.isVisible_of_isShown hshown _ hmem)).1 rfl
  rw [foundPath, keptSegments_of_notMem root hdot, map_shown_map_text]

/-- Found entries are told apart by their paths. -/
theorem nodup_filterMap_search (h : tree.IsProject root folder)
    (hshown : Path.isShown (Path.split path) = true)
    {f : List FileName × FileNode → Option String}
    (hf : ∀ entry text, f entry = some text → text = foundPath root (Path.split path) entry.1) :
    ((tree.search root (Path.split path)).filterMap f).Nodup := by
  have hentries : (tree.search root (Path.split path)).Pairwise fun a b => a.1 ≠ b.1 := by
    rw [search]
    split
    · exact (pairwise_contents tree _).filter _
    · exact List.Pairwise.nil
  refine List.pairwise_filterMap.mpr (hentries.imp_of_mem ?_)
  rintro ⟨found, node⟩ ⟨found', node'⟩ hmem hmem' hdiffer text htext text' htext' hsame
  rw [hf _ _ htext, hf _ _ htext'] at hsame
  obtain ⟨rest, -, rfl, hshows⟩ := (mem_search_split_iff h hshown).mp hmem
  obtain ⟨rest', -, rfl, hshows'⟩ := (mem_search_split_iff h hshown).mp hmem'
  rw [foundPath_eq root hshown, foundPath_eq root hshown,
    Path.join_inj (h.isSegment hshows) (h.isSegment hshows')] at hsame
  exact hdiffer (by rw [List.append_cancel_left hsame])

/-- The folders at the shown paths. -/
theorem projectFolderExists_iff (h : tree.IsProject root folder)
    (hshown : Path.isShown (Path.split path) = true) :
    tree.projectFolderExists root path = true ↔
      ∃ rights, tree.Shows folder (Path.split path) (.folder rights) := by
  rw [projectFolderExists, isFolder]
  constructor
  · intro hfolder
    split at hfolder
    · next goal hresolve =>
      rw [h.goal_eq (fun _ => Path.isSegment_of_mem_split) hshown hresolve] at hfolder
      obtain ⟨rights, hnode⟩ := isFolderAt_iff.mp hfolder
      exact ⟨rights, hshown, hnode⟩
    · cases hfolder
  · rintro ⟨rights, hshows⟩
    rw [h.resolve_pathBelow hshows]
    exact isFolderAt_iff.mpr ⟨rights, hshows.2⟩

/-- Both inventories hold the same folders. -/
theorem folderExists_eq (h : tree.IsProject root folder)
    (hshown : Path.isShown (Path.split path) = true) :
    (tree.inventory root).folderExists path =
      (tree.shownInventory folder).toInventory.folderExists path := by
  have hdisk : (tree.inventory root).folderExists path = tree.projectFolderExists root path := by
    rw [inventory]
  have hmemory : (tree.shownInventory folder).toInventory.folderExists path =
      (tree.shownInventory folder).folderExists path := rfl
  rw [hdisk, hmemory, Bool.eq_iff_iff, projectFolderExists_iff h hshown,
    MemoryInventory.folderExists_iff, h.mem_folders_shownInventory_iff]
  constructor
  · rintro ⟨rights, hshows⟩
    exact ⟨_, rights, hshows, rfl⟩
  · rintro ⟨other, rights, hshows, htext⟩
    rw [Path.normalize, Path.join_inj (fun _ => Path.isSegment_of_mem_split)
      (h.isSegment hshows)] at htext
    exact ⟨rights, htext ▸ hshows⟩

/-- **A listing of folders is sorted**, so its members say all about it. -/
theorem projectFolders_eq (h : tree.IsProject root folder)
    (hshown : Path.isShown (Path.split path) = true) {wanted : List FileName → Bool}
    {listing : List String} (hascending : listing.Pairwise (· < ·))
    (hlisting : ∀ text, text ∈ listing ↔ ∃ rest rights, rest ≠ [] ∧
      wanted (rest.map .text) = true ∧
        tree.Shows folder (Path.split path ++ rest) (.folder rights) ∧
          text = Path.join (Path.split path ++ rest)) :
    tree.projectFolders root path wanted = listing := by
  refine sortTexts_eq (nodup_filterMap_search h hshown ?_) hascending fun text => ?_
  · rintro ⟨found, node⟩ text htext
    exact (Option.some.inj (Option.ite_none_right_eq_some.mp htext).2).symm
  · rw [hlisting, List.mem_filterMap]
    constructor
    · rintro ⟨⟨found, node⟩, hmem, htext⟩
      obtain ⟨hwanted, hfound⟩ := Option.ite_none_right_eq_some.mp htext
      rw [Bool.and_eq_true] at hwanted
      obtain ⟨rest, hne, rfl, hshows⟩ := (mem_search_split_iff h hshown).mp hmem
      cases node with
      | folder rights =>
        refine ⟨rest, rights, hne, hwanted.2, hshows, ?_⟩
        rw [← foundPath_eq root hshown, Option.some.inj hfound]
      | file content rights => cases hwanted.1
      | link absolute pieces => cases hwanted.1
    · rintro ⟨rest, rights, hne, hwanted, hshows, rfl⟩
      refine ⟨(rest.map .text, .folder rights),
        (mem_search_split_iff h hshown).mpr ⟨rest, hne, rfl, hshows⟩, ?_⟩
      rw [← foundPath_eq root hshown]
      exact if_pos (by rw [hwanted]; rfl)

/-- Both inventories list the same folders below a path. -/
theorem foldersBelow_eq (h : tree.IsProject root folder)
    (hshown : Path.isShown (Path.split path) = true) :
    (tree.inventory root).foldersBelow path =
      (tree.shownInventory folder).toInventory.foldersBelow path := by
  change tree.projectFolders root path (fun _ => true) =
    (tree.shownInventory folder).foldersBelow path
  refine projectFolders_eq h hshown ((PathSet.ascending _).filter _) fun text => ?_
  rw [MemoryInventory.mem_foldersBelow_iff (closed_shownInventory tree folder),
    h.mem_folders_shownInventory_iff]
  constructor
  · rintro ⟨⟨other, rights, hshows, rfl⟩, rest, hne, hbelow⟩
    rw [h.split_join hshows] at hbelow
    rw [hbelow] at hshows ⊢
    exact ⟨rest, rights, hne, rfl, hshows, rfl⟩
  · rintro ⟨rest, rights, hne, -, hshows, rfl⟩
    exact ⟨⟨_, rights, hshows, rfl⟩, rest, hne, h.split_join hshows⟩

/-- Both inventories list the same folders directly below a path. -/
theorem subfolders_eq (h : tree.IsProject root folder)
    (hshown : Path.isShown (Path.split path) = true) :
    (tree.inventory root).subfolders path =
      (tree.shownInventory folder).toInventory.subfolders path := by
  change tree.projectFolders root path (·.length == 1) =
    (tree.shownInventory folder).subfolders path
  refine projectFolders_eq h hshown ((PathSet.ascending _).filter _) fun text => ?_
  rw [MemoryInventory.mem_subfolders_iff (closed_shownInventory tree folder),
    h.mem_folders_shownInventory_iff]
  constructor
  · rintro ⟨⟨other, rights, hshows, rfl⟩, name, hbelow⟩
    rw [h.split_join hshows] at hbelow
    rw [hbelow] at hshows ⊢
    exact ⟨[name], rights, List.cons_ne_nil _ _, rfl, hshows, rfl⟩
  · rintro ⟨rest, rights, -, hlength, hshows, rfl⟩
    rw [List.length_map] at hlength
    obtain ⟨name, rfl⟩ := List.length_eq_one_iff.mp (beq_iff_eq.mp hlength)
    exact ⟨⟨_, rights, hshows, rfl⟩, name, h.split_join hshows⟩

/-- The files of a category below a shown path. -/
theorem mem_projectFiles_iff (h : tree.IsProject root folder)
    (hshown : Path.isShown (Path.split path) = true) {c : FileCategory} {text : String} :
    text ∈ tree.projectFiles root c path ↔ c.discovers text = true ∧
      ∃ rest node, rest ≠ [] ∧ node.isFile = true ∧
        tree.Shows folder (Path.split path ++ rest) node ∧
          text = Path.join (Path.split path ++ rest) := by
  rw [projectFiles, List.mem_filter, List.mem_filterMap, and_comm]
  refine and_congr_right fun _ => ?_
  constructor
  · rintro ⟨⟨found, node⟩, hmem, htext⟩
    obtain ⟨hfile, hfound⟩ := Option.ite_none_right_eq_some.mp htext
    obtain ⟨rest, hne, rfl, hshows⟩ := (mem_search_split_iff h hshown).mp hmem
    refine ⟨rest, node, hne, hfile, hshows, ?_⟩
    rw [← foundPath_eq root hshown, Option.some.inj hfound]
  · rintro ⟨rest, node, hne, hfile, hshows, rfl⟩
    refine ⟨(rest.map .text, node),
      (mem_search_split_iff h hshown).mpr ⟨rest, hne, rfl, hshows⟩, ?_⟩
    rw [← foundPath_eq root hshown]
    exact if_pos hfile

theorem nodup_projectFiles (h : tree.IsProject root folder)
    (hshown : Path.isShown (Path.split path) = true) (c : FileCategory) :
    (tree.projectFiles root c path).Nodup := by
  refine List.Nodup.filter _ (nodup_filterMap_search h hshown ?_)
  rintro ⟨found, node⟩ text htext
  exact (Option.some.inj (Option.ite_none_right_eq_some.mp htext).2).symm

/-- Both inventories list the same assets below a path. -/
theorem assets_some_eq (h : tree.IsProject root folder)
    (hshown : Path.isShown (Path.split path) = true) (c : FileCategory) :
    (tree.inventory root).assets c (some path) =
      (tree.shownInventory folder).toInventory.assets c (some path) := by
  have hstart : (tree.inventory root).assets c (some path) =
      sortTexts (tree.projectFiles root c path) := by
    simp [inventory]
  rw [hstart]
  change _ = (tree.shownInventory folder).assets c (some path)
  refine sortTexts_eq (nodup_projectFiles h hshown c)
    ((PathSet.ascending _).filter _) fun text => ?_
  rw [mem_projectFiles_iff h hshown,
    MemoryInventory.mem_assets_iff (closed_shownInventory tree folder),
    h.mem_files_shownInventory_iff]
  constructor
  · rintro ⟨hdiscovers, rest, node, hne, hfile, hshows, rfl⟩
    exact ⟨⟨_, node, hshows, hfile, rfl⟩, hdiscovers, rest, hne, h.split_join hshows⟩
  · rintro ⟨⟨other, node, hshows, hfile, rfl⟩, hdiscovers, rest, hne, hbelow⟩
    rw [h.split_join hshows, Option.getD_some] at hbelow
    rw [hbelow] at hshows hdiscovers ⊢
    exact ⟨hdiscovers, rest, node, hne, hfile, hshows, rfl⟩

/-- The two folders in which assets are searched are themselves no assets. -/
theorem discovers_join_singleton_of_isShown {name : String}
    (hshown : Path.isShown [name] = true) (c : FileCategory) : c.discovers name = false := by
  rcases (Path.isShown_cons_iff.mp hshown).1 with rfl | rfl
  · cases c <;> decide
  · cases c <;> decide

/-- Both inventories list the same assets of the whole project. -/
theorem assets_none_eq (h : tree.IsProject root folder) (c : FileCategory) :
    (tree.inventory root).assets c none =
      (tree.shownInventory folder).toInventory.assets c none := by
  have hassets : Path.split Path.assetsRoot = [Path.assetsRoot] := by decide
  have hpackages : Path.split Path.packagesRoot = [Path.packagesRoot] := by decide
  have hshownAssets : Path.isShown (Path.split Path.assetsRoot) = true := by decide
  have hshownPackages : Path.isShown (Path.split Path.packagesRoot) = true := by decide
  have hstart : (tree.inventory root).assets c none =
      sortTexts (tree.projectFiles root c Path.assetsRoot ++
        tree.projectFiles root c Path.packagesRoot) := by
    simp [inventory]
  rw [hstart]
  change _ = (tree.shownInventory folder).assets c none
  refine sortTexts_eq ?_ ((PathSet.ascending _).filter _) fun text => ?_
  · refine List.nodup_append.mpr ⟨nodup_projectFiles h hshownAssets c,
      nodup_projectFiles h hshownPackages c, ?_⟩
    rintro text htext other hother rfl
    obtain ⟨-, rest, node, -, -, hshows, rfl⟩ := (mem_projectFiles_iff h hshownAssets).mp htext
    obtain ⟨-, rest', node', -, -, hshows', hsame⟩ :=
      (mem_projectFiles_iff h hshownPackages).mp hother
    rw [Path.join_inj (h.isSegment hshows) (h.isSegment hshows'), hassets, hpackages] at hsame
    exact absurd (List.cons.inj hsame).1 (by decide)
  · rw [List.mem_append, mem_projectFiles_iff h hshownAssets, mem_projectFiles_iff h hshownPackages,
      MemoryInventory.assets_none, List.mem_filter, h.mem_files_shownInventory_iff, hassets,
      hpackages]
    constructor
    · rintro (⟨hdiscovers, rest, node, -, hfile, hshows, rfl⟩ |
        ⟨hdiscovers, rest, node, -, hfile, hshows, rfl⟩)
      · exact ⟨⟨_, node, hshows, hfile, rfl⟩, hdiscovers⟩
      · exact ⟨⟨_, node, hshows, hfile, rfl⟩, hdiscovers⟩
    · rintro ⟨⟨whole, node, hshows, hfile, rfl⟩, hdiscovers⟩
      obtain ⟨name, rest, rfl⟩ := List.exists_cons_of_ne_nil hshows.ne_nil
      have hrest : rest ≠ [] := by
        rintro rfl
        rw [Path.join_singleton, discovers_join_singleton_of_isShown hshows.1] at hdiscovers
        cases hdiscovers
      rcases (Path.isShown_cons_iff.mp hshows.1).1 with rfl | rfl
      · exact Or.inl ⟨hdiscovers, rest, node, hrest, hfile, hshows, rfl⟩
      · exact Or.inr ⟨hdiscovers, rest, node, hrest, hfile, hshows, rfl⟩

end Answers

end FileTree
end AssetAudit
