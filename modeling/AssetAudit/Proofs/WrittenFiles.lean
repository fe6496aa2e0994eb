import AssetAudit.Proofs.TreeWalks

/-!
# Writing a file

A file is written into a folder that is there, as a new file or in the place of one that was there.
`FileTree.IsWritten tree content target written` says that the tree `written` results from `tree` in
this way.  `FileTree.IsWrittenAt` adds that it is the file to which the names of a path text lead,
and `FileTree.exists_isWrittenAt_of_write` says that writing comes down to this.

Such a tree differs from the old one in a single file, so hardly anything else that can be asked
about a tree differs.

* `IsWritten.way?_eq`: there are the same folders and links as before, with the same rights, so
  names lead where they led before (`IsWritten.queryLeads_iff`).
* `IsWritten.resolve_of_resolve` and `IsWritten.resolve_cases`: what a text led to it still leads
  to, and where it leads now and did not before there is the new file.
* `IsWritten.inventory_eq`: a project answers as before, if no category discovers files with the
  name of the new one.

A link decides which file it is: a text whose last name is a link leads to a file of another name,
and only without a link there is the name of the file the last name of the text
(`IsWrittenAt.getLast?_eq`).
-/

namespace AssetAudit

open AssetAudit.Path (IsSegment mem_of_mem_splitOnP)

/-- Whether a file is discovered depends on its bare name. -/
theorem FileCategory.discovers_join_append (c : FileCategory) (folders : List String)
    {name : String} (h : IsSegment name) :
    c.discovers (Path.join (folders ++ [name])) = c.discovers name := by
  have hname : Path.nameOf (Path.split (Path.join (folders ++ [name]))) =
      Path.nameOf (Path.split name) := by
    by_cases hnil : folders = []
    · rw [hnil, List.nil_append, Path.join_singleton]
    · rw [Path.join_append_of_ne_nil hnil (List.cons_ne_nil name []), Path.split_append_slash,
        Path.join_singleton, Path.split_of_isSegment h, Path.nameOf_append_singleton]
      rfl
  rw [discovers, discovers, hname]

namespace FileTree

/-! ## What names are led by -/

/-- What stands at a path and leads on: a folder or a link. -/
def way? (tree : FileTree) (path : List FileName) : Option FileNode :=
  (tree.node? path).filter fun node => !node.isFile

section Ways

variable {tree : FileTree} {path : List FileName}

theorem node?_eq_folder_iff {rights : Rights} :
    tree.node? path = some (.folder rights) ↔ tree.way? path = some (.folder rights) := by
  rw [way?, Option.filter_eq_some_iff]
  exact (and_iff_left rfl).symm

theorem node?_eq_link_iff {absolute : Bool} {pieces : List FileName.Piece} :
    tree.node? path = some (.link absolute pieces) ↔
      tree.way? path = some (.link absolute pieces) := by
  rw [way?, Option.filter_eq_some_iff]
  exact (and_iff_left rfl).symm

theorem isFolderAt_iff_way? :
    tree.isFolderAt path = true ↔ ∃ rights, tree.way? path = some (.folder rights) :=
  isFolderAt_iff.trans (exists_congr fun _ => node?_eq_folder_iff)

theorem isLinkAt_iff_way? : tree.isLinkAt path = true ↔
    ∃ absolute pieces, tree.way? path = some (.link absolute pieces) := by
  rw [isLinkAt, Option.any_eq_true]
  constructor
  · rintro ⟨node, hnode, hlink⟩
    cases node with
    | folder rights => cases hlink
    | file content rights => cases hlink
    | link absolute pieces => exact ⟨absolute, pieces, node?_eq_link_iff.mp hnode⟩
  · rintro ⟨absolute, pieces, hway⟩
    exact ⟨_, node?_eq_link_iff.mpr hway, rfl⟩

theorem rightsAt_eq_way? : tree.rightsAt path =
    match tree.way? path with
    | some (.folder rights) => rights
    | _ => .none := by
  rw [rightsAt, way?]
  cases tree.node? path with
  | none => rfl
  | some node => cases node <;> rfl

end Ways

/-- **Names are led by folders and links.** -/
theorem Leads.of_way?_eq {tree other : FileTree} (h : ∀ path, other.way? path = tree.way? path)
    {place names goal : List FileName} {links : Nat} (hleads : tree.Leads place names goal links) :
    other.Leads place names goal links := by
  have hrights (path : List FileName) : other.rightsAt path = tree.rightsAt path := by
    rw [rightsAt_eq_way?, rightsAt_eq_way?, h]
  induction hleads with
  | nil => exact .nil
  | @nothing place _ _ _ hfolder hrest ih =>
    rw [isFolderAt_iff_way?, ← h, ← isFolderAt_iff_way?] at hfolder
    exact .nothing hfolder ih
  | here henter hrest ih => exact .here ((hrights _).symm ▸ henter) ih
  | up henter hrest ih => exact .up ((hrights _).symm ▸ henter) ih
  | down henter hplain hsize hnode hrest ih =>
    rw [← Bool.not_eq_true, isLinkAt_iff_way?, ← h, ← isLinkAt_iff_way?, Bool.not_eq_true] at hnode
    exact .down ((hrights _).symm ▸ henter) hplain hsize hnode ih
  | link henter hplain hsize hnode hrest ih =>
    rw [node?_eq_link_iff, ← h, ← node?_eq_link_iff] at hnode
    exact .link ((hrights _).symm ▸ henter) hplain hsize hnode ih

/-- Names between slashes lead to legal names, apart from those where they start. -/
theorem Leads.isLegal {tree : FileTree} {place names goal : List FileName} {links : Nat}
    (h : tree.Leads place names goal links) (hnames : ∀ name ∈ names, name.holdsEnd = false) :
    ∀ name ∈ goal, name ∈ place ∨ name.isLegal = true := by
  induction h with
  | nil => exact fun name hname => .inl hname
  | nothing hfolder hrest ih =>
    exact ih fun name hname => hnames name (List.mem_cons_of_mem _ hname)
  | here henter hrest ih =>
    exact ih fun name hname => hnames name (List.mem_cons_of_mem _ hname)
  | up henter hrest ih =>
    intro name hname
    exact (ih (fun name hname => hnames name (List.mem_cons_of_mem _ hname)) name hname).imp_left
      fun hplace => List.dropLast_subset _ hplace
  | @down place rest goal entered links henter hplain hsize hnode hrest ih =>
    have hends := hnames entered List.mem_cons_self
    have hlegal : entered.isLegal = true := by
      rw [FileName.isLegal, hplain, decide_eq_true hsize, hends]
      rfl
    intro name hname
    rcases ih (fun name hname => hnames name (List.mem_cons_of_mem _ hname)) name hname with
      hplace | hname
    · rcases List.mem_append.mp hplace with hplace | hplace
      · exact .inl hplace
      · exact .inr (List.mem_singleton.mp hplace ▸ hlegal)
    · exact .inr hname
  | @link place rest goal entered absolute pieces links henter hplain hsize hnode hrest ih =>
    have hall : ∀ name ∈ pieces.map (·.name) ++ rest, name.holdsEnd = false := by
      intro name hname
      rcases List.mem_append.mp hname with hname | hname
      · obtain ⟨piece, -, rfl⟩ := List.mem_map.mp hname
        exact piece.not_holdsEnd
      · exact hnames name (List.mem_cons_of_mem _ hname)
    intro name hname
    refine (ih hall name hname).imp_left fun hplace => ?_
    cases absolute with
    | true => cases hplace
    | false => exact hplace

/-! ## Trees with a written file -/

/-- One tree is another one in which a file has been written. -/
inductive IsWritten (tree : FileTree) (content : ByteArray) : List FileName → FileTree → Prop
  | new {folder : List FileName} {name : FileName} (h : tree.hasRoomFor folder name = true) :
      IsWritten tree content (folder ++ [name]) (tree.insert folder name (.file content .full))
  | replaced {target : List FileName} {old : ByteArray} {rights : Rights}
      (h : tree.node? target = some (.file old rights)) :
      IsWritten tree content target (tree.overwrite target content)

namespace IsWritten

variable {tree written : FileTree} {content : ByteArray} {target : List FileName}

/-! ### Nodes -/

/-- The file is there, with the content that was written. -/
theorem exists_node?_target (h : IsWritten tree content target written) :
    ∃ rights, written.node? target = some (.file content rights) := by
  cases h with
  | new h => exact ⟨.full, by rw [node?_insert h, if_pos rfl]⟩
  | @replaced _ old rights h => exact ⟨rights, by simp [node?_overwrite, h, overwriteEntry]⟩

/-- A new file can be read. -/
theorem node?_target_of_eq_none (h : IsWritten tree content target written)
    (hnew : tree.node? target = none) : written.node? target = some (.file content .full) := by
  cases h with
  | new h => rw [node?_insert h, if_pos rfl]
  | replaced h =>
    rw [h] at hnew
    cases hnew

/-- Nothing else has changed. -/
theorem node?_of_ne (h : IsWritten tree content target written) {path : List FileName}
    (hne : path ≠ target) : written.node? path = tree.node? path := by
  cases h with
  | new h => rw [node?_insert h, if_neg hne]
  | replaced h =>
    rw [node?_overwrite]
    cases tree.node? path with
    | none => rfl
    | some node => cases node <;> simp [overwriteEntry, hne]

/-- No folder and no link has been written over. -/
theorem way?_target (h : IsWritten tree content target written) : tree.way? target = none := by
  rw [way?]
  cases h with
  | new h =>
    rw [(hasRoomFor_iff.mp h).2.1]
    rfl
  | replaced h =>
    rw [h]
    rfl

/-- **There are the same folders and links as before.** -/
theorem way?_eq (h : IsWritten tree content target written) (path : List FileName) :
    written.way? path = tree.way? path := by
  by_cases hpath : path = target
  · obtain ⟨rights, hnode⟩ := h.exists_node?_target
    rw [hpath, h.way?_target, way?, hnode]
    rfl
  · rw [way?, way?, h.node?_of_ne hpath]

theorem isFolderAt_eq (h : IsWritten tree content target written) (path : List FileName) :
    written.isFolderAt path = tree.isFolderAt path := by
  rw [Bool.eq_iff_iff, isFolderAt_iff_way?, isFolderAt_iff_way?, h.way?_eq]

theorem rightsAt_eq (h : IsWritten tree content target written) (path : List FileName) :
    written.rightsAt path = tree.rightsAt path := by
  rw [rightsAt_eq_way?, rightsAt_eq_way?, h.way?_eq]

theorem workingFolder_eq (h : IsWritten tree content target written) :
    written.workingFolder = tree.workingFolder := by
  cases h with
  | new h => exact workingFolder_insert _ _ _ _
  | replaced h => exact workingFolder_overwrite _ _ _

/-! ### Following texts -/

/-- **Names lead where they led before.** -/
theorem queryLeads_iff (h : IsWritten tree content target written) {root : String}
    {query : List String} {goal : List FileName} :
    written.QueryLeads root query goal ↔ tree.QueryLeads root query goal := by
  have hstart : written.startIn root = tree.startIn root := by
    rw [startIn, startIn, h.workingFolder_eq]
  rw [QueryLeads, QueryLeads, hstart]
  exact exists_congr fun links => and_congr_right fun _ =>
    ⟨fun hleads => hleads.of_way?_eq fun path => (h.way?_eq path).symm,
      fun hleads => hleads.of_way?_eq h.way?_eq⟩

/-- **What a text led to it still leads to.** -/
theorem resolve_of_resolve (h : IsWritten tree content target written) {text : String}
    {goal : List FileName} (hresolve : tree.resolve text = .ok goal) :
    written.resolve text = .ok goal := by
  obtain ⟨l, node, hl, hleads, hnode, hfolder⟩ := resolve_eq_ok_iff.mp hresolve
  by_cases hgoal : goal = target
  · -- The file was there before, so nobody asked for a folder.
    have hfile : node.isFolder = false := by
      rw [← Bool.not_eq_true]
      intro hisFolder
      have hway := h.way?_target
      rw [← hgoal, way?, hnode] at hway
      cases node with
      | folder rights => cases hway
      | file content rights => cases hisFolder
      | link absolute pieces => cases hisFolder
    have hanything : ¬ l.folderOnly = true := fun hasked => by
      rw [hfolder hasked] at hfile
      cases hfile
    obtain ⟨rights, hnew⟩ := h.exists_node?_target
    exact resolve_eq_ok_iff.mpr ⟨l, _, hl, h.queryLeads_iff.mpr hleads, hgoal ▸ hnew,
      fun hasked => absurd hasked hanything⟩
  · exact resolve_eq_ok_iff.mpr ⟨l, node, hl, h.queryLeads_iff.mpr hleads,
      (h.node?_of_ne hgoal).trans hnode, hfolder⟩

/-- **Where a text leads now and did not before there is a new file.** -/
theorem resolve_cases (h : IsWritten tree content target written) {text : String}
    {goal : List FileName} (hresolve : written.resolve text = .ok goal) :
    tree.resolve text = .ok goal ∨ goal = target ∧ tree.node? target = none := by
  obtain ⟨l, node, hl, hleads, hnode, hfolder⟩ := resolve_eq_ok_iff.mp hresolve
  have hleads := h.queryLeads_iff.mp hleads
  by_cases hgoal : goal = target
  · cases hold : tree.node? target with
    | none => exact .inr ⟨hgoal, rfl⟩
    | some old =>
      obtain ⟨rights, hfile⟩ := h.exists_node?_target
      rw [hgoal, hfile] at hnode
      cases hnode
      exact .inl (resolve_eq_ok_iff.mpr ⟨l, old, hl, hleads, hgoal ▸ hold,
        fun hasked => nomatch hfolder hasked⟩)
  · exact .inl (resolve_eq_ok_iff.mpr ⟨l, node, hl, hleads,
      (h.node?_of_ne hgoal).symm.trans hnode, hfolder⟩)

/-- There is a folder at the same texts as before. -/
theorem isFolder_eq (h : IsWritten tree content target written) (text : String) :
    written.isFolder text = tree.isFolder text := by
  rw [isFolder, isFolder]
  cases hbefore : tree.resolve text with
  | ok goal => simp only [h.resolve_of_resolve hbefore, h.isFolderAt_eq]
  | error failure =>
    cases hafter : written.resolve text with
    | error failure => rfl
    | ok goal =>
      rcases h.resolve_cases hafter with hsame | ⟨rfl, -⟩
      · rw [hsame] at hbefore
        cases hbefore
      · obtain ⟨rights, hnode⟩ := h.exists_node?_target
        simp [isFolderAt, hnode, FileNode.isFolder]

/-- What is read at a path other than that of the new file is what was read before. -/
theorem read_eq (h : IsWritten tree content target written) {text : String} {goal : List FileName}
    (hresolve : tree.resolve text = .ok goal) (hne : goal ≠ target) :
    written.read text = tree.read text := by
  simp only [read, hresolve, h.resolve_of_resolve hresolve, bind, Except.bind, h.node?_of_ne hne]

/-- At a new file its content is read. -/
theorem read_target (h : IsWritten tree content target written) (hnew : tree.node? target = none)
    {text : String} (hresolve : written.resolve text = .ok target) :
    written.read text = .ok content := by
  simp [read, hresolve, h.node?_target_of_eq_none hnew, bind, Except.bind, Rights.full]

/-! ### Searching -/

/-- Nothing lies below a file. -/
theorem contents_target (h : IsWritten tree content target written) :
    written.contents target = [] := by
  refine List.eq_nil_iff_forall_not_mem.mpr ?_
  rintro ⟨path, node⟩ hmem
  obtain ⟨hne, hnode⟩ := mem_contents_iff.mp hmem
  have hfolder := isFolderAt_iff_way?.mp (isFolderAt_above hnode hne)
  rw [h.way?_eq, h.way?_target] at hfolder
  obtain ⟨rights, hrights⟩ := hfolder
  cases hrights

/-- The same entries can be listed as before. -/
theorem isListed_eq (h : IsWritten tree content target written) (folder path : List FileName) :
    written.isListed folder path = tree.isListed folder path := by
  induction path generalizing folder with
  | nil => rfl
  | cons name rest ih => rw [isListed, isListed, h.rightsAt_eq, ih]

/-- **Listing a folder** shows what it showed before to whoever passes over the new file and does
not look into files. -/
theorem filterMap_contents (h : IsWritten tree content target written) {name : FileName}
    (hlast : target.getLast? = some name) {α : Type} {f : List FileName × FileNode → Option α}
    (hcontent : ∀ path old new rights, f (path, .file old rights) = f (path, .file new rights))
    (hname : ∀ front new rights, f (front ++ [name], .file new rights) = none)
    (start : List FileName) :
    (written.contents start).filterMap f = (tree.contents start).filterMap f := by
  cases h with
  | @new folder last hroom =>
    rw [contents, contents, insert, dif_pos hroom, List.filterMap_append, List.filterMap_append]
    refine (congrArg (_ ++ ·) ?_).trans (List.append_nil _)
    by_cases hbelow : (start.isPrefixOf (folder ++ [last]) &&
        (folder ++ [last]).length != start.length) = true
    · simp only [List.filterMap_cons, if_pos hbelow, List.filterMap_nil]
      rw [Bool.and_eq_true, List.isPrefixOf_iff_prefix, bne_iff_ne] at hbelow
      obtain ⟨⟨rest, hrest⟩, hlength⟩ := hbelow
      have hne : rest ≠ [] := by
        rintro rfl
        exact hlength (by rw [← hrest, List.append_nil])
      rw [← hrest, List.getLast?_append_of_ne_nil _ hne, List.getLast?_eq_some_iff] at hlast
      obtain ⟨front, rfl⟩ := hlast
      rw [← hrest, List.drop_left, hname]
    · simp only [List.filterMap_cons, if_neg hbelow, List.filterMap_nil]
  | replaced h =>
    rw [contents, contents, overwrite, List.filterMap_map, List.filterMap_filterMap,
      List.filterMap_filterMap]
    refine List.filterMap_congr ?_
    rintro ⟨path, node⟩ -
    cases node with
    | folder rights => rfl
    | link absolute pieces => rfl
    | file old rights =>
      obtain ⟨new, hnew⟩ : ∃ new, overwriteEntry target content (path, .file old rights) =
        (path, .file new rights) := ⟨_, rfl⟩
      rw [Function.comp_apply, hnew]
      by_cases hbelow : (start.isPrefixOf path && path.length != start.length) = true
      · simp only [if_pos hbelow, Option.bind_some]
        exact hcontent _ _ _ _
      · simp only [if_neg hbelow, Option.bind_none]

/-- **A search** finds what it found before, in the same sense. -/
theorem filterMap_search (h : IsWritten tree content target written) {name : FileName}
    (hlast : target.getLast? = some name) {α : Type} {f : List FileName × FileNode → Option α}
    (hcontent : ∀ path old new rights, f (path, .file old rights) = f (path, .file new rights))
    (hname : ∀ front new rights, f (front ++ [name], .file new rights) = none) (root : String)
    (query : List String) :
    (written.search root query).filterMap f = (tree.search root query).filterMap f := by
  rw [search, search]
  cases hbefore : tree.resolve (pathBelow root query) with
  | ok start =>
    simp only [h.resolve_of_resolve hbefore, List.filterMap_filter, h.isListed_eq]
    refine h.filterMap_contents hlast (fun path old new rights => ?_) (fun front new rights => ?_)
      start
    · simp only [hcontent path old new rights]
    · simp only [hname, ite_self]
  | error failure =>
    cases hafter : written.resolve (pathBelow root query) with
    | error failure => rfl
    | ok start =>
      rcases h.resolve_cases hafter with hsame | ⟨rfl, -⟩
      · rw [hsame] at hbefore
        cases hbefore
      · simp [h.contents_target]

/-! ### Inventories -/

/-- **A project answers as before**, if no category discovers files of the new file's name. -/
theorem inventory_eq (h : IsWritten tree content target written) {name : String}
    (hlast : target.getLast? = some (.text name)) (hsegment : IsSegment name)
    (hname : ∀ c : FileCategory, c.discovers name = false) (root : String) :
    written.inventory root = tree.inventory root := by
  have hfolders (path : String) (wanted : List FileName → Bool) :
      written.projectFolders root path wanted = tree.projectFolders root path wanted :=
    congrArg sortTexts (h.filterMap_search hlast (fun _ _ _ _ => rfl) (fun _ _ _ => rfl) root _)
  have hfiles (c : FileCategory) : written.projectFiles root c = tree.projectFiles root c := by
    funext path
    simp only [projectFiles, List.filter_filterMap]
    refine h.filterMap_search hlast (fun _ _ _ _ => rfl) (fun front new rights => ?_) root _
    simp [FileNode.isFile, foundPath, ← List.append_assoc,
      FileCategory.discovers_join_append c _ hsegment, hname]
  have hexists : written.projectFolderExists root = tree.projectFolderExists root :=
    funext fun path => h.isFolder_eq _
  simp only [inventory, hexists, hfolders, hfiles]

end IsWritten

/-! ## Writing at a text -/

/-- What stands at the last name of a path text.  A link there is not followed. -/
def lastNode? (tree : FileTree) (text : String) : Option FileNode :=
  match Location.ofText text with
  | .error _ => none
  | .ok l =>
      match tree.locate { l with names := l.names.dropLast }, l.names.getLast? with
      | .ok folder, some name => tree.node? (folder ++ [name])
      | _, _ => none

/-- The path to which the names of a path text lead; there need be nothing at its end. -/
def placeOf? (tree : FileTree) (text : String) : Option (List FileName) :=
  match Location.ofText text with
  | .error _ => none
  | .ok l => (tree.locate l).toOption

/-- Do two path texts lead to one place?  It makes no difference whether there is something. -/
def isSamePlace (tree : FileTree) (text other : String) : Bool :=
  match tree.placeOf? text, tree.placeOf? other with
  | some place, some place' => place == place'
  | _, _ => false

theorem placeOf?_of_queryLeads {tree : FileTree} {text : String} {l : Location}
    (hl : Location.ofText text = .ok l) {goal : List FileName} (h : tree.QueryLeads text [] goal) :
    tree.placeOf? text = some goal := by
  simp only [placeOf?, hl, (locate_eq_ok_iff hl).mpr h, Except.toOption]

/-- A text that ends in a name leads to what stands there, unless that is a link. -/
theorem goal_of_queryLeads {tree : FileTree} {text : String} {l : Location}
    (hl : Location.ofText text = .ok l) {front : List FileName} {name : FileName}
    (hnames : Location.namesIn text = front ++ [name]) (hplain : name.isPlain = true)
    {goal : List FileName} (h : tree.QueryLeads text [] goal) :
    ∃ folder, tree.lastNode? text = tree.node? (folder ++ [name]) ∧
      ((tree.lastNode? text).any FileNode.isLink = false → goal = folder ++ [name]) := by
  obtain ⟨links, hle, hleads⟩ := h
  rw [List.map_nil, List.append_nil, hnames] at hleads
  obtain ⟨folder, before, after, hfront, hback, rfl⟩ := hleads.exists_of_append
  have hentry : tree.lastNode? text = tree.node? (folder ++ [name]) := by
    obtain ⟨-, -, -, rfl⟩ := Location.ofText_eq_ok_iff.mp hl
    have hlocate := follow_eq_ok_iff.mpr ⟨before, Nat.le_of_add_right_le hle, hfront⟩
    simp only [lastNode?, hl, locate, startOf, hnames, List.dropLast_concat, List.getLast?_concat]
    rw [startIn] at hlocate
    rw [hlocate]
  refine ⟨folder, hentry, fun hlink => ?_⟩
  cases hback with
  | nothing hfolder hrest => cases hplain
  | here henter hrest => cases hplain
  | up henter hrest => cases hplain
  | down henter _ hsize hnode hrest =>
    cases hrest
    rfl
  | link henter _ hsize hnode hrest =>
    rw [hentry, hnode] at hlink
    cases hlink

/-- Without an entry there is nothing to which the text leads. -/
theorem resolve_ne_ok_of_lastNode?_eq_none {tree : FileTree} {text : String} {front : List FileName}
    {name : FileName} (hnames : Location.namesIn text = front ++ [name])
    (hplain : name.isPlain = true) (hentry : tree.lastNode? text = none) (goal : List FileName) :
    tree.resolve text ≠ .ok goal := by
  intro hresolve
  obtain ⟨l, node, hl, hleads, hnode, -⟩ := resolve_eq_ok_iff.mp hresolve
  obtain ⟨folder, hsame, hgoal⟩ := goal_of_queryLeads hl hnames hplain hleads
  rw [hentry] at hgoal hsame
  rw [hgoal rfl, ← hsame] at hnode
  cases hnode

/-- The names in a text that can be taken apart hold no slash and no NUL. -/
theorem holdsEnd_of_mem_namesIn {text : String} {l : Location} (hl : Location.ofText text = .ok l)
    {name : FileName} (hname : name ∈ Location.namesIn text) : name.holdsEnd = false := by
  obtain ⟨chars, hchars, rfl⟩ := List.mem_map.mp hname
  obtain ⟨hpiece, -⟩ := List.mem_filter.mp hchars
  have hslash : '/' ∉ chars := fun hmem => absurd (mem_of_mem_splitOnP hpiece hmem).2 (by decide)
  have hnul : '\x00' ∉ chars := fun hmem =>
    (Location.ofText_eq_ok_iff.mp hl).1 (mem_of_mem_splitOnP hpiece hmem).1
  simp [FileName.holdsEnd, hslash, hnul]

/-- What a text leads to has legal names. -/
theorem isLegal_of_queryLeads {tree : FileTree} {text : String} {l : Location}
    (hl : Location.ofText text = .ok l) {goal : List FileName} (h : tree.QueryLeads text [] goal) :
    ∀ name ∈ goal, name.isLegal = true := by
  obtain ⟨links, -, hleads⟩ := h
  rw [List.map_nil, List.append_nil] at hleads
  have hworking : tree.isFolderAt tree.workingFolder = true := by
    rcases tree.works_in with hnil | ⟨rights, hmem⟩
    · rw [hnil]
      rfl
    · exact isFolderAt_iff.mpr ⟨rights, (node?_eq_some_iff (tree.below _ hmem)).mpr hmem⟩
  intro name hname
  rcases hleads.isLegal (fun name => holdsEnd_of_mem_namesIn hl) name hname with hstart | hlegal
  · rw [startIn] at hstart
    split at hstart
    · cases hstart
    · exact isLegal_of_isFolderAt hworking hstart
  · exact hlegal

/-- A file has been written to which the names of a text lead. -/
structure IsWrittenAt (tree : FileTree) (text : String) (content : ByteArray)
    (target : List FileName) (written : FileTree) : Prop where
  isWritten : IsWritten tree content target written
  location : ∃ l, Location.ofText text = .ok l
  leads : tree.QueryLeads text [] target

/-- A text for another place leads to another file. -/
theorem IsWrittenAt.ne_target {tree written : FileTree} {text other : String} {content : ByteArray}
    {target : List FileName} (h : IsWrittenAt tree text content target written)
    (hother : tree.isSamePlace other text = false) {l : Location}
    (hl : Location.ofText other = .ok l) {goal : List FileName}
    (hgoal : tree.QueryLeads other [] goal) : goal ≠ target := by
  obtain ⟨l', hl'⟩ := h.location
  rw [isSamePlace, placeOf?_of_queryLeads hl hgoal, placeOf?_of_queryLeads hl' h.leads] at hother
  exact beq_eq_false_iff_ne.mp hother

/-- **The file has the last name of the text**, if there is no link of that name. -/
theorem IsWrittenAt.getLast?_eq {tree written : FileTree} {text : String} {content : ByteArray}
    {target : List FileName} (h : IsWrittenAt tree text content target written)
    {front : List FileName} {name : FileName} (hnames : Location.namesIn text = front ++ [name])
    (hplain : name.isPlain = true) (hlink : (tree.lastNode? text).any FileNode.isLink = false) :
    target.getLast? = some name := by
  obtain ⟨l, hl⟩ := h.location
  obtain ⟨folder, -, hgoal⟩ := goal_of_queryLeads hl hnames hplain h.leads
  rw [hgoal hlink, List.getLast?_concat]

/-- What a file that is written at a path does to the tree. -/
theorem writeAt_cases {tree written : FileTree} {path : List FileName} {content : ByteArray}
    (h : tree.writeAt path content = .ok written) :
    (∃ old rights, tree.node? path = some (.file old rights) ∧
        written = tree.overwrite path content) ∨
      ∃ folder name, path = folder ++ [name] ∧ tree.node? path = none ∧
        tree.isFolderAt folder = true ∧
        written = tree.insert folder name (.file content .full) := by
  rw [writeAt] at h
  split at h
  · next old rights hnode =>
    split at h
    · exact .inl ⟨old, rights, hnode, (Except.ok.inj h).symm⟩
    · cases h
  · next name hnode hlast =>
    obtain ⟨folder, rfl⟩ := List.getLast?_eq_some_iff.mp hlast
    rw [List.dropLast_concat] at h
    cases hrights : tree.folderRights folder with
    | error failure => simp [hrights, bind, Except.bind] at h
    | ok rights =>
      simp only [hrights, bind, Except.bind] at h
      split at h
      · exact .inr ⟨folder, name, rfl, hnode,
          isFolderAt_iff.mpr ⟨rights, folderRights_eq_ok_iff.mp hrights⟩, (Except.ok.inj h).symm⟩
      · cases h
  · cases h

/-- **Writing writes the file to which the text leads.** -/
theorem exists_isWrittenAt_of_write {tree written : FileTree} {text : String} {content : ByteArray}
    (h : tree.write text content = .ok written) :
    ∃ target, IsWrittenAt tree text content target written := by
  rw [write] at h
  cases hl : Location.ofText text with
  | error failure => simp [hl, bind, Except.bind] at h
  | ok l =>
    simp only [hl, bind, Except.bind] at h
    split at h
    · -- A text that asks for a folder is refused in one way or another.
      split at h
      · cases h
      · split at h <;> cases h
    · cases hlocate : tree.locate l with
      | error failure => simp [hlocate] at h
      | ok target =>
        simp only [hlocate] at h
        have hleads := (locate_eq_ok_iff hl).mp hlocate
        refine ⟨target, ?_, ⟨l, hl⟩, hleads⟩
        rcases writeAt_cases h with ⟨old, rights, hnode, rfl⟩ |
          ⟨folder, name, rfl, hnode, hfolder, rfl⟩
        · exact .replaced hnode
        · exact .new (hasRoomFor_iff.mpr ⟨hfolder, hnode,
            isLegal_of_queryLeads hl hleads name List.mem_concat_self⟩)

end FileTree
end AssetAudit
