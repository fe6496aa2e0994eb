import AssetAudit.Inventory.Disk
import AssetAudit.Proofs.FollowedNames
import AssetAudit.Proofs.Segments

/-!
# Path texts that lead into a file tree

A path text is taken apart into names, and the names are followed.  This file says what that comes
to for texts that are put below another text, as those of queries are.

* `Location.ofText_eq_ok_iff` says which texts can be taken apart, and `FileTree.resolve_eq_ok_iff`
  where a text leads.
* `Location.namesIn_append_slash`: a slash cuts a path text, so the names of a text below another
  text are those of both (`Location.namesIn_joinPath`).
* `FileTree.QueryLeads` says where the names of a query lead that is put below a root.  It can be
  cut and put together like `FileTree.Leads`, on which it is built.
* `FileTree.resolve_eq_ok_iff`: a text leads where its names lead, if it is not too long and there
  is something.
-/

namespace AssetAudit

open AssetAudit.Path (IsSegment)

/-! ## The ends of a canonical text -/

namespace Path

theorem notMem_slash_of_isSegment {name : String} (h : IsSegment name) : '/' ∉ name.toList :=
  fun hmem => absurd (h.2 '/' hmem) (by decide)

/-- A canonical text does not start with a slash. -/
theorem head?_join_ne_slash {segments : List String} (h : ∀ name ∈ segments, IsSegment name) :
    (join segments).toList.head? ≠ some '/' := by
  cases segments with
  | nil => decide
  | cons name rest =>
    have hname := h name List.mem_cons_self
    have hhead : (join (name :: rest)).toList.head? = name.toList.head? := by
      by_cases hnil : rest = []
      · rw [hnil, join_singleton]
      · rw [join_cons_of_ne_nil name hnil, String.toList_append, String.toList_append,
          List.append_assoc, List.head?_append_of_ne_nil _ (toList_ne_nil_of_isSegment hname)]
    rw [hhead]
    exact fun hslash => notMem_slash_of_isSegment hname (List.mem_of_head? hslash)

/-- A canonical text does not end in a slash. -/
theorem getLast?_join_ne_slash {segments : List String} (h : ∀ name ∈ segments, IsSegment name) :
    (join segments).toList.getLast? ≠ some '/' := by
  cases segments using List.reverseRecOn with
  | nil => decide
  | append_singleton front name =>
    have hname := h name (List.mem_append_right _ List.mem_cons_self)
    have hlast : (join (front ++ [name])).toList.getLast? = name.toList.getLast? := by
      by_cases hnil : front = []
      · rw [hnil, List.nil_append, join_singleton]
      · rw [join_append_of_ne_nil hnil (List.cons_ne_nil name []), join_singleton,
          String.toList_append, List.getLast?_append_of_ne_nil _ (toList_ne_nil_of_isSegment hname)]
    rw [hlast]
    exact fun hslash => notMem_slash_of_isSegment hname (List.mem_of_getLast? hslash)

end Path

/-! ## The names in a path text -/

namespace Location

/-- **Which texts can be taken apart**, and into what. -/
theorem ofText_eq_ok_iff {text : String} {l : Location} :
    ofText text = .ok l ↔
      '\x00' ∉ text.toList ∧ text.utf8ByteSize ≤ maxBytes ∧ text ≠ "" ∧
        l = ⟨text.toList.head? == some '/', namesIn text, text.toList.getLast? == some '/'⟩ := by
  have hempty : text.isEmpty = true ↔ text = "" := String.isEmpty_iff
  rw [ofText]
  split
  · next hnul =>
    rw [List.contains_iff_mem] at hnul
    simp [hnul]
  · next hnul =>
    rw [List.contains_iff_mem] at hnul
    split
    · next hlength => simp [Nat.not_le.mpr hlength]
    · next hlength =>
      split
      · next hnone => simp [hempty.mp hnone]
      · next hsome =>
        have hne : text ≠ "" := fun h => hsome (hempty.mpr h)
        simp [hnul, Nat.not_lt.mp hlength, hne, eq_comm]

/-- A slash cuts a path text. -/
theorem namesIn_append_slash (a b : String) :
    namesIn (a ++ "/" ++ b) = namesIn a ++ namesIn b := by
  have hlist : (a ++ "/" ++ b).toList = a.toList ++ '/' :: b.toList := by simp
  rw [namesIn, hlist, List.splitOn, List.splitOnP_append_cons _ _ (by decide), List.filter_append,
    List.map_append]
  rfl

/-- Segments are the names in their text. -/
theorem namesIn_join {segments : List String} (h : ∀ name ∈ segments, IsSegment name) :
    namesIn (Path.join segments) = segments.map .text := by
  have hone : ∀ name, IsSegment name → namesIn name = [.text name] := by
    intro name hname
    have hne : name.toList.isEmpty = false := by
      simpa using Path.toList_ne_nil_of_isSegment hname
    have hslash : ∀ c ∈ name.toList, (c == '/') = false := by
      intro c hc
      rw [beq_eq_false_iff_ne]
      rintro rfl
      exact Path.notMem_slash_of_isSegment hname hc
    rw [namesIn, List.splitOn, List.splitOnP_eq_singleton hslash,
      List.filter_cons_of_pos (by simp [hne])]
    simp
  induction segments with
  | nil => rfl
  | cons name rest ih =>
    have hname := hone name (h name List.mem_cons_self)
    have hrest := ih fun other hother => h other (List.mem_cons_of_mem _ hother)
    by_cases hnil : rest = []
    · rw [hnil, Path.join_singleton, hname]
      rfl
    · rw [Path.join_cons_of_ne_nil name hnil, namesIn_append_slash, hname, hrest,
        List.singleton_append, List.map_cons]

/-- The names in a text below another text are those of both. -/
theorem namesIn_joinPath (parent child : String) :
    namesIn (joinPath parent child) = namesIn parent ++ namesIn child := by
  rw [joinPath]
  split
  · next hparent =>
    rw [Bool.or_eq_true, String.isEmpty_iff, beq_iff_eq] at hparent
    rcases hparent with rfl | hslash
    · rw [String.empty_append]
      rfl
    · obtain ⟨front, rfl⟩ := exists_eq_append_of_getLast? hslash
      show namesIn (front ++ "/" ++ child) = namesIn (front ++ "/") ++ namesIn child
      have hcut := namesIn_append_slash front ""
      rw [String.append_empty] at hcut
      rw [namesIn_append_slash, hcut]
      exact congrArg (· ++ namesIn child) (List.append_nil _).symm
  · exact namesIn_append_slash parent child

/-- A text below another text starts like that one. -/
theorem head?_joinPath {parent : String} (hne : parent ≠ "") (child : String) :
    (joinPath parent child).toList.head? = parent.toList.head? := by
  have hlist : parent.toList ≠ [] := fun hnil => hne (String.toList_eq_nil_iff.mp hnil)
  rw [joinPath]
  split
  · rw [String.toList_append, List.head?_append_of_ne_nil _ hlist]
  · rw [String.toList_append, String.toList_append, List.append_assoc,
      List.head?_append_of_ne_nil _ hlist]

end Location

/-! ## A text below another text -/

@[simp] theorem pathBelow_nil (root : String) : pathBelow root [] = root := rfl

theorem pathBelow_of_ne_nil (root : String) {names : List String} (h : names ≠ []) :
    pathBelow root names = joinPath root (Path.join names) :=
  if_neg (by simpa using h)

/-- A text below another one ends like the text that is put there. -/
theorem getLast?_pathBelow (root : String) {names : List String}
    (hnames : ∀ name ∈ names, IsSegment name) (hne : names ≠ []) :
    (pathBelow root names).toList.getLast? = (Path.join names).toList.getLast? := by
  have hjoin : (Path.join names).toList ≠ [] := fun hempty =>
    hne ((Path.join_eq_empty_iff hnames).mp (String.toList_eq_nil_iff.mp hempty))
  rw [pathBelow_of_ne_nil root hne, joinPath]
  split <;> simp only [String.toList_append, List.getLast?_append_of_ne_nil _ hjoin]

theorem pathBelow_ne_empty (root : String) {names : List String}
    (hnames : ∀ name ∈ names, IsSegment name) (hne : names ≠ []) : pathBelow root names ≠ "" := by
  intro htext
  have hlast := getLast?_pathBelow root hnames hne
  rw [htext] at hlast
  have hempty := List.getLast?_eq_none_iff.mp hlast.symm
  exact hne ((Path.join_eq_empty_iff hnames).mp (String.toList_eq_nil_iff.mp hempty))

namespace Location

/-- The names in a text below a root are those of the root and those that are put there. -/
theorem namesIn_pathBelow (root : String) {names : List String}
    (hnames : ∀ name ∈ names, IsSegment name) :
    namesIn (pathBelow root names) = namesIn root ++ names.map .text := by
  by_cases hnil : names = []
  · rw [hnil, pathBelow_nil, List.map_nil, List.append_nil]
  · rw [pathBelow_of_ne_nil root hnil, namesIn_joinPath, namesIn_join hnames]

end Location

/-! ## What answers repeat -/

/-- The segments that answers repeat are segments of the query. -/
theorem keptSegments_sublist (root : String) (query : List String) :
    (keptSegments root query).Sublist query := by
  unfold keptSegments
  split
  · split
    · exact List.filter_sublist.cons_cons _
    · exact List.filter_sublist.cons _
  · exact List.filter_sublist

/-- Without `.` all segments are repeated. -/
theorem keptSegments_of_notMem (root : String) {query : List String} (h : "." ∉ query) :
    keptSegments root query = query := by
  unfold keptSegments
  split
  · exact absurd List.mem_cons_self h
  · refine List.filter_eq_self.mpr fun name hname => ?_
    rw [bne_iff_ne]
    rintro rfl
    exact h hname

/-- Names that are texts are what they look like. -/
theorem FileName.map_text_map_shown {names : List FileName}
    (h : ∀ name ∈ names, name.isText = true) : (names.map shown).map text = names := by
  rw [List.map_map]
  exact (List.map_congr_left fun name hname => (eq_text_shown (h name hname)).symm).trans
    (List.map_id names)

/-- The name for staying where one is can be left out before or after a text is taken for a name. -/
theorem FileName.filter_map_text (names : List String) :
    (names.map FileName.text).filter (· != .here) = (names.filter (· != ".")).map .text := by
  rw [List.filter_map]
  refine congrArg (List.map _) (List.filter_congr fun name _ => ?_)
  rw [Function.comp_apply, Bool.eq_iff_iff, bne_iff_ne, bne_iff_ne, FileName.here, ne_eq,
    FileName.text.injEq]

namespace FileTree

variable {tree : FileTree}

/-! ## Following texts -/

/-- Where a path text starts. -/
def startIn (tree : FileTree) (text : String) : List FileName :=
  if text.toList.head? == some '/' then [] else tree.workingFolder

/-- A text below a root starts where the root starts. -/
theorem startIn_pathBelow (tree : FileTree) (root : String) {names : List String}
    (hnames : ∀ name ∈ names, IsSegment name) :
    tree.startIn (pathBelow root names) = tree.startIn root := by
  by_cases hnil : names = []
  · rw [hnil, pathBelow_nil]
  · rw [pathBelow_of_ne_nil root hnil, startIn, startIn]
    by_cases hroot : root = ""
    · have hhead : joinPath root (Path.join names) = Path.join names := by
        rw [hroot]
        rfl
      rw [hhead, beq_eq_false_iff_ne.mpr (Path.head?_join_ne_slash hnames), hroot]
      rfl
    · rw [Location.head?_joinPath hroot]

/-- **Where the names of a query lead** that is put below a root.  How long the text is does not
count. -/
def QueryLeads (tree : FileTree) (root : String) (query : List String) (goal : List FileName) :
    Prop :=
  ∃ links ≤ maxLinks,
    tree.Leads (tree.startIn root) (Location.namesIn root ++ query.map .text) goal links

/-- A query is a text of its own. -/
theorem queryLeads_pathBelow_iff {root : String} {query : List String} {goal : List FileName}
    (hquery : ∀ name ∈ query, IsSegment name) :
    tree.QueryLeads (pathBelow root query) [] goal ↔ tree.QueryLeads root query goal := by
  rw [QueryLeads, QueryLeads, startIn_pathBelow tree root hquery,
    Location.namesIn_pathBelow root hquery, List.map_nil, List.append_nil]

namespace QueryLeads

variable {root : String} {query more : List String} {goal goal' middle : List FileName}

/-- A query leads to one path only. -/
theorem goal_unique (h : tree.QueryLeads root query goal) (h' : tree.QueryLeads root query goal') :
    goal = goal' := by
  obtain ⟨links, -, hleads⟩ := h
  obtain ⟨links', -, hleads'⟩ := h'
  exact hleads.goal_unique hleads'

/-- **More names can follow a query**, if there are no links among them. -/
theorem append (h : tree.QueryLeads root query middle)
    (hmore : tree.Leads middle (more.map .text) goal 0) :
    tree.QueryLeads root (query ++ more) goal := by
  obtain ⟨links, hle, hleads⟩ := h
  refine ⟨links, hle, ?_⟩
  rw [List.map_append, ← List.append_assoc]
  exact hleads.append hmore

/-- **A query is followed in two parts.** -/
theorem exists_of_append (h : tree.QueryLeads root (query ++ more) goal) :
    ∃ middle links, tree.QueryLeads root query middle ∧
      tree.Leads middle (more.map .text) goal links := by
  obtain ⟨links, hle, hleads⟩ := h
  rw [List.map_append, ← List.append_assoc] at hleads
  obtain ⟨middle, before, after, hfront, hback, rfl⟩ := hleads.exists_of_append
  exact ⟨middle, after, ⟨before, Nat.le_of_add_right_le hle, hfront⟩, hback⟩

/-- Names that stay in place can be left out of a query. -/
theorem filter_ne_dot (h : tree.QueryLeads root query goal) :
    tree.QueryLeads root (query.filter (· != ".")) goal := by
  obtain ⟨links, hle, hleads⟩ := h
  obtain ⟨middle, before, after, hfront, hback, rfl⟩ := hleads.exists_of_append
  refine ⟨_, hle, hfront.append ?_⟩
  rw [← FileName.filter_map_text]
  exact hback.filter_ne_here

end QueryLeads

/-- The location of a text is where its names lead. -/
theorem locate_eq_ok_iff {text : String} {l : Location} (hl : Location.ofText text = .ok l)
    {goal : List FileName} : tree.locate l = .ok goal ↔ tree.QueryLeads text [] goal := by
  obtain ⟨-, -, -, rfl⟩ := Location.ofText_eq_ok_iff.mp hl
  rw [locate, follow_eq_ok_iff, QueryLeads, List.map_nil, List.append_nil]
  rfl

/-- **A text leads where its names lead**, to a node; if it ends in a slash, to a folder. -/
theorem resolve_eq_ok_iff {text : String} {goal : List FileName} :
    tree.resolve text = .ok goal ↔
      ∃ l node, Location.ofText text = .ok l ∧ tree.QueryLeads text [] goal ∧
        tree.node? goal = some node ∧ (l.folderOnly = true → node.isFolder = true) := by
  constructor
  · intro h
    rw [resolve] at h
    cases hl : Location.ofText text with
    | error failure => simp [hl, bind, Except.bind] at h
    | ok l =>
      cases hlocate : tree.locate l with
      | error failure => simp [hl, hlocate, bind, Except.bind] at h
      | ok found =>
        cases hnode : tree.node? found with
        | none => simp [hl, hlocate, hnode, bind, Except.bind] at h
        | some node =>
          simp only [hl, hlocate, hnode, bind, Except.bind] at h
          split at h
          · cases h
          · next hfolder =>
            cases h
            rw [Bool.and_eq_true, not_and, Bool.not_eq_true, Bool.not_eq_false'] at hfolder
            exact ⟨l, node, rfl, (locate_eq_ok_iff hl).mp hlocate, hnode, hfolder⟩
  · rintro ⟨l, node, hl, hleads, hnode, hfolder⟩
    have hlocate := (locate_eq_ok_iff hl).mpr hleads
    have hpasses : ¬ (l.folderOnly && !node.isFolder) = true := by
      rw [Bool.and_eq_true, not_and, Bool.not_eq_true, Bool.not_eq_false']
      exact hfolder
    simp only [resolve, hl, hlocate, hnode, bind, Except.bind, if_neg hpasses]

theorem pathExists_iff {text : String} :
    tree.pathExists text = true ↔ ∃ goal, tree.resolve text = .ok goal := by
  rw [pathExists]
  cases tree.resolve text <;> simp

/-- A text that leads anywhere is not too long. -/
theorem utf8ByteSize_le_of_resolve {text : String} {goal : List FileName}
    (h : tree.resolve text = .ok goal) : text.utf8ByteSize ≤ Location.maxBytes := by
  obtain ⟨l, node, hl, -⟩ := resolve_eq_ok_iff.mp h
  exact (Location.ofText_eq_ok_iff.mp hl).2.1

/-- A text that leads anywhere holds no NUL. -/
theorem nul_notMem_of_resolve {text : String} {goal : List FileName}
    (h : tree.resolve text = .ok goal) : '\x00' ∉ text.toList := by
  obtain ⟨l, node, hl, -⟩ := resolve_eq_ok_iff.mp h
  exact (Location.ofText_eq_ok_iff.mp hl).1

/-- The names of a text that leads anywhere lead there. -/
theorem queryLeads_of_resolve {root : String} {query : List String}
    (hquery : ∀ name ∈ query, IsSegment name) {goal : List FileName}
    (h : tree.resolve (pathBelow root query) = .ok goal) : tree.QueryLeads root query goal := by
  obtain ⟨l, node, -, hleads, -⟩ := resolve_eq_ok_iff.mp h
  exact (queryLeads_pathBelow_iff hquery).mp hleads

/-- Does the path text lead to the folder?  The empty text stands for the working folder here, as it
does when something is put below it. -/
def LeadsTo (tree : FileTree) (root : String) (folder : List FileName) : Prop :=
  (root = "" ∧ folder = tree.workingFolder) ∨ tree.resolve root = .ok folder

theorem LeadsTo.queryLeads {root : String} {folder : List FileName}
    (h : tree.LeadsTo root folder) : tree.QueryLeads root [] folder := by
  rcases h with ⟨rfl, rfl⟩ | h
  · exact ⟨0, Nat.zero_le _, .nil⟩
  · have hresolve : tree.resolve (pathBelow root []) = .ok folder := h
    have hquery : ∀ name ∈ ([] : List String), IsSegment name := nofun
    exact queryLeads_of_resolve hquery hresolve

end FileTree
end AssetAudit
