import AssetAudit.FileTree.Location
import Mathlib.Data.List.Induction
import Mathlib.Data.List.Nodup

/-!
# Where names lead

Names are followed one at a time, links are replaced by their names, and the number of links is
limited.  What one name of each kind does is said once (`FileTree.followNames_nothing` and the
lemmas after it).  `FileTree.Leads tree place names goal links` says the same without a limit: the
names lead from one path to another through so many links.  `FileTree.follow_eq_ok_iff` is the
connection between the two.

The relation can be cut and put together where the program cannot: names are followed in two parts,
and the links of the parts add up (`Leads.append`, `Leads.exists_of_append`).  Names that stay in
place can be left out (`Leads.filter_ne_here`).  Names without a link on the way lead straight down,
if the program may enter the folders (`leads_iff_of_isStraight`), and the names of an entry are such
names (`isStraight_of_mem`).
-/

namespace AssetAudit
namespace FileTree

variable {tree : FileTree}

/-! ## Nodes -/

/-- Looking up a path finds the node that is listed with it. -/
theorem node?_eq_some_iff {path : List FileName} {node : FileNode} (hne : path ≠ []) :
    tree.node? path = some node ↔ (path, node) ∈ tree.nodes := by
  refine ⟨mem_of_node?_eq_some hne, fun hmem => ?_⟩
  cases hfound : tree.node? path with
  | none => exact absurd (List.mem_map_of_mem hmem) (notMem_of_node?_eq_none hfound)
  | some other =>
    have hother := mem_of_node?_eq_some hne hfound
    have hsame := List.inj_on_of_nodup_map tree.distinct hother hmem rfl
    rw [(Prod.mk.inj hsame).2]

/-- **Above every node there are only folders.** -/
theorem isFolderAt_above {P Q : List FileName} {node : FileNode}
    (hmem : (P ++ Q, node) ∈ tree.nodes) (hQ : Q ≠ []) : tree.isFolderAt P = true := by
  induction Q using List.reverseRecOn generalizing node with
  | nil => exact absurd rfl hQ
  | append_singleton Q name ih =>
    rw [← List.append_assoc] at hmem
    have habove := tree.closed _ hmem
    rw [List.dropLast_concat] at habove
    rcases habove with hnil | ⟨rights, hfolder⟩
    · rw [(List.append_eq_nil_iff.mp hnil).1]
      exact isFolderAt_iff.mpr ⟨_, rfl⟩
    · by_cases hnil : Q = []
      · rw [hnil, List.append_nil] at hfolder
        exact isFolderAt_iff.mpr
          ⟨rights, (node?_eq_some_iff (tree.below _ hfolder)).mpr hfolder⟩
      · exact ih hfolder hnil

/-- The contents of a folder are the nodes strictly below it. -/
theorem mem_contents_iff {folder path : List FileName} {node : FileNode} :
    (path, node) ∈ tree.contents folder ↔ path ≠ [] ∧ (folder ++ path, node) ∈ tree.nodes := by
  rw [contents, List.mem_filterMap]
  constructor
  · rintro ⟨⟨whole, found⟩, hmem, hentry⟩
    simp only [Option.ite_none_right_eq_some, Option.some.injEq, Prod.mk.injEq, Bool.and_eq_true,
      List.isPrefixOf_iff_prefix, bne_iff_ne] at hentry
    obtain ⟨⟨⟨rest, rfl⟩, hlength⟩, rfl, rfl⟩ := hentry
    rw [List.drop_left]
    refine ⟨?_, hmem⟩
    rintro rfl
    exact hlength (by rw [List.append_nil])
  · rintro ⟨hne, hmem⟩
    refine ⟨(folder ++ path, node), hmem, ?_⟩
    have hbegins : folder.isPrefixOf (folder ++ path) = true :=
      List.isPrefixOf_iff_prefix.mpr (List.prefix_append _ _)
    simp [hbegins, hne]

/-- No path occurs twice in the contents of a folder. -/
theorem pairwise_contents (tree : FileTree) (folder : List FileName) :
    (tree.contents folder).Pairwise fun a b => a.1 ≠ b.1 := by
  have hnodes : tree.nodes.Pairwise fun a b => a.1 ≠ b.1 := List.pairwise_map.mp tree.distinct
  rw [contents, List.pairwise_filterMap]
  refine hnodes.imp fun {a a'} hne b hb b' hb' hsame => hne ?_
  simp only [Option.ite_none_right_eq_some, Option.some.injEq, Bool.and_eq_true,
    List.isPrefixOf_iff_prefix] at hb hb'
  obtain ⟨⟨⟨rest, hrest⟩, -⟩, rfl⟩ := hb
  obtain ⟨⟨⟨rest', hrest'⟩, -⟩, rfl⟩ := hb'
  rw [← hrest, ← hrest', List.drop_left, List.drop_left] at hsame
  rw [← hrest, ← hrest', show rest = rest' from hsame]

/-- Is there a link at the path? -/
def isLinkAt (tree : FileTree) (path : List FileName) : Bool :=
  (tree.node? path).any FileNode.isLink

theorem isLinkAt_of_isFolderAt {path : List FileName} (h : tree.isFolderAt path = true) :
    tree.isLinkAt path = false := by
  obtain ⟨rights, hnode⟩ := isFolderAt_iff.mp h
  rw [isLinkAt, hnode]
  rfl

/-- What can be entered is a folder. -/
theorem isFolderAt_of_enter {path : List FileName} (h : (tree.rightsAt path).enter = true) :
    tree.isFolderAt path = true := by
  rw [rightsAt] at h
  split at h
  · next rights hnode => exact isFolderAt_iff.mpr ⟨rights, hnode⟩
  · cases h

theorem lookIn_eq_ok_iff {place : List FileName} :
    tree.lookIn place = .ok () ↔ (tree.rightsAt place).enter = true := by
  rw [lookIn, folderRights, rightsAt]
  split
  · next rights hnode =>
    rw [hnode]
    cases henter : rights.enter <;> simp [henter, bind, Except.bind]
  · next node hother hnode =>
    rw [hnode]
    cases node with
    | folder rights => exact absurd rfl (hother rights)
    | file content rights => simp [bind, Except.bind, Rights.none]
    | link absolute pieces => simp [bind, Except.bind, Rights.none]
  · next hnode =>
    rw [hnode]
    simp [bind, Except.bind, Rights.none]

theorem folderRights_eq_ok_iff {place : List FileName} {rights : Rights} :
    tree.folderRights place = .ok rights ↔ tree.node? place = some (.folder rights) := by
  rw [folderRights]
  split
  · next found hnode => rw [hnode]; simp
  · next node hother hnode =>
    rw [hnode]
    simp only [reduceCtorEq, Option.some.injEq, false_iff]
    exact fun hfolder => hother rights hfolder
  · next hnode => rw [hnode]; simp

/-! ## The relation -/

/-- **Where names lead**, and through how many links. -/
inductive Leads (tree : FileTree) :
    List FileName → List FileName → List FileName → Nat → Prop where
  | nil {place : List FileName} : Leads tree place [] place 0
  | nothing {place rest goal : List FileName} {links : Nat} (hfolder : tree.isFolderAt place = true)
      (hrest : Leads tree place rest goal links) : Leads tree place (.nothing :: rest) goal links
  | here {place rest goal : List FileName} {links : Nat}
      (henter : (tree.rightsAt place).enter = true) (hrest : Leads tree place rest goal links) :
      Leads tree place (.here :: rest) goal links
  | up {place rest goal : List FileName} {links : Nat}
      (henter : (tree.rightsAt place).enter = true)
      (hrest : Leads tree place.dropLast rest goal links) :
      Leads tree place (.up :: rest) goal links
  | down {place rest goal : List FileName} {name : FileName} {links : Nat}
      (henter : (tree.rightsAt place).enter = true) (hplain : name.isPlain = true)
      (hsize : name.size ≤ FileName.maxBytes) (hnode : tree.isLinkAt (place ++ [name]) = false)
      (hrest : Leads tree (place ++ [name]) rest goal links) :
      Leads tree place (name :: rest) goal links
  /-- A link is replaced by its names. -/
  | link {place rest goal : List FileName} {name : FileName} {absolute : Bool}
      {pieces : List FileName.Piece} {links : Nat}
      (henter : (tree.rightsAt place).enter = true) (hplain : name.isPlain = true)
      (hsize : name.size ≤ FileName.maxBytes)
      (hnode : tree.node? (place ++ [name]) = some (.link absolute pieces))
      (hrest : Leads tree (if absolute then [] else place)
        (pieces.map (·.name) ++ rest) goal links) :
      Leads tree place (name :: rest) goal (links + 1)

theorem isPlain_iff {name : FileName} :
    name.isPlain = true ↔ name ≠ .nothing ∧ name ≠ .here ∧ name ≠ .up := by
  rw [FileName.isPlain, Bool.and_eq_true, Bool.and_eq_true, bne_iff_ne, bne_iff_ne, bne_iff_ne,
    and_assoc]

/-! ## One name -/

section OneName

variable {onLink : List FileName → List FileName → Except FileFailure (List FileName)}
  {place rest goal : List FileName} {name : FileName}

/-- What comes after looking up is done where names can be looked up. -/
theorem lookIn_bind_eq_ok_iff {next : Unit → Except FileFailure (List FileName)} :
    (tree.lookIn place >>= next) = .ok goal ↔
      (tree.rightsAt place).enter = true ∧ next () = .ok goal := by
  rw [← lookIn_eq_ok_iff]
  cases tree.lookIn place <;> simp [bind, Except.bind]

theorem followNames_nothing :
    tree.followNames onLink place (.nothing :: rest) = .ok goal ↔
      tree.isFolderAt place = true ∧ tree.followNames onLink place rest = .ok goal := by
  have hrights : tree.isFolderAt place = true ↔ ∃ rights, tree.folderRights place = .ok rights := by
    simp only [isFolderAt_iff, folderRights_eq_ok_iff]
  rw [followNames, if_pos rfl, hrights]
  cases tree.folderRights place <;> simp [bind, Except.bind]

theorem followNames_here :
    tree.followNames onLink place (.here :: rest) = .ok goal ↔
      (tree.rightsAt place).enter = true ∧ tree.followNames onLink place rest = .ok goal := by
  rw [followNames, if_neg (by decide), lookIn_bind_eq_ok_iff, if_pos rfl]

theorem followNames_up :
    tree.followNames onLink place (.up :: rest) = .ok goal ↔
      (tree.rightsAt place).enter = true ∧
        tree.followNames onLink place.dropLast rest = .ok goal := by
  rw [followNames, if_neg (by decide), lookIn_bind_eq_ok_iff, if_neg (by decide), if_pos rfl]

/-- A plain name must be short enough, and what follows depends on what stands there. -/
theorem followNames_plain (hplain : name.isPlain = true) :
    tree.followNames onLink place (name :: rest) = .ok goal ↔
      ((tree.rightsAt place).enter = true ∧ name.size ≤ FileName.maxBytes) ∧
        (match tree.node? (place ++ [name]) with
          | some (.link absolute pieces) =>
              onLink (if absolute then [] else place) (pieces.map FileName.Piece.name ++ rest)
          | _ => tree.followNames onLink (place ++ [name]) rest) = .ok goal := by
  obtain ⟨hnothing, hhere, hup⟩ := isPlain_iff.mp hplain
  rw [followNames, if_neg hnothing, lookIn_bind_eq_ok_iff, if_neg hhere, if_neg hup, and_assoc]
  refine and_congr_right fun _ => ?_
  by_cases hsize : FileName.maxBytes < name.size
  · simp [hsize, Nat.not_le.mpr hsize]
  · rw [if_neg hsize]
    exact (and_iff_right (Nat.not_lt.mp hsize)).symm

theorem followNames_down (hplain : name.isPlain = true)
    (hnode : tree.isLinkAt (place ++ [name]) = false) :
    tree.followNames onLink place (name :: rest) = .ok goal ↔
      ((tree.rightsAt place).enter = true ∧ name.size ≤ FileName.maxBytes) ∧
        tree.followNames onLink (place ++ [name]) rest = .ok goal := by
  rw [followNames_plain hplain]
  split
  · next absolute pieces hlink =>
    rw [isLinkAt, hlink] at hnode
    cases hnode
  · exact Iff.rfl

theorem followNames_link (hplain : name.isPlain = true) {absolute : Bool}
    {pieces : List FileName.Piece}
    (hnode : tree.node? (place ++ [name]) = some (.link absolute pieces)) :
    tree.followNames onLink place (name :: rest) = .ok goal ↔
      ((tree.rightsAt place).enter = true ∧ name.size ≤ FileName.maxBytes) ∧
        onLink (if absolute then [] else place) (pieces.map (·.name) ++ rest) = .ok goal := by
  rw [followNames_plain hplain, hnode]

end OneName

/-! ## The connection -/

/-- A name is special, or a link, or none of these. -/
theorem name_cases (tree : FileTree) (place : List FileName) (name : FileName) :
    name = .nothing ∨ name = .here ∨ name = .up ∨ name.isPlain = true ∧
      (tree.isLinkAt (place ++ [name]) = false ∨
        ∃ absolute pieces, tree.node? (place ++ [name]) = some (.link absolute pieces)) := by
  by_cases hnothing : name = .nothing
  · exact .inl hnothing
  by_cases hhere : name = .here
  · exact .inr (.inl hhere)
  by_cases hup : name = .up
  · exact .inr (.inr (.inl hup))
  refine .inr (.inr (.inr ⟨isPlain_iff.mpr ⟨hnothing, hhere, hup⟩, ?_⟩))
  rw [isLinkAt]
  rcases tree.node? (place ++ [name]) with _ | _ | _ | ⟨absolute, pieces⟩
  · exact .inl rfl
  · exact .inl rfl
  · exact .inl rfl
  · exact .inr ⟨absolute, pieces, rfl⟩

/-- Names that are followed lead somewhere, if what is done at a link leads on from there. -/
theorem exists_leads_of_followNames {limit : Nat}
    {onLink : List FileName → List FileName → Except FileFailure (List FileName)}
    (honLink : ∀ place names goal, onLink place names = .ok goal →
      ∃ links, links + 1 ≤ limit ∧ tree.Leads place names goal links)
    {place names goal : List FileName} (h : tree.followNames onLink place names = .ok goal) :
    ∃ links ≤ limit, tree.Leads place names goal links := by
  induction names generalizing place with
  | nil =>
    cases h
    exact ⟨0, Nat.zero_le _, .nil⟩
  | cons name rest ih =>
    rcases tree.name_cases place name with
      rfl | rfl | rfl | ⟨hplain, hnode | ⟨absolute, pieces, hnode⟩⟩
    · obtain ⟨hfolder, hnext⟩ := followNames_nothing.mp h
      obtain ⟨links, hle, hrest⟩ := ih hnext
      exact ⟨links, hle, .nothing hfolder hrest⟩
    · obtain ⟨henter, hnext⟩ := followNames_here.mp h
      obtain ⟨links, hle, hrest⟩ := ih hnext
      exact ⟨links, hle, .here henter hrest⟩
    · obtain ⟨henter, hnext⟩ := followNames_up.mp h
      obtain ⟨links, hle, hrest⟩ := ih hnext
      exact ⟨links, hle, .up henter hrest⟩
    · obtain ⟨⟨henter, hsize⟩, hnext⟩ := (followNames_down hplain hnode).mp h
      obtain ⟨links, hle, hrest⟩ := ih hnext
      exact ⟨links, hle, .down henter hplain hsize hnode hrest⟩
    · obtain ⟨⟨henter, hsize⟩, hnext⟩ := (followNames_link hplain hnode).mp h
      obtain ⟨links, hle, hrest⟩ := honLink _ _ _ hnext
      exact ⟨links + 1, hle, .link henter hplain hsize hnode hrest⟩

/-- **The program follows names as far as its limit for links allows.** -/
theorem follow_eq_ok_iff {limit : Nat} {place names goal : List FileName} :
    tree.follow limit place names = .ok goal ↔
      ∃ links ≤ limit, tree.Leads place names goal links := by
  constructor
  · intro h
    induction limit generalizing place names goal with
    | zero => exact exists_leads_of_followNames (fun _ _ _ herror => by cases herror) h
    | succ limit ih =>
      refine exists_leads_of_followNames (fun place names goal hfollow => ?_) h
      obtain ⟨links, hle, hleads⟩ := ih hfollow
      exact ⟨links, Nat.succ_le_succ hle, hleads⟩
  · rintro ⟨links, hle, h⟩
    -- Names are followed in the same way whatever the limit is; only at a link it counts.
    have hfollow (limit : Nat) : ∃ onLink, tree.follow limit = tree.followNames onLink := by
      cases limit <;> exact ⟨_, rfl⟩
    induction h generalizing limit with
    | nil =>
      obtain ⟨onLink, hnames⟩ := hfollow limit
      rw [hnames]
      rfl
    | nothing hfolder hrest ih =>
      obtain ⟨onLink, hnames⟩ := hfollow limit
      have hnext := ih hle
      rw [hnames] at hnext ⊢
      exact followNames_nothing.mpr ⟨hfolder, hnext⟩
    | here henter hrest ih =>
      obtain ⟨onLink, hnames⟩ := hfollow limit
      have hnext := ih hle
      rw [hnames] at hnext ⊢
      exact followNames_here.mpr ⟨henter, hnext⟩
    | up henter hrest ih =>
      obtain ⟨onLink, hnames⟩ := hfollow limit
      have hnext := ih hle
      rw [hnames] at hnext ⊢
      exact followNames_up.mpr ⟨henter, hnext⟩
    | down henter hplain hsize hnode hrest ih =>
      obtain ⟨onLink, hnames⟩ := hfollow limit
      have hnext := ih hle
      rw [hnames] at hnext ⊢
      exact (followNames_down hplain hnode).mpr ⟨⟨henter, hsize⟩, hnext⟩
    | link henter hplain hsize hnode hrest ih =>
      obtain ⟨smaller, rfl⟩ := Nat.exists_eq_add_of_le' (Nat.le_of_add_left_le hle)
      exact (followNames_link hplain hnode).mpr
        ⟨⟨henter, hsize⟩, ih (Nat.le_of_succ_le_succ hle)⟩

namespace Leads

variable {place goal : List FileName} {links : Nat}

/-- Names lead to one path only. -/
theorem goal_unique {names goal' : List FileName} {links' : Nat}
    (h : tree.Leads place names goal links) (h' : tree.Leads place names goal' links') :
    goal = goal' := by
  have hgoal := follow_eq_ok_iff.mpr ⟨links, Nat.le_max_left links links', h⟩
  have hgoal' := follow_eq_ok_iff.mpr ⟨links', Nat.le_max_right links links', h'⟩
  exact Except.ok.inj (hgoal.symm.trans hgoal')

/-- **Names and more names.**  The links on the way add up. -/
theorem append {names more middle : List FileName} {links' : Nat}
    (h : tree.Leads place names middle links) (hmore : tree.Leads middle more goal links') :
    tree.Leads place (names ++ more) goal (links + links') := by
  induction h with
  | nil =>
    rw [Nat.zero_add]
    exact hmore
  | nothing hfolder hrest ih => exact .nothing hfolder (ih hmore)
  | here henter hrest ih => exact .here henter (ih hmore)
  | up henter hrest ih => exact .up henter (ih hmore)
  | down henter hplain hsize hnode hrest ih => exact .down henter hplain hsize hnode (ih hmore)
  | link henter hplain hsize hnode hrest ih =>
    rw [Nat.add_right_comm]
    have hnext := ih hmore
    rw [List.append_assoc] at hnext
    exact .link henter hplain hsize hnode hnext

/-- **Names are followed in two parts.** -/
theorem exists_of_append {names more : List FileName}
    (h : tree.Leads place (names ++ more) goal links) :
    ∃ middle before after, tree.Leads place names middle before ∧
      tree.Leads middle more goal after ∧ before + after = links := by
  generalize hwhole : names ++ more = whole at h
  induction h generalizing names with
  | nil =>
    obtain ⟨rfl, rfl⟩ := List.append_eq_nil_iff.mp hwhole
    exact ⟨_, 0, 0, .nil, .nil, rfl⟩
  | nothing hfolder hrest ih =>
    rcases List.append_eq_cons_iff.mp hwhole with ⟨rfl, rfl⟩ | ⟨names, rfl, rfl⟩
    · exact ⟨_, 0, _, .nil, .nothing hfolder hrest, Nat.zero_add _⟩
    · obtain ⟨middle, before, after, hfront, hback, hsum⟩ := ih rfl
      exact ⟨middle, before, after, .nothing hfolder hfront, hback, hsum⟩
  | here henter hrest ih =>
    rcases List.append_eq_cons_iff.mp hwhole with ⟨rfl, rfl⟩ | ⟨names, rfl, rfl⟩
    · exact ⟨_, 0, _, .nil, .here henter hrest, Nat.zero_add _⟩
    · obtain ⟨middle, before, after, hfront, hback, hsum⟩ := ih rfl
      exact ⟨middle, before, after, .here henter hfront, hback, hsum⟩
  | up henter hrest ih =>
    rcases List.append_eq_cons_iff.mp hwhole with ⟨rfl, rfl⟩ | ⟨names, rfl, rfl⟩
    · exact ⟨_, 0, _, .nil, .up henter hrest, Nat.zero_add _⟩
    · obtain ⟨middle, before, after, hfront, hback, hsum⟩ := ih rfl
      exact ⟨middle, before, after, .up henter hfront, hback, hsum⟩
  | down henter hplain hsize hnode hrest ih =>
    rcases List.append_eq_cons_iff.mp hwhole with ⟨rfl, rfl⟩ | ⟨names, rfl, rfl⟩
    · exact ⟨_, 0, _, .nil, .down henter hplain hsize hnode hrest, Nat.zero_add _⟩
    · obtain ⟨middle, before, after, hfront, hback, hsum⟩ := ih rfl
      exact ⟨middle, before, after, .down henter hplain hsize hnode hfront, hback, hsum⟩
  | @link _ _ _ _ _ pieces _ henter hplain hsize hnode hrest ih =>
    rcases List.append_eq_cons_iff.mp hwhole with ⟨rfl, rfl⟩ | ⟨names, rfl, rfl⟩
    · exact ⟨_, 0, _, .nil, .link henter hplain hsize hnode hrest, Nat.zero_add _⟩
    · obtain ⟨middle, before, after, hfront, hback, hsum⟩ :=
        ih (List.append_assoc (pieces.map (·.name)) names more)
      exact ⟨middle, before + 1, after, .link henter hplain hsize hnode hfront, hback, by omega⟩

/-- The name for staying where one is leads nowhere else. -/
theorem of_here (h : tree.Leads place [.here] goal links) : goal = place ∧ links = 0 := by
  generalize hname : FileName.here = name at h
  cases h with
  | nothing hfolder hrest => exact absurd hname (by decide)
  | here henter hrest =>
    cases hrest
    exact ⟨rfl, rfl⟩
  | up henter hrest => exact absurd hname (by decide)
  | down henter hplain hsize hnode hrest => exact absurd hname (isPlain_iff.mp hplain).2.1.symm
  | link henter hplain hsize hnode hrest => exact absurd hname (isPlain_iff.mp hplain).2.1.symm

/-- **Names that stay in place can be left out.** -/
theorem filter_ne_here {names : List FileName} (h : tree.Leads place names goal links) :
    tree.Leads place (names.filter (· != .here)) goal links := by
  induction names generalizing place links with
  | nil => exact h
  | cons name names ih =>
    rw [← List.singleton_append] at h
    obtain ⟨middle, before, after, hfront, hback, rfl⟩ := h.exists_of_append
    by_cases hname : name = .here
    · subst hname
      obtain ⟨rfl, rfl⟩ := hfront.of_here
      rw [List.filter_cons_of_neg (by simp), Nat.zero_add]
      exact ih hback
    · rw [List.filter_cons_of_pos (by simpa using hname), ← List.singleton_append]
      exact hfront.append (ih hback)

end Leads

/-- One may stay in place as often as one likes. -/
theorem leads_replicate_here {place : List FileName}
    (henter : (tree.rightsAt place).enter = true) (n : Nat) :
    tree.Leads place (List.replicate n .here) place 0 := by
  induction n with
  | zero => exact .nil
  | succ n ih => exact .here henter ih

/-! ## Straight down -/

/-- Names that are not special, with no link on the way. -/
def IsStraight (tree : FileTree) (place : List FileName) : List FileName → Prop
  | [] => True
  | name :: rest =>
      name.isPlain = true ∧ tree.isLinkAt (place ++ [name]) = false ∧
        tree.IsStraight (place ++ [name]) rest

/-- The program may enter the folders on the way, and no name is too long. -/
def LetsPass (tree : FileTree) (place : List FileName) : List FileName → Prop
  | [] => True
  | name :: rest =>
      (tree.rightsAt place).enter = true ∧ name.size ≤ FileName.maxBytes ∧
        tree.LetsPass (place ++ [name]) rest

/-- **Names lead straight down** if there is no link on the way, as far as the program is let
pass. -/
theorem leads_iff_of_isStraight {place names goal : List FileName} {links : Nat}
    (h : tree.IsStraight place names) :
    tree.Leads place names goal links ↔
      goal = place ++ names ∧ links = 0 ∧ tree.LetsPass place names := by
  induction names generalizing place goal links with
  | nil =>
    rw [List.append_nil]
    constructor
    · intro hleads
      cases hleads
      exact ⟨rfl, rfl, trivial⟩
    · rintro ⟨rfl, rfl, -⟩
      exact .nil
  | cons name rest ih =>
    obtain ⟨hplain, hnode, hstraight⟩ := h
    have hrest (goal : List FileName) (links : Nat) :
        tree.Leads (place ++ [name]) rest goal links ↔
          goal = place ++ name :: rest ∧ links = 0 ∧ tree.LetsPass (place ++ [name]) rest := by
      rw [ih hstraight, List.append_assoc, List.singleton_append]
    constructor
    · intro hleads
      cases hleads with
      | nothing hfolder hrest => cases hplain
      | here henter hrest => cases hplain
      | up henter hrest => cases hplain
      | down henter _ hsize _ hdown =>
        obtain ⟨hgoal, hlinks, hpass⟩ := (hrest _ _).mp hdown
        exact ⟨hgoal, hlinks, henter, hsize, hpass⟩
      | link henter _ hsize hlink hdown =>
        rw [isLinkAt, hlink] at hnode
        cases hnode
    · rintro ⟨hgoal, hlinks, henter, hsize, hpass⟩
      exact .down henter hplain hsize hnode ((hrest _ _).mpr ⟨hgoal, hlinks, hpass⟩)

/-- The way to an entry is straight, unless the entry is a link. -/
theorem isStraight_of_mem {place names : List FileName} {node : FileNode}
    (hmem : (place ++ names, node) ∈ tree.nodes) (hnode : node.isLink = false) :
    tree.IsStraight place names := by
  induction names generalizing place with
  | nil => trivial
  | cons name rest ih =>
    have hlegal := tree.legal _ hmem name (List.mem_append_right _ List.mem_cons_self)
    rw [← List.singleton_append, ← List.append_assoc] at hmem
    refine ⟨FileName.isPlain_of_isLegal hlegal, ?_, ih hmem⟩
    by_cases hnil : rest = []
    · rw [hnil, List.append_nil] at hmem
      rw [isLinkAt, (node?_eq_some_iff (List.concat_ne_nil _ _)).mpr hmem]
      exact hnode
    · exact isLinkAt_of_isFolderAt (isFolderAt_above hmem hnil)

theorem IsStraight.of_append {place names more : List FileName}
    (h : tree.IsStraight place (names ++ more)) : tree.IsStraight place names := by
  induction names generalizing place with
  | nil => trivial
  | cons name rest ih => exact ⟨h.1, h.2.1, ih h.2.2⟩

/-- A way is straight if all names on it are plain and there is no link. -/
theorem isStraight_of_forall {place names : List FileName}
    (hplain : ∀ name ∈ names, name.isPlain = true)
    (hlinks : ∀ front, front <+: names → front ≠ [] → tree.isLinkAt (place ++ front) = false) :
    tree.IsStraight place names := by
  induction names generalizing place with
  | nil => trivial
  | cons name rest ih =>
    refine ⟨hplain name List.mem_cons_self,
      hlinks [name] (List.cons_prefix_cons.mpr ⟨rfl, List.nil_prefix⟩) (List.cons_ne_nil _ _),
      ih (fun other hother => hplain other (List.mem_cons_of_mem _ hother))
        fun front hfront _ => ?_⟩
    rw [List.append_assoc, List.singleton_append]
    exact hlinks (name :: front) (List.cons_prefix_cons.mpr ⟨rfl, hfront⟩) (List.cons_ne_nil _ _)

/-- The program is let pass if it may enter every folder on the way. -/
theorem letsPass_of_forall {place names : List FileName}
    (hlegal : ∀ name ∈ names, name.isLegal = true)
    (henter : ∀ front, front <+: names → front ≠ names →
      (tree.rightsAt (place ++ front)).enter = true) : tree.LetsPass place names := by
  induction names generalizing place with
  | nil => trivial
  | cons name rest ih =>
    have hstart := henter [] List.nil_prefix (List.cons_ne_nil _ _).symm
    rw [List.append_nil] at hstart
    refine ⟨hstart, FileName.size_le_of_isLegal (hlegal name List.mem_cons_self),
      ih (fun other hother => hlegal other (List.mem_cons_of_mem _ hother))
        fun front hfront hne => ?_⟩
    rw [List.append_assoc, List.singleton_append]
    exact henter (name :: front) (List.cons_prefix_cons.mpr ⟨rfl, hfront⟩)
      fun hsame => hne (List.cons.inj hsame).2

theorem letsPass_append_iff {place names more : List FileName} :
    tree.LetsPass place (names ++ more) ↔
      tree.LetsPass place names ∧ tree.LetsPass (place ++ names) more := by
  induction names generalizing place with
  | nil => simp [LetsPass]
  | cons name rest ih =>
    rw [List.cons_append, LetsPass, LetsPass, ih, List.append_assoc, List.singleton_append]
    tauto

end FileTree
end AssetAudit
