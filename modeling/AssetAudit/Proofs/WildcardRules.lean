import AssetAudit.Proofs.CappedScan
import AssetAudit.Proofs.FormulaText
import AssetAudit.Proofs.StoredPaths

/-!
# What a wildcard rule denotes

A condition rule `b/*/s` is meant to speak of the folders `Assets/b/x/s`, one for each folder `x` in
`Assets/b`.  This file shows that it does, over every inventory in memory: the folders that the rule
allows are exactly the folders of this shape that hold an asset, and each folder of this shape that
it does not allow is reported for the right reason.

## Two steps

* *For any inventory*, a rule that is read comes down to one finding about its base, or one
  `ConditionRule.outcome` for each subfolder (`findings_of_missing_base`,
  `findings_of_no_subfolders`, `findings_of_subfolders`), and resolving one rule alone keeps all of
  them (`resolve_singleton`).
* *For an inventory in memory*, an outcome is decided by the stored folders and files
  (`outcome_eq_allowed_iff`, `outcome_eq_violated_iff`), and the rule of a `Glob` has one outcome
  for each folder in its root (`Glob.mem_findings_iff`).

Completeness is where the inventory must be closed upwards: if `Assets/b/x/s` is stored, then so is
`Assets/b/x`, and the expansion meets it.
-/

namespace AssetAudit

open AssetAudit.Path (IsSegment IsCanonical)
open ViolationLog (RecordOf)

namespace ConditionFinding

theorem allowed?_eq_some_iff {finding : ConditionFinding} {folder : String} :
    finding.allowed? = some folder ↔ finding = .allowed folder := by
  cases finding <;> simp [allowed?]

theorem violation?_eq_some_iff {finding : ConditionFinding} {v : Violation} :
    finding.violation? = some v ↔ finding = .violated v := by
  cases finding <;> simp [violation?]

end ConditionFinding

namespace ConditionRule

/-! ## The findings of one rule -/

/-- What a rule establishes about a folder that its formula leads to. -/
def outcome (inventory : Inventory) (c : FileCategory) (position : Nat) (rule : ConditionRule)
    (folder : String) : ConditionFinding :=
  if inventory.folderExists folder then inspect inventory c folder
  else .violated (invalidFolder position rule folder)

section

variable {inventory : Inventory} {c : FileCategory} {position : Nat} {rule : ConditionRule}
  {formula : Formula}

/-- A rule whose base is missing reports the base. -/
theorem findings_of_missing_base (happlies : rule.appliesTo.contains c = true)
    (hparse : Formula.parse? rule.formula = some formula)
    (hbase : inventory.folderExists (Path.underAssets formula.base) = false) :
    rule.findings inventory c position =
      [.violated (invalidFolder position rule (Path.underAssets formula.base))] := by
  simp only [findings, happlies, hparse, hbase]
  rfl

/-- A rule whose base has no subfolders speaks of the base. -/
theorem findings_of_no_subfolders (happlies : rule.appliesTo.contains c = true)
    (hparse : Formula.parse? rule.formula = some formula)
    (hbase : inventory.folderExists (Path.underAssets formula.base) = true)
    (hnone : inventory.subfolders (Path.underAssets formula.base) = []) :
    rule.findings inventory c position =
      [inspect inventory c (Path.underAssets formula.base)] := by
  simp only [findings, happlies, hparse, hbase, hnone]
  rfl

/-- A rule whose base has subfolders speaks of one folder for each of them. -/
theorem findings_of_subfolders (happlies : rule.appliesTo.contains c = true)
    (hparse : Formula.parse? rule.formula = some formula)
    (hbase : inventory.folderExists (Path.underAssets formula.base) = true)
    (hsome : inventory.subfolders (Path.underAssets formula.base) ≠ []) :
    rule.findings inventory c position =
      (inventory.subfolders (Path.underAssets formula.base)).map fun subfolder =>
        outcome inventory c position rule (formula.target subfolder) := by
  obtain ⟨first, others, hlisting⟩ := List.exists_cons_of_ne_nil hsome
  simp only [findings, happlies, hparse, hbase, hlisting]
  rfl

/-- **Resolving one rule alone** keeps all its findings, if room is left in the end. -/
theorem resolve_singleton {cap : Nat}
    (hroom : (resolve inventory c [rule] (.empty cap)).log.hasRoom = true) :
    (resolve inventory c [rule] (.empty cap)).allowed.folders =
        ((rule.findings inventory c 1).filterMap ConditionFinding.allowed?).eraseDups ∧
      (resolve inventory c [rule] (.empty cap)).log.entries =
        ((rule.findings inventory c 1).filterMap ConditionFinding.violation?).eraseDups := by
  have hfindings : allFindings inventory c ([rule].zipIdx 1) = rule.findings inventory c 1 := by
    rw [List.zipIdx_singleton, allFindings_cons, allFindings_nil, List.append_nil]
  obtain ⟨hallowed, hrecord⟩ := resolve_of_hasRoom hroom
  rw [hfindings] at hallowed hrecord
  exact ⟨by rw [hallowed, AllowList.folders_ofList], hrecord.entries_of_hasRoom hroom⟩

/-- A rule that comes down to one allowed folder. -/
theorem resolve_singleton_of_allowed {cap : Nat} {folder : String}
    (hroom : (resolve inventory c [rule] (.empty cap)).log.hasRoom = true)
    (hfindings : rule.findings inventory c 1 = [.allowed folder]) :
    (resolve inventory c [rule] (.empty cap)).allowed.folders = [folder] ∧
      (resolve inventory c [rule] (.empty cap)).log.entries = [] := by
  obtain ⟨hallowed, hentries⟩ := resolve_singleton hroom
  rw [hallowed, hentries, hfindings]
  exact ⟨rfl, rfl⟩

/-- A rule that comes down to one violation. -/
theorem resolve_singleton_of_violated {cap : Nat} {v : Violation}
    (hroom : (resolve inventory c [rule] (.empty cap)).log.hasRoom = true)
    (hfindings : rule.findings inventory c 1 = [.violated v]) :
    (resolve inventory c [rule] (.empty cap)).allowed.folders = [] ∧
      (resolve inventory c [rule] (.empty cap)).log.entries = [v] := by
  obtain ⟨hallowed, hentries⟩ := resolve_singleton hroom
  rw [hallowed, hentries, hfindings]
  exact ⟨rfl, rfl⟩

end

/-! ## Outcomes over stored folders -/

section

variable {inv : MemoryInventory} {c : FileCategory} {position : Nat} {rule : ConditionRule}
  {folder : String}

theorem inspect_of_holdsAsset (hclosed : inv.Closed) (hcanonical : IsCanonical folder)
    (h : inv.HoldsAsset c folder) : inspect inv.toInventory c folder = .allowed folder := by
  have hassets : ¬ (inv.toInventory.assets c (some folder)).isEmpty = true := fun hempty =>
    (MemoryInventory.isEmpty_assets_iff hclosed).mp hempty h
  rw [inspect, if_neg hassets, hcanonical.normalize_eq]

theorem inspect_of_not_holdsAsset (hclosed : inv.Closed) (h : ¬ inv.HoldsAsset c folder) :
    inspect inv.toInventory c folder = .violated (withoutAssets c folder) := by
  have hassets : (inv.toInventory.assets c (some folder)).isEmpty = true :=
    (MemoryInventory.isEmpty_assets_iff hclosed).mpr h
  rw [inspect, if_pos hassets]

/-- A canonical text names a folder exactly if it is stored. -/
theorem folderExists_toInventory_iff (hcanonical : IsCanonical folder) :
    inv.toInventory.folderExists folder = true ↔ folder ∈ inv.folders.toList := by
  have hiff : inv.folderExists folder = true ↔ Path.normalize folder ∈ inv.folders.toList :=
    MemoryInventory.folderExists_iff
  rwa [hcanonical.normalize_eq] at hiff

/-- **Allowed** are the stored folders that hold an asset. -/
theorem outcome_eq_allowed_iff (hclosed : inv.Closed) (hcanonical : IsCanonical folder)
    {other : String} :
    outcome inv.toInventory c position rule folder = .allowed other ↔
      other = folder ∧ folder ∈ inv.folders.toList ∧ inv.HoldsAsset c folder := by
  by_cases hfolder : folder ∈ inv.folders.toList
  · rw [outcome, if_pos ((folderExists_toInventory_iff hcanonical).mpr hfolder)]
    by_cases hholds : inv.HoldsAsset c folder
    · rw [inspect_of_holdsAsset hclosed hcanonical hholds]
      simp [hfolder, hholds, eq_comm]
    · rw [inspect_of_not_holdsAsset hclosed hholds]
      simp [hholds]
  · rw [outcome, if_neg (mt (folderExists_toInventory_iff hcanonical).mp hfolder)]
    simp [hfolder]

/-- **Reported** are the folders that are not stored, and those that hold no asset. -/
theorem outcome_eq_violated_iff (hclosed : inv.Closed) (hcanonical : IsCanonical folder)
    {v : Violation} :
    outcome inv.toInventory c position rule folder = .violated v ↔
      (folder ∉ inv.folders.toList ∧ v = invalidFolder position rule folder) ∨
        (folder ∈ inv.folders.toList ∧ ¬ inv.HoldsAsset c folder ∧ v = withoutAssets c folder) := by
  by_cases hfolder : folder ∈ inv.folders.toList
  · rw [outcome, if_pos ((folderExists_toInventory_iff hcanonical).mpr hfolder)]
    by_cases hholds : inv.HoldsAsset c folder
    · rw [inspect_of_holdsAsset hclosed hcanonical hholds]
      simp [hfolder, hholds]
    · rw [inspect_of_not_holdsAsset hclosed hholds]
      simp [hfolder, hholds, eq_comm]
  · rw [outcome, if_neg (mt (folderExists_toInventory_iff hcanonical).mp hfolder)]
    simp [hfolder, eq_comm]

/-- A violation shows the folder that it is about. -/
theorem folder_of_outcome (hclosed : inv.Closed) (hcanonical : IsCanonical folder) {v : Violation}
    (h : outcome inv.toInventory c position rule folder = .violated v) : v.folder = folder := by
  rcases (outcome_eq_violated_iff hclosed hcanonical).mp h with ⟨-, rfl⟩ | ⟨-, -, rfl⟩
  · exact hcanonical.normalize_eq
  · exact hcanonical.normalize_eq

/-- Missing folders, and no others, are reported as missing. -/
theorem outcome_folderInvalid_iff (hclosed : inv.Closed) (hcanonical : IsCanonical folder) :
    (∃ v, outcome inv.toInventory c position rule folder = .violated v ∧ v.kind = .folderInvalid) ↔
      folder ∉ inv.folders.toList := by
  constructor
  · rintro ⟨v, houtcome, hkind⟩
    rcases (outcome_eq_violated_iff hclosed hcanonical).mp houtcome with ⟨h, -⟩ | ⟨-, -, rfl⟩
    · exact h
    · exact absurd hkind (by simp [withoutAssets])
  · intro h
    exact ⟨_, (outcome_eq_violated_iff hclosed hcanonical).mpr (.inl ⟨h, rfl⟩), rfl⟩

/-- Folders without an asset, and no others, are reported as such. -/
theorem outcome_folderWithoutAssets_iff (hclosed : inv.Closed) (hcanonical : IsCanonical folder) :
    (∃ v, outcome inv.toInventory c position rule folder = .violated v ∧
        v.kind = .folderWithoutAssets) ↔
      folder ∈ inv.folders.toList ∧ ¬ inv.HoldsAsset c folder := by
  constructor
  · rintro ⟨v, houtcome, hkind⟩
    rcases (outcome_eq_violated_iff hclosed hcanonical).mp houtcome with ⟨-, rfl⟩ | ⟨h, hempty, -⟩
    · exact absurd hkind (by simp [invalidFolder])
    · exact ⟨h, hempty⟩
  · rintro ⟨h, hempty⟩
    exact ⟨_, (outcome_eq_violated_iff hclosed hcanonical).mpr (.inr ⟨h, hempty, rfl⟩), rfl⟩

end

end ConditionRule

/-! ## The rule of a glob -/

namespace Glob

open ConditionRule (outcome inspect invalidFolder withoutAssets)

/-- The rule with the text of a glob for its formula. -/
def rule (glob : Glob) (appliesTo : CategorySet) : ConditionRule := ⟨glob.text, appliesTo⟩

theorem parse?_formula_rule (glob : Glob) (appliesTo : CategorySet) :
    Formula.parse? (glob.rule appliesTo).formula = some glob.formula := glob.parse?_text

/-- The folder whose subfolders stand for the wildcard. -/
def root (glob : Glob) : List String := Path.assetsRoot :: glob.base

/-- A folder that the glob denotes. -/
def place (glob : Glob) (x : String) : List String := glob.root ++ [x] ++ glob.suffix

section

variable (glob : Glob)

theorem isSegment_root : ∀ name ∈ glob.root, IsSegment name := by
  intro name hname
  rcases List.mem_cons.mp hname with rfl | hname
  · exact Path.isSegment_assetsRoot
  · exact glob.isSegment_base name hname

theorem isCanonical_root : IsCanonical (Path.join glob.root) :=
  Path.isCanonical_join glob.isSegment_root (List.cons_ne_nil _ _)

/-- The base of the formula, below the assets. -/
theorem underAssets_base : Path.underAssets glob.formula.base = Path.join glob.root := by
  rw [formula, Path.underAssets, Path.split_join glob.isSegment_base]
  rfl

/-- What takes the place of a stored folder consists of segments. -/
theorem isSegment_place {child x : String} (hx : Path.split child = glob.root ++ [x]) :
    ∀ name ∈ glob.place x, IsSegment name := by
  intro name hname
  rw [place, ← hx] at hname
  rcases List.mem_append.mp hname with hname | hname
  · exact Path.isSegment_of_mem_split hname
  · exact glob.isSegment_suffix name hname

theorem isCanonical_place {child x : String} (hx : Path.split child = glob.root ++ [x]) :
    IsCanonical (Path.join (glob.place x)) :=
  Path.isCanonical_join (glob.isSegment_place hx) (by simp [place])

/-- The formula leads from a stored folder to what takes its place. -/
theorem target_formula {child x : String} (hchild : IsCanonical child)
    (hx : Path.split child = glob.root ++ [x]) :
    glob.formula.target child = Path.join (glob.place x) := by
  have hjoin : Path.join (glob.root ++ [x]) = child := by rw [← hx, hchild.join_split]
  rw [place, formula]
  by_cases hs : glob.suffix = []
  · rw [if_pos hs, hs, Formula.target_none, List.append_nil, hjoin]
  · rw [if_neg hs, Formula.target_some, Path.join_append_of_ne_nil (by simp) hs, hjoin]

end

section

variable {glob : Glob} {inv : MemoryInventory} {c : FileCategory} {position : Nat}
  {appliesTo : CategorySet}

/-- The stored folders that stand for the wildcard. -/
theorem mem_subfolders_root_iff (hclosed : inv.Closed) {child : String} :
    child ∈ inv.subfolders (Path.join glob.root) ↔
      child ∈ inv.folders.toList ∧ ∃ x, Path.split child = glob.root ++ [x] := by
  rw [MemoryInventory.mem_subfolders_iff hclosed, Path.split_join glob.isSegment_root]

/-- The base of the formula exists exactly if the root is stored. -/
theorem folderExists_base_iff (glob : Glob) (inv : MemoryInventory) :
    inv.toInventory.folderExists (Path.underAssets glob.formula.base) = true ↔
      Path.join glob.root ∈ inv.folders.toList := by
  rw [underAssets_base]
  exact ConditionRule.folderExists_toInventory_iff glob.isCanonical_root

/-- The rule of a glob whose root is not stored. -/
theorem findings_of_notMem (happlies : appliesTo.contains c = true)
    (hroot : Path.join glob.root ∉ inv.folders.toList) :
    (glob.rule appliesTo).findings inv.toInventory c position =
      [.violated (invalidFolder position (glob.rule appliesTo) (Path.join glob.root))] := by
  have hmissing : inv.toInventory.folderExists (Path.underAssets glob.formula.base) = false :=
    Bool.not_eq_true _ |>.mp (mt (folderExists_base_iff glob inv).mp hroot)
  rw [ConditionRule.findings_of_missing_base happlies (glob.parse?_formula_rule appliesTo) hmissing,
    underAssets_base]

/-- The rule of a glob whose root is stored without folders in it. -/
theorem findings_of_no_child (hclosed : inv.Closed) (happlies : appliesTo.contains c = true)
    (hroot : Path.join glob.root ∈ inv.folders.toList)
    (hnone : ¬ ∃ child ∈ inv.folders.toList, ∃ x, Path.split child = glob.root ++ [x]) :
    (glob.rule appliesTo).findings inv.toInventory c position =
      [inspect inv.toInventory c (Path.join glob.root)] := by
  have hexists : inv.toInventory.folderExists (Path.underAssets glob.formula.base) = true :=
    (folderExists_base_iff glob inv).mpr hroot
  have hlisting : inv.toInventory.subfolders (Path.underAssets glob.formula.base) = [] := by
    rw [underAssets_base, List.eq_nil_iff_forall_not_mem]
    intro child hchild
    exact hnone ⟨child, (mem_subfolders_root_iff hclosed).mp hchild⟩
  rw [ConditionRule.findings_of_no_subfolders happlies (glob.parse?_formula_rule appliesTo) hexists
    hlisting, underAssets_base]

/-- The rule of a glob whose root is stored with folders in it. -/
theorem findings_of_child (hclosed : inv.Closed) (happlies : appliesTo.contains c = true)
    (hroot : Path.join glob.root ∈ inv.folders.toList)
    (hsome : ∃ child ∈ inv.folders.toList, ∃ x, Path.split child = glob.root ++ [x]) :
    (glob.rule appliesTo).findings inv.toInventory c position =
      (inv.subfolders (Path.join glob.root)).map fun child =>
        outcome inv.toInventory c position (glob.rule appliesTo) (glob.formula.target child) := by
  obtain ⟨child, hchild⟩ := hsome
  have hexists : inv.toInventory.folderExists (Path.underAssets glob.formula.base) = true :=
    (folderExists_base_iff glob inv).mpr hroot
  have hlisting : inv.toInventory.subfolders (Path.underAssets glob.formula.base) ≠ [] := by
    rw [underAssets_base]
    exact List.ne_nil_of_mem ((mem_subfolders_root_iff hclosed).mpr hchild)
  rw [ConditionRule.findings_of_subfolders happlies (glob.parse?_formula_rule appliesTo) hexists
    hlisting, underAssets_base]
  rfl

/-- **One finding for each folder in the root**: the outcome of what takes its place. -/
theorem mem_findings_iff (hclosed : inv.Closed) (happlies : appliesTo.contains c = true)
    (hroot : Path.join glob.root ∈ inv.folders.toList)
    (hsome : ∃ child ∈ inv.folders.toList, ∃ x, Path.split child = glob.root ++ [x])
    {finding : ConditionFinding} :
    finding ∈ (glob.rule appliesTo).findings inv.toInventory c position ↔
      ∃ child ∈ inv.folders.toList, ∃ x, Path.split child = glob.root ++ [x] ∧
        outcome inv.toInventory c position (glob.rule appliesTo)
          (Path.join (glob.place x)) = finding := by
  rw [findings_of_child hclosed happlies hroot hsome, List.mem_map]
  constructor
  · rintro ⟨child, hchild, hfinding⟩
    obtain ⟨hstored, x, hx⟩ := (mem_subfolders_root_iff hclosed).mp hchild
    rw [target_formula glob (hclosed.canonical_folder hstored) hx] at hfinding
    exact ⟨child, hstored, x, hx, hfinding⟩
  · rintro ⟨child, hstored, x, hx, hfinding⟩
    rw [← target_formula glob (hclosed.canonical_folder hstored) hx] at hfinding
    exact ⟨child, (mem_subfolders_root_iff hclosed).mpr ⟨hstored, x, hx⟩, hfinding⟩

/-! ### The folders that are allowed and those that are reported -/

/-- **What is allowed** are the stored folders of the shape of the glob that hold an asset. -/
theorem mem_allowed_iff (hclosed : inv.Closed) (happlies : appliesTo.contains c = true)
    (hroot : Path.join glob.root ∈ inv.folders.toList)
    (hsome : ∃ child ∈ inv.folders.toList, ∃ x, Path.split child = glob.root ++ [x])
    {folder : String} :
    folder ∈ ((glob.rule appliesTo).findings inv.toInventory c position).filterMap
        ConditionFinding.allowed? ↔
      (∃ x, Path.split folder = glob.place x) ∧ folder ∈ inv.folders.toList ∧
        inv.HoldsAsset c folder := by
  rw [List.mem_filterMap]
  constructor
  · rintro ⟨finding, hfinding, hallowed⟩
    obtain ⟨child, hchild, x, hx, houtcome⟩ :=
      (mem_findings_iff hclosed happlies hroot hsome).mp hfinding
    rw [ConditionFinding.allowed?_eq_some_iff.mp hallowed] at houtcome
    obtain ⟨rfl, hfolder, hholds⟩ :=
      (ConditionRule.outcome_eq_allowed_iff hclosed (glob.isCanonical_place hx)).mp houtcome
    exact ⟨⟨x, Path.split_join (glob.isSegment_place hx)⟩, hfolder, hholds⟩
  · rintro ⟨⟨x, hsplit⟩, hfolder, hholds⟩
    rw [place] at hsplit
    -- The folders are closed upwards, so the expansion meets the folder in front of the suffix.
    have hchild : Path.join (glob.root ++ [x]) ∈ inv.folders.toList :=
      hclosed.above_folder hfolder (by simp) ⟨glob.suffix, hsplit.symm⟩
    have hx : Path.split (Path.join (glob.root ++ [x])) = glob.root ++ [x] :=
      Path.split_join fun name hname =>
        Path.isSegment_of_mem_split (hsplit ▸ List.mem_append_left glob.suffix hname)
    have hplace : Path.join (glob.place x) = folder := by
      rw [place, ← hsplit, (hclosed.canonical_folder hfolder).join_split]
    have houtcome : outcome inv.toInventory c position (glob.rule appliesTo)
        (Path.join (glob.place x)) = .allowed folder := by
      rw [hplace]
      exact (ConditionRule.outcome_eq_allowed_iff hclosed
        (hclosed.canonical_folder hfolder)).mpr ⟨rfl, hfolder, hholds⟩
    exact ⟨_, (mem_findings_iff hclosed happlies hroot hsome).mpr ⟨_, hchild, x, hx, houtcome⟩, rfl⟩

/-- **What is reported** are the violations among the outcomes. -/
theorem mem_violations_iff (hclosed : inv.Closed) (happlies : appliesTo.contains c = true)
    (hroot : Path.join glob.root ∈ inv.folders.toList)
    (hsome : ∃ child ∈ inv.folders.toList, ∃ x, Path.split child = glob.root ++ [x])
    {v : Violation} :
    v ∈ ((glob.rule appliesTo).findings inv.toInventory c position).filterMap
        ConditionFinding.violation? ↔
      ∃ child ∈ inv.folders.toList, ∃ x, Path.split child = glob.root ++ [x] ∧
        outcome inv.toInventory c position (glob.rule appliesTo)
          (Path.join (glob.place x)) = .violated v := by
  rw [List.mem_filterMap, ← mem_findings_iff hclosed happlies hroot hsome]
  constructor
  · rintro ⟨finding, hfinding, hviolated⟩
    rwa [ConditionFinding.violation?_eq_some_iff.mp hviolated] at hfinding
  · intro hfinding
    exact ⟨_, hfinding, rfl⟩

/-- **One folder, one outcome.**  A folder of the shape of the glob is reported for a reason exactly
if that is its own outcome. -/
theorem reported_iff (hclosed : inv.Closed) (happlies : appliesTo.contains c = true)
    (hroot : Path.join glob.root ∈ inv.folders.toList) {child x : String}
    (hchild : child ∈ inv.folders.toList) (hx : Path.split child = glob.root ++ [x])
    (k : ViolationKind) :
    (∃ v ∈ ((glob.rule appliesTo).findings inv.toInventory c position).filterMap
        ConditionFinding.violation?, v.kind = k ∧ v.folder = Path.join (glob.place x)) ↔
      ∃ v, outcome inv.toInventory c position (glob.rule appliesTo)
        (Path.join (glob.place x)) = .violated v ∧ v.kind = k := by
  have hsome : ∃ child ∈ inv.folders.toList, ∃ x, Path.split child = glob.root ++ [x] :=
    ⟨child, hchild, x, hx⟩
  constructor
  · rintro ⟨v, hv, hkind, hfolder⟩
    obtain ⟨other, -, y, hy, houtcome⟩ :=
      (mem_violations_iff hclosed happlies hroot hsome).mp hv
    have hplace := ConditionRule.folder_of_outcome hclosed (glob.isCanonical_place hy) houtcome
    rw [← hplace, hfolder] at houtcome
    exact ⟨v, houtcome, hkind⟩
  · rintro ⟨v, houtcome, hkind⟩
    have hv := (mem_violations_iff hclosed happlies hroot hsome).mpr
      ⟨child, hchild, x, hx, houtcome⟩
    have hplace := ConditionRule.folder_of_outcome hclosed (glob.isCanonical_place hx) houtcome
    exact ⟨v, hv, hkind, hplace⟩

end

/-- **What the rule of a glob denotes.**  Take any inventory that additions lead to, the rule
`b/*/s` of any glob for categories that include the given one, and a log that does not fill up.

* If the root `Assets/b` is no folder, then nothing is allowed and the root is reported as missing.
* If it is a folder with folders in it, then the allowed folders are exactly the folders
  `Assets/b/x/s` that hold an asset of the category somewhere below them.  For each folder `x` in
  the root, `Assets/b/x/s` is reported as missing exactly if it is no folder, and as empty exactly
  if it is a folder without such an asset; nothing else is reported.
* If it is a folder without folders in it, then the root itself is allowed if it holds an asset, and
  reported as empty otherwise. -/
theorem resolve_rule {additions : List MemoryInventory.Addition} {c : FileCategory} (glob : Glob)
    {appliesTo : CategorySet} {cap : Nat} (happlies : appliesTo.contains c = true)
    (hroom : (ConditionRule.resolve (MemoryInventory.ofAdditions additions).toInventory c
      [glob.rule appliesTo] (.empty cap)).log.hasRoom = true) :
    let inv := MemoryInventory.ofAdditions additions
    let rule : ConditionRule := glob.rule appliesTo
    let resolved := ConditionRule.resolve inv.toInventory c [rule] (.empty cap)
    let root := Path.assetsRoot :: glob.base
    (Path.join root ∉ inv.folders.toList →
        resolved.allowed.folders = [] ∧
          resolved.log.entries = [invalidFolder 1 rule (Path.join root)]) ∧
      (Path.join root ∈ inv.folders.toList →
        (∃ child ∈ inv.folders.toList, ∃ x, Path.split child = root ++ [x]) →
          (∀ folder, folder ∈ resolved.allowed.folders ↔
            (∃ x, Path.split folder = root ++ [x] ++ glob.suffix) ∧
              folder ∈ inv.folders.toList ∧ inv.HoldsAsset c folder) ∧
          (∀ child ∈ inv.folders.toList, ∀ x, Path.split child = root ++ [x] →
            let target := Path.join (root ++ [x] ++ glob.suffix)
            ((∃ v ∈ resolved.log.entries, v.kind = .folderInvalid ∧ v.folder = target) ↔
                target ∉ inv.folders.toList) ∧
              ((∃ v ∈ resolved.log.entries, v.kind = .folderWithoutAssets ∧ v.folder = target) ↔
                target ∈ inv.folders.toList ∧ ¬ inv.HoldsAsset c target)) ∧
          ∀ v ∈ resolved.log.entries, ∃ child ∈ inv.folders.toList, ∃ x,
            Path.split child = root ++ [x] ∧
              (v = invalidFolder 1 rule (Path.join (root ++ [x] ++ glob.suffix)) ∨
                v = withoutAssets c (Path.join (root ++ [x] ++ glob.suffix)))) ∧
      (Path.join root ∈ inv.folders.toList →
        (¬ ∃ child ∈ inv.folders.toList, ∃ x, Path.split child = root ++ [x]) →
          (inv.HoldsAsset c (Path.join root) →
            resolved.allowed.folders = [Path.join root] ∧ resolved.log.entries = []) ∧
          (¬ inv.HoldsAsset c (Path.join root) →
            resolved.allowed.folders = [] ∧
              resolved.log.entries = [withoutAssets c (Path.join root)])) := by
  intro inv rule resolved root
  have hclosed : inv.Closed := MemoryInventory.closed_ofAdditions additions
  obtain ⟨hallowed, hentries⟩ : resolved.allowed.folders =
        ((rule.findings inv.toInventory c 1).filterMap ConditionFinding.allowed?).eraseDups ∧
      resolved.log.entries =
        ((rule.findings inv.toInventory c 1).filterMap ConditionFinding.violation?).eraseDups :=
    ConditionRule.resolve_singleton hroom
  refine ⟨fun hroot => ?_, fun hroot hsome => ⟨fun folder => ?_, fun child hchild x hx => ?_,
    fun v hv => ?_⟩, fun hroot hnone => ⟨fun hholds => ?_, fun hempty => ?_⟩⟩
  · exact ConditionRule.resolve_singleton_of_violated hroom (findings_of_notMem happlies hroot)
  · rw [hallowed, List.mem_eraseDups]
    exact mem_allowed_iff hclosed happlies hroot hsome
  · have hcanonical : IsCanonical (Path.join (root ++ [x] ++ glob.suffix)) :=
      glob.isCanonical_place hx
    simp only [hentries, List.mem_eraseDups]
    constructor
    · exact (reported_iff hclosed happlies hroot hchild hx _).trans
        (ConditionRule.outcome_folderInvalid_iff hclosed hcanonical)
    · exact (reported_iff hclosed happlies hroot hchild hx _).trans
        (ConditionRule.outcome_folderWithoutAssets_iff hclosed hcanonical)
  · rw [hentries, List.mem_eraseDups] at hv
    obtain ⟨child, hchild, x, hx, houtcome⟩ :=
      (mem_violations_iff hclosed happlies hroot hsome).mp hv
    refine ⟨child, hchild, x, hx, ?_⟩
    rcases (ConditionRule.outcome_eq_violated_iff hclosed (glob.isCanonical_place hx)).mp houtcome
      with ⟨-, hv⟩ | ⟨-, -, hv⟩
    · exact .inl hv
    · exact .inr hv
  · have hinspect : inspect inv.toInventory c (Path.join root) = .allowed (Path.join root) :=
      ConditionRule.inspect_of_holdsAsset hclosed glob.isCanonical_root hholds
    refine ConditionRule.resolve_singleton_of_allowed hroom ?_
    rw [← hinspect]
    exact findings_of_no_child hclosed happlies hroot hnone
  · have hinspect : inspect inv.toInventory c (Path.join root) =
        .violated (withoutAssets c (Path.join root)) :=
      ConditionRule.inspect_of_not_holdsAsset hclosed hempty
    refine ConditionRule.resolve_singleton_of_violated hroom ?_
    rw [← hinspect]
    exact findings_of_no_child hclosed happlies hroot hnone

/-- Of two units one has prefabs, and the other one has no folder for them. -/
theorem resolve_rule_two_units :
    let additions : List MemoryInventory.Addition :=
      [.file "Assets/Units/Orc/Prefabs/axe.prefab", .folder "Assets/Units/Elf"]
    let inventory := (MemoryInventory.ofAdditions additions).toInventory
    let glob : Glob := ⟨["Units"], ["Prefabs"], by decide, by decide, by decide⟩
    let resolved :=
      ConditionRule.resolve inventory .prefab [glob.rule (.ofList [.prefab])] (.empty 9)
    resolved.log.hasRoom = true ∧ resolved.allowed.folders = ["Assets/Units/Orc/Prefabs"] ∧
      ∃ v ∈ resolved.log.entries,
        v.kind = .folderInvalid ∧ v.folder = "Assets/Units/Elf/Prefabs" := by
  intro additions inventory glob resolved
  obtain ⟨hroom, hallowed⟩ : resolved.log.hasRoom = true ∧
      resolved.allowed.folders = ["Assets/Units/Orc/Prefabs"] := by decide +kernel
  obtain ⟨hroot, hchild, hmissing⟩ :
      Path.join [Path.assetsRoot, "Units"] ∈
          (MemoryInventory.ofAdditions additions).folders.toList ∧
        "Assets/Units/Elf" ∈ (MemoryInventory.ofAdditions additions).folders.toList ∧
        "Assets/Units/Elf/Prefabs" ∉ (MemoryInventory.ofAdditions additions).folders.toList := by
    decide +kernel
  have hx : Path.split "Assets/Units/Elf" = [Path.assetsRoot, "Units"] ++ ["Elf"] := by
    decide +kernel
  have htarget : Path.join ([Path.assetsRoot, "Units"] ++ ["Elf"] ++ ["Prefabs"]) =
      "Assets/Units/Elf/Prefabs" := by decide +kernel
  have hreported := ((resolve_rule glob (by decide) hroom).2.1 hroot ⟨_, hchild, _, hx⟩).2.1 _
    hchild _ hx
  rw [htarget] at hreported
  exact ⟨hroom, hallowed, hreported.1.mpr hmissing⟩

end Glob
end AssetAudit
