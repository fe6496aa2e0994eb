import AssetAudit.Proofs.WildcardRules
import Mathlib.Data.List.Forall2

/-!
# Where the folders of condition rules go

Resolving a list of condition rules runs through rules and folders with several ways out, and leaves
an allow-list and a log behind.  This file shows that no folder gets lost between the two, whatever
the inventory answers and whatever the log held before.

## What a rule establishes

`ConditionRule.IsOutcome` says what there is to say about one folder, and
`ConditionRule.Establishes` says what a rule comes down to: nothing, its missing base, or one
outcome for each of its `Formula.targets`.  Both are relations that follow the demands on a rule
case by case.  They leave no choice (`isOutcome_iff`, `establishes_iff`), so what is said about a
folder is exactly one thing.

## What is kept of it

With room to spare, everything established is kept: `ConditionRule.resolve_of_hasRoom` says so for
the whole list of rules.  From it follows that working through the same rules again changes nothing
(`resolve_resolve`), because a log that has recorded every violation records none of them twice.
-/

namespace AssetAudit

open ViolationLog (RecordOf)

namespace Formula

/-- The folders that a formula leads to once its base exists: one for each subfolder of the base, in
the order of the listing, or the base itself where there is none. -/
def targets (inventory : Inventory) (formula : Formula) : List String :=
  match inventory.subfolders (Path.underAssets formula.base) with
  | [] => [Path.underAssets formula.base]
  | subfolders => subfolders.map formula.target

end Formula

/-- What is left of resolving rules is an allow-list and a log. -/
theorem Resolution.ext {r r' : Resolution} (hallowed : r.allowed = r'.allowed)
    (hlog : r.log = r'.log) : r = r' := by
  cases r
  cases r'
  simp_all

namespace ConditionRule

section Relations

variable (inventory : Inventory) (c : FileCategory) (position : Nat) (rule : ConditionRule)

/-- What there is to say about a folder that a rule leads to. -/
inductive IsOutcome (folder : String) : ConditionFinding → Prop where
  /-- It does not exist. -/
  | missing (hfolder : inventory.folderExists folder = false) :
      IsOutcome folder (.violated (invalidFolder position rule folder))
  /-- It holds no asset of the category. -/
  | empty (hfolder : inventory.folderExists folder = true)
      (hnone : inventory.assets c (some folder) = []) :
      IsOutcome folder (.violated (withoutAssets c folder))
  /-- It holds an asset of the category. -/
  | allowed (hfolder : inventory.folderExists folder = true)
      (hsome : inventory.assets c (some folder) ≠ []) :
      IsOutcome folder (.allowed (Path.normalize folder))

/-- What a rule of a position comes down to for a category. -/
inductive Establishes : List ConditionFinding → Prop where
  /-- The rule is about other categories. -/
  | otherCategory (happlies : rule.appliesTo.contains c = false) : Establishes []
  /-- The formula is malformed. -/
  | malformed (hparse : Formula.parse? rule.formula = none) : Establishes []
  /-- The base does not exist. -/
  | missingBase {formula : Formula} (happlies : rule.appliesTo.contains c = true)
      (hparse : Formula.parse? rule.formula = some formula)
      (hbase : inventory.folderExists (Path.underAssets formula.base) = false) :
      Establishes [.violated (invalidFolder position rule (Path.underAssets formula.base))]
  /-- The base exists, and each target has its outcome. -/
  | targets {formula : Formula} {findings : List ConditionFinding}
      (happlies : rule.appliesTo.contains c = true)
      (hparse : Formula.parse? rule.formula = some formula)
      (hbase : inventory.folderExists (Path.underAssets formula.base) = true)
      (houtcomes : List.Forall₂ (IsOutcome inventory c position rule) (formula.targets inventory)
        findings) :
      Establishes findings

end Relations

variable {inventory : Inventory} {c : FileCategory} {position : Nat} {rule : ConditionRule}

/-! ## The relations leave no choice -/

/-- A folder has the outcome that is computed for it, and no other. -/
theorem isOutcome_iff {folder : String} {finding : ConditionFinding} :
    IsOutcome inventory c position rule folder finding ↔
      outcome inventory c position rule folder = finding := by
  constructor
  · intro h
    cases h with
    | missing hfolder => simp [outcome, hfolder]
    | empty hfolder hnone => simp [outcome, inspect, hfolder, hnone]
    | allowed hfolder hsome => simp [outcome, inspect, hfolder, hsome]
  · rintro rfl
    cases hfolder : inventory.folderExists folder with
    | false =>
      have houtcome : outcome inventory c position rule folder =
          .violated (invalidFolder position rule folder) := by simp [outcome, hfolder]
      rw [houtcome]
      exact .missing hfolder
    | true =>
      by_cases hnone : inventory.assets c (some folder) = []
      · have houtcome : outcome inventory c position rule folder =
            .violated (withoutAssets c folder) := by simp [outcome, inspect, hfolder, hnone]
        rw [houtcome]
        exact .empty hfolder hnone
      · have houtcome : outcome inventory c position rule folder =
            .allowed (Path.normalize folder) := by simp [outcome, inspect, hfolder, hnone]
        rw [houtcome]
        exact .allowed hfolder hnone

theorem existsUnique_isOutcome (folder : String) :
    ∃! finding, IsOutcome inventory c position rule folder finding :=
  ⟨_, isOutcome_iff.mpr rfl, fun _ h => (isOutcome_iff.mp h).symm⟩

theorem forall₂_isOutcome_iff {folders : List String} {findings : List ConditionFinding} :
    List.Forall₂ (IsOutcome inventory c position rule) folders findings ↔
      folders.map (outcome inventory c position rule) = findings := by
  have hrelation : IsOutcome inventory c position rule =
      fun folder finding => outcome inventory c position rule folder = finding := by
    funext folder finding
    exact propext isOutcome_iff
  rw [hrelation, ← List.forall₂_map_left_iff, List.forall₂_eq_eq_eq]

theorem findings_of_otherCategory (happlies : rule.appliesTo.contains c = false) :
    rule.findings inventory c position = [] := by
  simp [findings, happlies]

theorem findings_of_malformed (hparse : Formula.parse? rule.formula = none) :
    rule.findings inventory c position = [] := by
  simp [findings, hparse]

/-- A rule whose base exists has one finding for each of its targets. -/
theorem findings_of_base {formula : Formula} (happlies : rule.appliesTo.contains c = true)
    (hparse : Formula.parse? rule.formula = some formula)
    (hbase : inventory.folderExists (Path.underAssets formula.base) = true) :
    rule.findings inventory c position =
      (formula.targets inventory).map (outcome inventory c position rule) := by
  by_cases hnone : inventory.subfolders (Path.underAssets formula.base) = []
  · rw [findings_of_no_subfolders happlies hparse hbase hnone]
    simp [Formula.targets, hnone, outcome, hbase]
  · obtain ⟨first, others, hlisting⟩ := List.exists_cons_of_ne_nil hnone
    rw [findings_of_subfolders happlies hparse hbase hnone]
    simp [Formula.targets, hlisting]

/-- **A rule establishes its findings**, and nothing else. -/
theorem establishes_iff {findings : List ConditionFinding} :
    Establishes inventory c position rule findings ↔
      rule.findings inventory c position = findings := by
  constructor
  · intro h
    cases h with
    | otherCategory happlies => exact findings_of_otherCategory happlies
    | malformed hparse => exact findings_of_malformed hparse
    | missingBase happlies hparse hbase => exact findings_of_missing_base happlies hparse hbase
    | targets happlies hparse hbase houtcomes =>
      rw [findings_of_base happlies hparse hbase]
      exact forall₂_isOutcome_iff.mp houtcomes
  · rintro rfl
    cases happlies : rule.appliesTo.contains c with
    | false =>
      rw [findings_of_otherCategory happlies]
      exact .otherCategory happlies
    | true =>
      cases hparse : Formula.parse? rule.formula with
      | none =>
        rw [findings_of_malformed hparse]
        exact .malformed hparse
      | some formula =>
        cases hbase : inventory.folderExists (Path.underAssets formula.base) with
        | false =>
          rw [findings_of_missing_base happlies hparse hbase]
          exact .missingBase happlies hparse hbase
        | true =>
          rw [findings_of_base happlies hparse hbase]
          exact .targets happlies hparse hbase (forall₂_isOutcome_iff.mpr rfl)

/-- A folder that a rule reports as missing is reported under the number and the text of the
rule. -/
theorem Establishes.name_of_folderInvalid {findings : List ConditionFinding} {v : Violation}
    (h : Establishes inventory c position rule findings) (hv : .violated v ∈ findings)
    (hkind : v.kind = .folderInvalid) :
    rule.appliesTo.contains c = true ∧
      v.name = "[Condition " ++ toString position ++ ": " ++ rule.formula ++ "]" := by
  cases h with
  | otherCategory => simp at hv
  | malformed => simp at hv
  | missingBase happlies =>
    rw [List.mem_singleton, ConditionFinding.violated.injEq] at hv
    rw [hv]
    exact ⟨happlies, rfl⟩
  | targets happlies hparse hbase houtcomes =>
    rw [forall₂_isOutcome_iff] at houtcomes
    rw [← houtcomes, List.mem_map] at hv
    obtain ⟨folder, -, hfolder⟩ := hv
    cases isOutcome_iff.mpr hfolder with
    | missing => exact ⟨happlies, rfl⟩
    | empty => exact absurd hkind (by simp [withoutAssets])

/-! ## Resolving with room to spare -/

/-- What the rules of a list establish, one after the other, numbered from one. -/
theorem forall₂_establishes (inventory : Inventory) (c : FileCategory)
    (rules : List ConditionRule) :
    List.Forall₂ (fun (rule, position) => Establishes inventory c position rule) (rules.zipIdx 1)
      ((rules.zipIdx 1).map fun (rule, position) => rule.findings inventory c position) := by
  rw [List.forall₂_map_right_iff, List.forall₂_same]
  exact fun _ _ => establishes_iff.mpr rfl

variable {rules : List ConditionRule} {log : ViolationLog}

/-- The log goes on with what it does not hold yet. -/
theorem entries_resolve (hroom : (resolve inventory c rules log).log.hasRoom = true) :
    (resolve inventory c rules log).log.entries =
      log.entries ++ (((allFindings inventory c (rules.zipIdx 1)).filterMap
        ConditionFinding.violation?).filter (· ∉ log.entries)).eraseDups := by
  rw [(resolve_of_hasRoom hroom).2.entries_of_hasRoom hroom, eraseDups_append_of_nodup log.distinct]

/-- **Resolving the same rules again changes nothing.** -/
theorem resolve_resolve (hroom : (resolve inventory c rules log).log.hasRoom = true) :
    resolve inventory c rules (resolve inventory c rules log).log =
      resolve inventory c rules log := by
  obtain ⟨hallowed, hrecord⟩ := resolve_of_hasRoom hroom
  have hentries := hrecord.entries_of_hasRoom hroom
  generalize resolve inventory c rules log = resolved at hroom hallowed hentries ⊢
  -- Nothing that the rules report is new to the log.
  have hold : (resolved.log.entries ++ (allFindings inventory c (rules.zipIdx 1)).filterMap
      ConditionFinding.violation?).eraseDups = resolved.log.entries := by
    rw [eraseDups_append_of_nodup resolved.log.distinct, List.filter_eq_nil_iff.mpr,
      List.eraseDups_nil, List.append_nil]
    intro v hv
    simp [hentries, hv]
  have hagain : RecordOf resolved.log.cap (resolved.log.entries ++
      (allFindings inventory c (rules.zipIdx 1)).filterMap ConditionFinding.violation?)
      (resolve inventory c rules resolved.log).log := recordOf_resolve hroom
  have hlog : (resolve inventory c rules resolved.log).log = resolved.log := by
    refine ViolationLog.ext hagain.cap_eq ?_
    rw [hagain.entries_eq, hold, List.take_of_length_le]
    exact Nat.le_of_lt (ViolationLog.hasRoom_iff.mp hroom)
  have hroom' : (resolve inventory c rules resolved.log).log.hasRoom = true := by rwa [hlog]
  refine Resolution.ext ?_ hlog
  rw [(resolve_of_hasRoom hroom').1, hallowed]

/-- **No folder of a rule is lost.**  Take any inventory, any category, any list of rules and any
log, and let the log have room after the rules have been resolved.  Then there is for each rule,
numbered from one in the whole list, what it establishes, so that

* a folder that a rule leads to has exactly one outcome;
* the allow-list holds the first occurrences of the folders that are allowed;
* the log goes on with the first occurrences of the violations that it did not hold;
* a folder that is newly reported as missing is reported under the number and the text of a rule for
  the category;
* resolving the rules once more, with the log as it is now, gives the same allow-list and leaves the
  log as it is. -/
theorem resolve_accounts_for_every_folder
    (hroom : (resolve inventory c rules log).log.hasRoom = true) :
    let resolved := resolve inventory c rules log
    ∃ established : List (List ConditionFinding),
      List.Forall₂ (fun (rule, position) => Establishes inventory c position rule)
          (rules.zipIdx 1) established ∧
        (∀ position rule folder, ∃! finding, IsOutcome inventory c position rule folder finding) ∧
        resolved.allowed.folders =
          (established.flatten.filterMap ConditionFinding.allowed?).eraseDups ∧
        resolved.log.entries =
          log.entries ++ ((established.flatten.filterMap ConditionFinding.violation?).filter
            (· ∉ log.entries)).eraseDups ∧
        (∀ v ∈ resolved.log.entries, v ∉ log.entries → v.kind = .folderInvalid →
          ∃ index rule, rules[index]? = some rule ∧ rule.appliesTo.contains c = true ∧
            v.name = "[Condition " ++ toString (index + 1) ++ ": " ++ rule.formula ++ "]") ∧
        resolve inventory c rules resolved.log = resolved := by
  intro resolved
  refine ⟨_, forall₂_establishes inventory c rules, fun _ _ => existsUnique_isOutcome, ?_, ?_, ?_,
    resolve_resolve hroom⟩
  · rw [← List.flatMap_def, (resolve_of_hasRoom hroom).1, AllowList.folders_ofList]
    rfl
  · rw [← List.flatMap_def]
    exact entries_resolve hroom
  · intro v hv hnew hkind
    have hreported : v ∈ (allFindings inventory c (rules.zipIdx 1)).filterMap
        ConditionFinding.violation? := by
      rw [entries_resolve hroom, List.mem_append, List.mem_eraseDups] at hv
      exact List.mem_of_mem_filter (hv.resolve_left hnew)
    obtain ⟨finding, hfinding, hviolated⟩ := List.mem_filterMap.mp hreported
    obtain ⟨⟨rule, position⟩, hrule, hfound⟩ := List.mem_flatMap.mp hfinding
    obtain ⟨hposition, hindex⟩ := List.mk_mem_zipIdx_iff_le_and_getElem?_sub.mp hrule
    rw [ConditionFinding.violation?_eq_some_iff.mp hviolated] at hfound
    obtain ⟨happlies, hname⟩ := (establishes_iff.mpr rfl).name_of_folderInvalid hfound hkind
    exact ⟨position - 1, rule, hindex, happlies, by rw [hname, Nat.sub_add_cancel hposition]⟩

/-- Of three units one has prefabs, one has an empty folder for them, which the log knows already,
and one has no folder for them.  The rule that says so is the second one, behind a rule for
sounds. -/
theorem resolve_accounts_for_every_folder_three_units :
    let inventory := (MemoryInventory.ofAdditions [.file "Assets/Units/Orc/Prefabs/axe.prefab",
      .folder "Assets/Units/Elf/Prefabs", .folder "Assets/Units/Imp"]).toInventory
    let rules : List ConditionRule :=
      [⟨"Units/*", .ofList [.sound]⟩, ⟨"Units/*/Prefabs", .ofList [.prefab]⟩]
    let log := (ViolationLog.empty 9).add (withoutAssets .prefab "Assets/Units/Elf/Prefabs")
    let resolved := resolve inventory .prefab rules log
    resolved.log.hasRoom = true ∧ resolved.allowed.folders = ["Assets/Units/Orc/Prefabs"] ∧
      resolved.log.entries.map Violation.name =
        ["[Missing Prefab]", "[Condition 2: Units/*/Prefabs]"] ∧
      resolve inventory .prefab rules resolved.log = resolved := by
  intro inventory rules log resolved
  obtain ⟨hroom, hallowed, hnames⟩ : resolved.log.hasRoom = true ∧
      resolved.allowed.folders = ["Assets/Units/Orc/Prefabs"] ∧
      resolved.log.entries.map Violation.name =
        ["[Missing Prefab]", "[Condition 2: Units/*/Prefabs]"] := by decide +kernel
  obtain ⟨-, -, -, -, -, -, hagain⟩ := resolve_accounts_for_every_folder hroom
  exact ⟨hroom, hallowed, hnames, hagain⟩

end ConditionRule
end AssetAudit
