import AssetAudit.Inventory.Memory
import AssetAudit.Proofs.ReportKinds
import AssetAudit.Proofs.RowLimits
import AssetAudit.Proofs.Segments
import Mathlib.Data.List.Infix

/-!
# Relaxed rules

Rules become more lenient when something is put behind one of their lists: an ignore entry, an
accepted folder name of a category, a condition rule.  This file compares a scan by some rules with
a scan by rules that have been relaxed in any number of such ways, and shows that the second has
nothing new to say about names and places.

## The comparison

`Rules.RelaxesTo` says what relaxations have in common: the naming styles stay, the ignore entries
and the condition rules are continued, and no accepted folder name is lost.  One relaxation has this
property (`Rules.relaxesTo_relax`), and so has a sequence of them (`Rules.relaxesTo_relaxAll`).
Continuing a list goes well with a row limit, because an initial part of what is read is read again.

From there everything is monotone.  A path that is excluded stays excluded, an asset in an accepted
folder stays there, and an allowed folder stays allowed, since a rule at the end establishes
something about its own folders only.

## Hints

The hint of a misplaced asset quotes the accepted folder names, so the two scans do not record equal
violations.  `Violation.offence` is what is compared: a violation without its hint.
-/

namespace AssetAudit

/-! ## Accepted folder names -/

namespace Path

/-- A list of folder names with more names put behind it.  A bar goes between the two, unless the
list is empty or ends in a bar. -/
def withAlternatives (names more : String) : String :=
  if names.isEmpty || names.toList.getLast? == some '|' then names ++ more else names ++ "|" ++ more

/-- A bar separates alternatives. -/
theorem alternatives_append_bar (names more : String) :
    alternatives (names ++ "|" ++ more) = alternatives names ++ alternatives more := by
  have hlist : (names ++ "|" ++ more).toList = names.toList ++ '|' :: more.toList := by simp
  rw [alternatives, hlist, List.splitOn, List.splitOnP_append_cons _ _ (by decide),
    List.filter_append, List.map_append]
  rfl

/-- **More names mean more alternatives**, and no alternative is lost. -/
theorem alternatives_withAlternatives (names more : String) :
    alternatives (withAlternatives names more) = alternatives names ++ alternatives more := by
  rw [withAlternatives]
  split
  · next hend =>
    rcases (Bool.or_eq_true _ _).mp hend with hempty | hbar
    · rw [String.isEmpty_iff.mp hempty, String.empty_append]
      rfl
    · obtain ⟨front, rfl⟩ := exists_eq_append_of_getLast? (beq_iff_eq.mp hbar)
      show alternatives (front ++ "|" ++ more) = alternatives (front ++ "|") ++ alternatives more
      have hcut := alternatives_append_bar front ""
      rw [String.append_empty] at hcut
      rw [alternatives_append_bar, hcut]
      exact congrArg (· ++ alternatives more) (List.append_nil _).symm
  · exact alternatives_append_bar names more

end Path

/-! ## Relaxing rules -/

/-- A way to make rules more lenient. -/
inductive Relaxation where
  /-- One more name of folders that are left alone. -/
  | ignore (entry : String)
  /-- More accepted folder names for a category, with bars between them. -/
  | accept (c : FileCategory) (more : String)
  /-- One more condition rule. -/
  | condition (rule : ConditionRule)

namespace Rules

/-- The rules after a relaxation. -/
def relax (rules : Rules) : Relaxation → Rules
  | .ignore entry => { rules with ignoreFolders := rules.ignoreFolders ++ [entry] }
  | .accept c more => rules.setRoots c (Path.withAlternatives (rules.roots c) more)
  | .condition rule => rules.addCondition rule

/-- The rules after some relaxations. -/
def relaxAll (rules : Rules) (relaxations : List Relaxation) : Rules :=
  relaxations.foldl relax rules

/-- Other rules have the same naming styles, go on where the ignore entries and the condition rules
end, and accept every folder name that these rules accept. -/
structure RelaxesTo (rules relaxed : Rules) : Prop where
  naming : relaxed.naming = rules.naming
  ignoreFolders : rules.ignoreFolders <+: relaxed.ignoreFolders
  conditions : rules.conditions <+: relaxed.conditions
  alternatives (c : FileCategory) :
    Path.alternatives (rules.roots c) ⊆ Path.alternatives (relaxed.roots c)

theorem RelaxesTo.refl (rules : Rules) : rules.RelaxesTo rules :=
  ⟨rfl, List.prefix_rfl, List.prefix_rfl, fun _ => List.Subset.refl _⟩

theorem RelaxesTo.trans {rules between relaxed : Rules} (h : rules.RelaxesTo between)
    (h' : between.RelaxesTo relaxed) : rules.RelaxesTo relaxed where
  naming := h'.naming.trans h.naming
  ignoreFolders := h.ignoreFolders.trans h'.ignoreFolders
  conditions := h.conditions.trans h'.conditions
  alternatives c := List.Subset.trans (h.alternatives c) (h'.alternatives c)

/-- **One relaxation** makes rules more lenient. -/
theorem relaxesTo_relax (rules : Rules) (relaxation : Relaxation) :
    rules.RelaxesTo (rules.relax relaxation) := by
  cases relaxation with
  | ignore entry => exact { RelaxesTo.refl rules with ignoreFolders := List.prefix_append _ _ }
  | accept c more =>
    refine ⟨rfl, List.prefix_rfl, List.prefix_rfl, fun d => ?_⟩
    by_cases hd : d = c
    · subst hd
      rw [relax, roots_setRoots, Path.alternatives_withAlternatives]
      exact List.subset_append_left _ _
    · have hroots : (rules.relax (.accept c more)).roots d = rules.roots d := by
        simp only [relax, setRoots, roots, if_neg hd]
      rw [hroots]
      exact List.Subset.refl _
  | condition rule => exact { RelaxesTo.refl rules with conditions := List.prefix_append _ _ }

/-- **Any number of relaxations** make rules more lenient. -/
theorem relaxesTo_relaxAll (rules : Rules) (relaxations : List Relaxation) :
    rules.RelaxesTo (rules.relaxAll relaxations) := by
  induction relaxations generalizing rules with
  | nil => exact .refl rules
  | cons relaxation relaxations ih =>
    exact (rules.relaxesTo_relax relaxation).trans (ih (rules.relax relaxation))

/-- Only ignore entries add to the ignore entries. -/
theorem ignoreFolders_relaxAll (rules : Rules) {relaxations : List Relaxation}
    (h : ∀ entry, Relaxation.ignore entry ∉ relaxations) :
    (rules.relaxAll relaxations).ignoreFolders = rules.ignoreFolders := by
  induction relaxations generalizing rules with
  | nil => rfl
  | cons relaxation relaxations ih =>
    have hrest : ((rules.relax relaxation).relaxAll relaxations).ignoreFolders =
        (rules.relax relaxation).ignoreFolders :=
      ih (rules.relax relaxation) fun entry hentry => h entry (List.mem_cons_of_mem _ hentry)
    cases relaxation with
    | ignore entry => exact absurd List.mem_cons_self (h entry)
    | accept c more => exact hrest
    | condition rule => exact hrest

end Rules

/-! ## What a scan by relaxed rules reports -/

/-- What is left out under a condition is left out under every condition that follows from it. -/
theorem ite_nil_subset_ite_nil {α : Type} {p q : Prop} [Decidable p] [Decidable q] {l m : List α}
    (h : p → q) (hlm : l ⊆ m) : (if q then [] else l) ⊆ (if p then [] else m) := by
  by_cases hp : p
  · rw [if_pos (h hp)]
    exact List.nil_subset _
  · rw [if_neg hp]
    split
    · exact List.nil_subset _
    · exact hlm

namespace Violation

/-- What a violation complains about: the violation without its hint. -/
def offence (v : Violation) : ViolationKind × Category × String × String :=
  (v.kind, v.category, v.name, v.folder)

theorem offence_eq_iff {v w : Violation} :
    v.offence = w.offence ↔
      v.kind = w.kind ∧ v.category = w.category ∧ v.name = w.name ∧ v.folder = w.folder := by
  simp [offence]

end Violation

namespace Scan

/-- The scan by other rules. -/
def withRules (scan : Scan) (rules : Rules) : Scan := { scan with rules }

variable {scan : Scan} {relaxed : Rules}

/-- Naming styles are not relaxed. -/
theorem pattern_withRules (h : scan.rules.RelaxesTo relaxed) (c : Category) :
    (scan.withRules relaxed).rules.pattern c = scan.rules.pattern c := by
  rw [withRules, Rules.pattern, Rules.pattern, Rules.selector, Rules.selector, h.naming]

/-- What is excluded stays excluded. -/
theorem isExcluded_withRules (h : scan.rules.RelaxesTo relaxed) {segments : List String}
    (hexcluded : scan.isExcluded segments = true) :
    (scan.withRules relaxed).isExcluded segments = true := by
  have hrows : scan.ignoreFolders ⊆ (scan.withRules relaxed).ignoreFolders :=
    (h.ignoreFolders.take _).subset
  rw [isExcluded, Bool.or_eq_true, Path.isIgnored_iff] at hexcluded ⊢
  obtain hvendored | ⟨entry, hentry, hignored⟩ := hexcluded
  · exact .inl hvendored
  · exact .inr ⟨entry, hrows hentry, hignored⟩

/-- What lies in an accepted folder stays there. -/
theorem isInRoot_withRules (h : scan.rules.RelaxesTo relaxed) {c : FileCategory}
    {segments : List String} (hroot : scan.isInRoot c segments = true) :
    (scan.withRules relaxed).isInRoot c segments = true := by
  rw [isInRoot, List.any_eq_true] at hroot ⊢
  obtain ⟨folder, hfolder, haccepted⟩ := hroot
  rw [List.contains_iff_mem] at haccepted
  exact ⟨folder, hfolder, List.contains_iff_mem.mpr (h.alternatives c haccepted)⟩

/-- What condition rules establish, more condition rules establish first. -/
theorem conditionFindings_withRules (h : scan.rules.RelaxesTo relaxed) (c : FileCategory) :
    scan.conditionFindings c <+: (scan.withRules relaxed).conditionFindings c := by
  have hrows : scan.conditionRows <+: (scan.withRules relaxed).conditionRows := by
    show _ <+: (if scan.settings.filter.conditions then _ else _)
    rw [conditionRows]
    split
    · exact h.conditions.take _
    · exact List.prefix_rfl
  obtain ⟨later, hlater⟩ := hrows
  rw [conditionFindings_eq_allFindings, conditionFindings_eq_allFindings, ← hlater,
    List.zipIdx_append, ConditionRule.allFindings, ConditionRule.allFindings, List.flatMap_append]
  exact List.prefix_append _ _

/-- A folder that is allowed stays allowed. -/
theorem contains_allowedFolders_withRules (h : scan.rules.RelaxesTo relaxed) {c : FileCategory}
    {folder : String} (hallowed : (scan.allowedFolders c).contains folder = true) :
    ((scan.withRules relaxed).allowedFolders c).contains folder = true := by
  rw [AllowList.contains_iff, allowedFolders, AllowList.folders_ofList, List.mem_eraseDups]
    at hallowed ⊢
  exact ((conditionFindings_withRules h c).filterMap _).subset hallowed

/-- Relaxed rules report no other folder. -/
theorem reportOnFolder_withRules_subset (h : scan.rules.RelaxesTo relaxed) (folder : String) :
    (scan.withRules relaxed).reportOnFolder folder ⊆ scan.reportOnFolder folder := by
  dsimp only [reportOnFolder]
  rw [pattern_withRules h]
  refine ite_nil_subset_ite_nil (fun hskip => ?_) (List.Subset.refl _)
  rw [Bool.or_eq_true] at hskip ⊢
  exact hskip.imp_left (isExcluded_withRules h)

/-- What the reports on an asset complain about. -/
theorem map_offence_reportOnAsset (scan : Scan) (c : FileCategory) (allowed : AllowList)
    (asset : String) :
    (scan.reportOnAsset c allowed asset).map Violation.offence =
      if (Path.split asset).isEmpty || scan.isExcluded (Path.split asset) then []
      else
        (if scan.isInRoot c (Path.split asset) ||
            allowed.contains (Path.folderOf (Path.split asset)) then []
          else [(ViolationKind.location c, c.toCategory, Path.nameOf (Path.split asset),
            Path.folderOf (Path.split asset))]) ++
          (if (scan.rules.pattern c).accepts (Path.nameOf (Path.split asset)) then []
          else [(ViolationKind.naming c, c.toCategory, Path.nameOf (Path.split asset),
            Path.folderOf (Path.split asset))]) := by
  dsimp only [reportOnAsset]
  split
  · rfl
  · rw [List.map_append]
    refine congrArg₂ (· ++ ·) ?_ ?_
    · split
      · rfl
      · rfl
    · split
      · rfl
      · rfl

/-- Reports on an asset by relaxed rules complain about nothing new. -/
theorem offences_reportOnAsset_subset (h : scan.rules.RelaxesTo relaxed) (c : FileCategory)
    (asset : String) :
    ((scan.withRules relaxed).reportOnAsset c ((scan.withRules relaxed).allowedFolders c) asset).map
        Violation.offence ⊆
      (scan.reportOnAsset c (scan.allowedFolders c) asset).map Violation.offence := by
  have hskip
      (hskipped : ((Path.split asset).isEmpty || scan.isExcluded (Path.split asset)) = true) :
      ((Path.split asset).isEmpty ||
        (scan.withRules relaxed).isExcluded (Path.split asset)) = true := by
    rw [Bool.or_eq_true] at hskipped ⊢
    exact hskipped.imp_right (isExcluded_withRules h)
  have hplace (hplaced : (scan.isInRoot c (Path.split asset) ||
        (scan.allowedFolders c).contains (Path.folderOf (Path.split asset))) = true) :
      ((scan.withRules relaxed).isInRoot c (Path.split asset) ||
        ((scan.withRules relaxed).allowedFolders c).contains
          (Path.folderOf (Path.split asset))) = true := by
    rw [Bool.or_eq_true] at hplaced ⊢
    exact hplaced.imp (isInRoot_withRules h) (contains_allowedFolders_withRules h)
  rw [map_offence_reportOnAsset, map_offence_reportOnAsset, pattern_withRules h]
  refine ite_nil_subset_ite_nil hskip (List.append_subset.mpr ⟨?_, List.subset_append_right _ _⟩)
  exact List.subset_append_of_subset_left _ (ite_nil_subset_ite_nil hplace (List.Subset.refl _))

/-- **Relaxed rules complain about no other name or place.** -/
theorem exists_of_mem_reports_withRules (h : scan.rules.RelaxesTo relaxed) {v : Violation}
    (hv : v ∈ (scan.withRules relaxed).reports)
    (hgroup : v.group = .wrongName ∨ v.group = .wrongLocation) :
    ∃ w ∈ scan.reports, w.offence = v.offence := by
  rcases (mem_reports_iff_of_group hgroup).mp hv with hfolder | ⟨c, hc, hasset⟩
  · refine ⟨v, (mem_reports_iff_of_group hgroup).mpr (.inl ?_), rfl⟩
    rw [folderReports] at hfolder ⊢
    split at hfolder
    · next hwanted =>
      obtain ⟨folder, hlisted, hreported⟩ := List.mem_flatMap.mp hfolder
      rw [if_pos (show scan.settings.filter.folders = true from hwanted)]
      exact List.mem_flatMap.mpr
        ⟨folder, hlisted, reportOnFolder_withRules_subset h folder hreported⟩
    · simp at hfolder
  · obtain ⟨asset, hlisted, hreported⟩ := List.mem_flatMap.mp hasset
    obtain ⟨w, hw, hoffence⟩ := List.mem_map.mp
      (offences_reportOnAsset_subset h c asset (List.mem_map_of_mem hreported))
    have hkind : w.kind = v.kind := congrArg Prod.fst hoffence
    have hgroup' : w.group = .wrongName ∨ w.group = .wrongLocation := by
      rwa [Violation.group, hkind]
    exact ⟨w, (mem_reports_iff_of_group hgroup').mpr
      (.inr ⟨c, hc, List.mem_flatMap.mpr ⟨asset, hlisted, hw⟩⟩), hoffence⟩

/-! ## Names under the same ignore entries -/

/-- What is excluded depends on the ignore entries only. -/
theorem isExcluded_withRules_eq (h : relaxed.ignoreFolders = scan.rules.ignoreFolders)
    (segments : List String) :
    (scan.withRules relaxed).isExcluded segments = scan.isExcluded segments := by
  rw [isExcluded, isExcluded, ignoreFolders, ignoreFolders, withRules, h]

/-- The reports on names are the same if nothing more is ignored. -/
theorem filter_reports_withRules (h : scan.rules.RelaxesTo relaxed)
    (hignore : relaxed.ignoreFolders = scan.rules.ignoreFolders) :
    (scan.withRules relaxed).reports.filter (fun v => v.group = .wrongName) =
      scan.reports.filter (fun v => v.group = .wrongName) := by
  have hfolder : (scan.withRules relaxed).folderReports = scan.folderReports := by
    have hreport (folder : String) :
        (scan.withRules relaxed).reportOnFolder folder = scan.reportOnFolder folder := by
      dsimp only [reportOnFolder]
      rw [isExcluded_withRules_eq hignore, pattern_withRules h]
    rw [folderReports, folderReports, funext hreport]
    rfl
  have hasset (c : FileCategory) (asset : String) (allowed allowed' : AllowList) :
      ((scan.withRules relaxed).reportOnAsset c allowed' asset).filter
          (fun v => v.group = .wrongName) =
        (scan.reportOnAsset c allowed asset).filter (fun v => v.group = .wrongName) := by
    dsimp only [reportOnAsset]
    rw [isExcluded_withRules_eq hignore, pattern_withRules h]
    split
    · rfl
    · rw [List.filter_append, List.filter_append]
      refine congrArg₂ (· ++ ·) ?_ rfl
      -- A report on a place is no report on a name, whoever makes it.
      split <;> split <;> simp [Violation.group]
  rw [filter_reports_wrongName, filter_reports_wrongName, hfolder]
  refine congrArg (scan.folderReports ++ ·) (List.flatMap_congr fun c _ => ?_)
  rw [assetReports, assetReports, List.filter_flatMap, List.filter_flatMap]
  exact List.flatMap_congr fun asset _ => hasset c asset _ _

end Scan

namespace Auditor

/-- The auditor with relaxed rules. -/
def relaxed (auditor : Auditor) (relaxations : List Relaxation) : Auditor :=
  auditor.modifyRules fun rules => rules.relaxAll relaxations

/-- **Relaxing rules never condemns more.**  Take any auditor and inventory, and put ignore entries,
accepted folder names and condition rules behind its lists, in any number and any order.  If the
scan by the original rules is not truncated, then

* every violation of a name or a place that is recorded by the relaxed rules is recorded by the
  original rules, with the same kind, category, name and folder;
* if nothing was put behind the ignore entries, and the scan by the relaxed rules is not truncated
  either, then both record the same violations of names, in the same order. -/
theorem relaxed_rules_condemn_no_more (auditor : Auditor) (inventory : Inventory)
    (relaxations : List Relaxation)
    (hcomplete : (auditor.scan inventory).summary.truncated = false) :
    (∀ v ∈ ((auditor.relaxed relaxations).scan inventory).log.entries,
        v.group = .wrongName ∨ v.group = .wrongLocation →
        ∃ w ∈ (auditor.scan inventory).log.entries, w.kind = v.kind ∧ w.category = v.category ∧
          w.name = v.name ∧ w.folder = v.folder) ∧
      ((∀ entry, Relaxation.ignore entry ∉ relaxations) →
        ((auditor.relaxed relaxations).scan inventory).summary.truncated = false →
        ((auditor.relaxed relaxations).scan inventory).log.entries.filter
            (fun v => v.group = .wrongName) =
          (auditor.scan inventory).log.entries.filter (fun v => v.group = .wrongName)) := by
  let scan : Scan := ⟨auditor.rules, auditor.settings, inventory⟩
  have hrelaxes : scan.rules.RelaxesTo (auditor.rules.relaxAll relaxations) :=
    auditor.rules.relaxesTo_relaxAll relaxations
  constructor
  · intro v hv hgroup
    rw [((auditor.relaxed relaxations).recordOf_scan inventory).entries_eq] at hv
    have hreported : v ∈ (auditor.relaxed relaxations).reports inventory :=
      List.mem_eraseDups.mp (List.mem_of_mem_take hv)
    obtain ⟨w, hw, hoffence⟩ := Scan.exists_of_mem_reports_withRules hrelaxes hreported hgroup
    rw [entries_scan_of_not_truncated hcomplete]
    obtain ⟨hkind, hcategory, hname, hfolder⟩ := Violation.offence_eq_iff.mp hoffence
    exact ⟨w, List.mem_eraseDups.mpr hw, hkind, hcategory, hname, hfolder⟩
  · intro hignore hcomplete'
    rw [entries_scan_of_not_truncated hcomplete, entries_scan_of_not_truncated hcomplete',
      filter_eraseDups, filter_eraseDups]
    exact congrArg List.eraseDups
      (Scan.filter_reports_withRules hrelaxes (auditor.rules.ignoreFolders_relaxAll hignore))

/-- Of the two misplaced and misnamed prefabs, the relaxed rules pass over one and find the place of
the other, through a folder name or through a condition rule; the wrong name remains. -/
theorem relaxed_rules_condemn_no_more_two_prefabs :
    let auditor := Auditor.new .default .default
    let inventory := (MemoryInventory.ofAdditions
      [.file "Assets/Demo/a b.prefab", .file "Assets/Blueprints/c d.prefab"]).toInventory
    let offences := fun relaxations : List Relaxation =>
      ((auditor.relaxed relaxations).scan inventory).log.entries.map fun v => (v.kind, v.fullPath)
    let ignoring : List Relaxation := [.ignore "Demo", .accept .prefab "Models|Blueprints"]
    let allowing : List Relaxation := [.condition ⟨"Blueprints", .ofList [.prefab]⟩]
    (auditor.scan inventory).summary.truncated = false ∧
      (∀ v ∈ ((auditor.relaxed ignoring).scan inventory).log.entries,
        v.group = .wrongName ∨ v.group = .wrongLocation →
        ∃ w ∈ (auditor.scan inventory).log.entries, w.kind = v.kind ∧ w.category = v.category ∧
          w.name = v.name ∧ w.folder = v.folder) ∧
      ((auditor.relaxed allowing).scan inventory).log.entries.filter
          (fun v => v.group = .wrongName) =
        (auditor.scan inventory).log.entries.filter (fun v => v.group = .wrongName) ∧
      offences [] =
        [(.prefabLocation, "Assets/Blueprints/c d.prefab"),
          (.prefabName, "Assets/Blueprints/c d.prefab"),
          (.prefabLocation, "Assets/Demo/a b.prefab"), (.prefabName, "Assets/Demo/a b.prefab")] ∧
      offences ignoring = [(.prefabName, "Assets/Blueprints/c d.prefab")] ∧
      offences allowing =
        [(.prefabName, "Assets/Blueprints/c d.prefab"),
          (.prefabLocation, "Assets/Demo/a b.prefab"),
          (.prefabName, "Assets/Demo/a b.prefab")] := by
  intro auditor inventory offences ignoring allowing
  obtain ⟨hcomplete, hcomplete', hoffences⟩ :
      (auditor.scan inventory).summary.truncated = false ∧
        ((auditor.relaxed allowing).scan inventory).summary.truncated = false ∧
        offences [] =
          [(.prefabLocation, "Assets/Blueprints/c d.prefab"),
            (.prefabName, "Assets/Blueprints/c d.prefab"),
            (.prefabLocation, "Assets/Demo/a b.prefab"), (.prefabName, "Assets/Demo/a b.prefab")] ∧
        offences ignoring = [(.prefabName, "Assets/Blueprints/c d.prefab")] ∧
        offences allowing =
          [(.prefabName, "Assets/Blueprints/c d.prefab"),
            (.prefabLocation, "Assets/Demo/a b.prefab"),
            (.prefabName, "Assets/Demo/a b.prefab")] := by decide +kernel
  exact ⟨hcomplete, (relaxed_rules_condemn_no_more auditor inventory ignoring hcomplete).1,
    (relaxed_rules_condemn_no_more auditor inventory allowing hcomplete).2
      (by simp [allowing]) hcomplete', hoffences⟩

end Auditor
end AssetAudit
