import AssetAudit.Inventory.Memory
import AssetAudit.Proofs.FirstOccurrences
import AssetAudit.Scan.Auditor
import AssetAudit.Scan.Complete

/-!
# What a capped scan records

`Scan.reports` lists everything that there is to say about a project, without any log.  A scan with
a log says less: it ends its walks as soon as the log is full, in five different places.  This file
shows that all of them together amount to one cut: the log holds the first of the different reports,
as many as its cap allows.

## The invariant

`ViolationLog.RecordOf cap reports log` says that a log has the cap `cap` and holds the first `cap`
entries of `reports.eraseDups`.  Adding violations at the end of the reports preserves it
(`RecordOf.addAll`), and so does *not* adding them once the log is full (`RecordOf.of_full`).  These
two facts are all that the walks need, so a walk which may end early at every step still leaves a
record of the whole list behind it (`RecordOf.visitAll`).

## The allow-list

A walk over condition rules also builds an allow-list, and a log that fills up there leaves the list
incomplete.  `Resolution.allowed_recordRules` states what saves the location check: whenever the log
still has room afterwards, every rule has been looked at and the list is complete.  If it has no
room, no asset is held against the list at all.
-/

namespace AssetAudit

/-! ## Logs that record a list of reports -/

namespace ViolationLog

/-- The log has the given cap and holds the first of the different reports, as many as the cap
allows. -/
structure RecordOf (cap : Nat) (reports : List Violation) (log : ViolationLog) : Prop where
  cap_eq : log.cap = cap
  entries_eq : log.entries = reports.eraseDups.take cap

/-- A walk over a list does not begin with a full log. -/
theorem visitAll_of_full {α : Type} (visit : ViolationLog → α → ViolationLog) {log : ViolationLog}
    (h : log.hasRoom = false) (l : List α) : log.visitAll visit l = log := by
  cases l with
  | nil => rfl
  | cons a l => rw [visitAll, h]; rfl

namespace RecordOf

variable {cap : Nat} {reports : List Violation} {log : ViolationLog}

theorem empty (cap : Nat) : RecordOf cap [] (.empty cap) where
  cap_eq := rfl
  entries_eq := by simp

/-- A log that has room is a record of its own entries. -/
theorem of_hasRoom {log : ViolationLog} (hroom : log.hasRoom = true) :
    RecordOf log.cap log.entries log where
  cap_eq := rfl
  entries_eq := by
    have hlt := ViolationLog.hasRoom_iff.mp hroom
    rw [eraseDups_eq_self log.distinct, List.take_of_length_le (by omega)]

/-- A record has room exactly as long as the different reports do not reach the cap. -/
theorem hasRoom_iff (h : RecordOf cap reports log) :
    log.hasRoom = true ↔ reports.eraseDups.length < cap := by
  rw [ViolationLog.hasRoom_iff, h.entries_eq, h.cap_eq, List.length_take]
  omega

/-- A record that has room left out nothing. -/
theorem entries_of_hasRoom (h : RecordOf cap reports log) (hroom : log.hasRoom = true) :
    log.entries = reports.eraseDups := by
  have hlt := h.hasRoom_iff.mp hroom
  rw [h.entries_eq, List.take_of_length_le (by omega)]

/-- Recording what comes next. -/
theorem addAll (h : RecordOf cap reports log) (later : List Violation) :
    RecordOf cap (reports ++ later) (log.addAll later) := by
  obtain ⟨rfl, hentries⟩ := h
  exact ⟨cap_addAll log later, entries_addAll_of_eq hentries later⟩

/-- A full log is a record of whatever comes next. -/
theorem of_full (h : RecordOf cap reports log) (hfull : log.hasRoom = false)
    (later : List Violation) : RecordOf cap (reports ++ later) log := by
  have hcap : cap ≤ reports.eraseDups.length := by
    have hroom := h.hasRoom_iff
    rw [hfull] at hroom
    by_contra hlt
    exact absurd (hroom.mpr (by omega)) (by simp)
  exact ⟨h.cap_eq, by rw [h.entries_eq, take_eraseDups_append hcap]⟩

/-- A check that runs only if it is enabled and the log has room. -/
theorem of_check (check : ViolationLog → ViolationLog) {found : List Violation}
    (h : RecordOf cap reports log) (enabled : Bool)
    (hcheck : RecordOf cap (reports ++ found) (check log)) :
    RecordOf cap (reports ++ if enabled then found else [])
      (if enabled && log.hasRoom then check log else log) := by
  cases enabled with
  | false => simpa using h
  | true =>
    cases hroom : log.hasRoom with
    | true => simpa using hcheck
    | false => simpa using h.of_full hroom found

/-- **A walk that may end early.**  If visiting a member records what there is to say about it, then
visiting all members, as long as there is room, records what there is to say about all of them. -/
theorem visitAll {α : Type} {visit : ViolationLog → α → ViolationLog}
    {found : α → List Violation}
    (hvisit : ∀ {reports : List Violation} {log : ViolationLog} (a : α),
      RecordOf cap reports log → RecordOf cap (reports ++ found a) (visit log a))
    (h : RecordOf cap reports log) (l : List α) :
    RecordOf cap (reports ++ l.flatMap found) (log.visitAll visit l) := by
  induction l generalizing reports log with
  | nil => simpa [ViolationLog.visitAll] using h
  | cons a l ih =>
    cases hroom : log.hasRoom with
    | true =>
      rw [ViolationLog.visitAll, if_pos hroom, List.flatMap_cons, ← List.append_assoc]
      exact ih (hvisit a h)
    | false =>
      rw [visitAll_of_full visit hroom]
      exact h.of_full hroom _

end RecordOf
end ViolationLog

open ViolationLog (RecordOf)

/-! ## Resolving condition rules -/

namespace ConditionRule

/-- What numbered rules establish for a category, one rule after the other. -/
def allFindings (inventory : Inventory) (c : FileCategory) (rules : List (ConditionRule × Nat)) :
    List ConditionFinding :=
  rules.flatMap fun (rule, position) => rule.findings inventory c position

@[simp] theorem allFindings_nil (inventory : Inventory) (c : FileCategory) :
    allFindings inventory c [] = [] := rfl

@[simp] theorem allFindings_cons (inventory : Inventory) (c : FileCategory) (rule : ConditionRule)
    (position : Nat) (rules : List (ConditionRule × Nat)) :
    allFindings inventory c ((rule, position) :: rules) =
      rule.findings inventory c position ++ allFindings inventory c rules := rfl

end ConditionRule

namespace Resolution

variable {inventory : Inventory} {c : FileCategory}

/-- Taking note of findings splits them: violations go to the log and folders to the allow-list. -/
theorem foldl_record (r : Resolution) (findings : List ConditionFinding) :
    findings.foldl record r =
      { allowed := (findings.filterMap ConditionFinding.allowed?).foldl AllowList.insert r.allowed
        log := r.log.addAll (findings.filterMap ConditionFinding.violation?) } := by
  induction findings generalizing r with
  | nil => rfl
  | cons finding findings ih =>
    rw [List.foldl_cons, ih]
    cases finding with
    | allowed folder => rfl
    | violated v => rfl

/-- Nothing is resolved with a full log. -/
theorem recordRules_of_full {r : Resolution} (h : r.log.hasRoom = false)
    (rules : List (ConditionRule × Nat)) : recordRules inventory c r rules = r := by
  cases rules with
  | nil => rfl
  | cons numbered rules => rw [recordRules, h]; rfl

/-- However early the log fills up, it is a record of the violations of all rules. -/
theorem recordOf_recordRules {cap : Nat} {reports : List Violation} {r : Resolution}
    (h : RecordOf cap reports r.log) (rules : List (ConditionRule × Nat)) :
    RecordOf cap
      (reports ++
        (ConditionRule.allFindings inventory c rules).filterMap ConditionFinding.violation?)
      (recordRules inventory c r rules).log := by
  induction rules generalizing r reports with
  | nil => simpa [recordRules] using h
  | cons numbered rules ih =>
    obtain ⟨rule, position⟩ := numbered
    cases hroom : r.log.hasRoom with
    | true =>
      rw [recordRules, if_pos hroom, ConditionRule.allFindings_cons, List.filterMap_append,
        ← List.append_assoc]
      refine ih ?_
      rw [foldl_record]
      exact h.addAll _
    | false =>
      rw [recordRules, hroom]
      exact h.of_full hroom _

/-- **The allow-list is complete whenever it is used.**  A log that has room after the rules had
room before each of them. -/
theorem allowed_recordRules {r : Resolution} {rules : List (ConditionRule × Nat)}
    (h : (recordRules inventory c r rules).log.hasRoom = true) :
    (recordRules inventory c r rules).allowed =
      ((ConditionRule.allFindings inventory c rules).filterMap
        ConditionFinding.allowed?).foldl AllowList.insert r.allowed := by
  induction rules generalizing r with
  | nil => rfl
  | cons numbered rules ih =>
    obtain ⟨rule, position⟩ := numbered
    cases hroom : r.log.hasRoom with
    | true =>
      rw [recordRules, if_pos hroom] at h ⊢
      rw [ih h, foldl_record, ConditionRule.allFindings_cons, List.filterMap_append,
        List.foldl_append]
    | false =>
      rw [recordRules, hroom] at h
      exact absurd h (by simp [hroom])

end Resolution

namespace ConditionRule

variable {inventory : Inventory} {c : FileCategory} {rules : List ConditionRule}
  {log : ViolationLog}

/-- Resolving rules with room in the beginning goes on with the record that the log is. -/
theorem recordOf_resolve (hroom : log.hasRoom = true) :
    RecordOf log.cap
      (log.entries ++
        (allFindings inventory c (rules.zipIdx 1)).filterMap ConditionFinding.violation?)
      (resolve inventory c rules log).log := by
  have hrecord : RecordOf log.cap log.entries (Resolution.mk .empty log).log := .of_hasRoom hroom
  exact Resolution.recordOf_recordRules hrecord _

/-- **Resolving rules with room in the end** keeps all that they establish: the allow-list is that
of the folders they allow, and the log goes on with the violations they report. -/
theorem resolve_of_hasRoom (h : (resolve inventory c rules log).log.hasRoom = true) :
    (resolve inventory c rules log).allowed =
        .ofList ((allFindings inventory c (rules.zipIdx 1)).filterMap ConditionFinding.allowed?) ∧
      RecordOf log.cap
        (log.entries ++
          (allFindings inventory c (rules.zipIdx 1)).filterMap ConditionFinding.violation?)
        (resolve inventory c rules log).log := by
  have hroom : log.hasRoom = true := by
    cases hlog : log.hasRoom with
    | true => rfl
    | false =>
      rw [resolve, Resolution.recordRules_of_full hlog] at h
      exact hlog.symm.trans h
  exact ⟨Resolution.allowed_recordRules h, recordOf_resolve hroom⟩

end ConditionRule

/-! ## The checks of a scan -/

namespace Scan

variable {scan : Scan} {cap : Nat} {reports : List Violation} {log : ViolationLog}

/-- The rules of a category leave a record of what they report. -/
theorem recordOf_resolveConditions (h : RecordOf cap reports log) (c : FileCategory) :
    RecordOf cap (reports ++ scan.conditionReports c) (scan.resolveConditions c log).log := by
  unfold resolveConditions conditionReports conditionFindings
  split
  · exact Resolution.recordOf_recordRules h _
  · simpa using h

/-- If the rules of a category leave room, they have all been looked at. -/
theorem allowed_resolveConditions {c : FileCategory}
    (h : (scan.resolveConditions c log).log.hasRoom = true) :
    (scan.resolveConditions c log).allowed = scan.allowedFolders c := by
  unfold resolveConditions at h ⊢
  unfold allowedFolders conditionFindings
  split at h
  · next hconditions =>
    rw [if_pos hconditions, if_pos hconditions]
    exact Resolution.allowed_recordRules h
  · next hconditions =>
    rw [if_neg hconditions, if_neg hconditions]
    rfl

/-- **Checking a category** records its condition reports and then the reports on its assets, each
of them held against the complete allow-list. -/
theorem recordOf_checkCategory (h : RecordOf cap reports log) (c : FileCategory) :
    RecordOf cap (reports ++ (scan.conditionReports c ++ scan.assetReports c))
      (scan.checkCategory log c) := by
  have hresolved : RecordOf cap (reports ++ scan.conditionReports c)
      (scan.resolveConditions c log).log := recordOf_resolveConditions h c
  rw [← List.append_assoc]
  cases hroom : (scan.resolveConditions c log).log.hasRoom with
  | true =>
    rw [checkCategory, assetReports, ← allowed_resolveConditions hroom]
    exact hresolved.visitAll (fun _ hlog => hlog.addAll _) _
  | false =>
    -- The allow-list may be incomplete here, and nothing is held against it.
    rw [checkCategory, ViolationLog.visitAll_of_full _ hroom]
    exact hresolved.of_full hroom _

/-- **A scan records its reports.** -/
theorem recordOf_record (scan : Scan) (h : RecordOf cap [] log) :
    RecordOf cap scan.reports (scan.record log) := by
  have hspecial : RecordOf cap ([] ++ scan.specialFolderReports)
      (if scan.settings.filter.specialFolders && log.hasRoom then scan.checkSpecialFolders log
        else log) :=
    h.of_check _ _ (h.addAll _)
  have hfolders := hspecial.of_check scan.checkFolders scan.settings.filter.folders
    (hspecial.visitAll (fun _ hlog => hlog.addAll _) _)
  exact hfolders.visitAll (fun c hlog => recordOf_checkCategory hlog c) scan.categories

end Scan

namespace Auditor

/-- The reports that a scan of an inventory by this auditor could make. -/
def reports (auditor : Auditor) (inventory : Inventory) : List Violation :=
  Scan.reports ⟨auditor.rules, auditor.settings, inventory⟩

/-- Whatever an auditor has scanned before, its log is a record of the last scan. -/
theorem recordOf_scan (auditor : Auditor) (inventory : Inventory) :
    RecordOf auditor.log.cap (auditor.reports inventory) (auditor.scan inventory).log :=
  Scan.recordOf_record _ (.empty auditor.log.cap)

/-- A scan is truncated exactly if the different reports reach the cap. -/
theorem truncated_scan_iff (auditor : Auditor) (inventory : Inventory) :
    (auditor.scan inventory).summary.truncated = true ↔
      auditor.log.cap ≤ (auditor.reports inventory).eraseDups.length := by
  have hroom := (auditor.recordOf_scan inventory).hasRoom_iff
  rw [summary, Bool.not_eq_true', ← Bool.not_eq_true, hroom]
  omega

/-- A scan that is not truncated records all different reports. -/
theorem entries_scan_of_not_truncated {auditor : Auditor} {inventory : Inventory}
    (h : (auditor.scan inventory).summary.truncated = false) :
    (auditor.scan inventory).log.entries = (auditor.reports inventory).eraseDups := by
  rw [summary, Bool.not_eq_false'] at h
  exact (auditor.recordOf_scan inventory).entries_of_hasRoom h

/-- What a scan that is not truncated records of a selection of the reports. -/
theorem filter_entries_scan {auditor : Auditor} {inventory : Inventory}
    (h : (auditor.scan inventory).summary.truncated = false) (selected : Violation → Bool) :
    (auditor.scan inventory).log.entries.filter selected =
      ((auditor.reports inventory).filter selected).eraseDups := by
  rw [entries_scan_of_not_truncated h, filter_eraseDups]

/-- **The log of a scan depends on the cap and the reports only.** -/
theorem log_scan_eq {auditor auditor' : Auditor} {inventory inventory' : Inventory}
    (hcap : auditor.log.cap = auditor'.log.cap)
    (h : auditor.reports inventory = auditor'.reports inventory') :
    (auditor.scan inventory).log = (auditor'.scan inventory').log := by
  have hrecord := auditor.recordOf_scan inventory
  have hrecord' := auditor'.recordOf_scan inventory'
  rw [← hcap, ← h] at hrecord'
  exact ViolationLog.ext (hrecord.cap_eq.trans hrecord'.cap_eq.symm)
    (hrecord.entries_eq.trans hrecord'.entries_eq.symm)

/-- The scan with every check switched on. -/
def fullScan (auditor : Auditor) (inventory : Inventory) : Scan where
  rules := auditor.rules
  settings := { auditor.settings with filter := .default }
  inventory := inventory

/-- **A check says the same whichever other checks run.**  The reports are those of the scan with
every check switched on, without the parts of the checks that are switched off; without the
condition rules, assets are held against an empty allow-list. -/
theorem reports_eq_parts (auditor : Auditor) (inventory : Inventory) :
    auditor.reports inventory =
      (if auditor.settings.filter.specialFolders then
          (auditor.fullScan inventory).specialFolderReports else []) ++
        (if auditor.settings.filter.folders then
          (auditor.fullScan inventory).folderReports else []) ++
        (Scan.categoryOrder.filter auditor.settings.filter.isEnabled).flatMap fun c =>
          if auditor.settings.filter.conditions then
            (auditor.fullScan inventory).conditionReports c ++
              (auditor.fullScan inventory).assetReports c
          else
            (inventory.assets c none).flatMap
              ((auditor.fullScan inventory).reportOnAsset c .empty) := by
  have hcategory (c : FileCategory) :
      Scan.conditionReports ⟨auditor.rules, auditor.settings, inventory⟩ c ++
          Scan.assetReports ⟨auditor.rules, auditor.settings, inventory⟩ c =
        if auditor.settings.filter.conditions then
          (auditor.fullScan inventory).conditionReports c ++
            (auditor.fullScan inventory).assetReports c
        else
          (inventory.assets c none).flatMap
            ((auditor.fullScan inventory).reportOnAsset c .empty) := by
    unfold Scan.conditionReports Scan.assetReports Scan.allowedFolders Scan.conditionFindings
    cases auditor.settings.filter.conditions with
    | true => rfl
    | false => rfl
  rw [reports, Scan.reports, funext hcategory]
  rfl

/-- **A capped scan records the first of the reports there are.**  For every auditor, whatever it
has scanned before, and every inventory:

* the log holds the first of the different reports, as many as the cap allows;
* the summary counts the entries, and calls the scan truncated exactly if the different reports
  reach the cap;
* the reports are those of the checks that are switched on, in the order of the checks, and each
  check says what it would say if every other check were on as well, apart from one case: with the
  conditions off no folder is allowed, so that assets are held against the empty allow-list;
* a smaller cap leaves an initial part of what a larger one leaves. -/
theorem scan_records_first_reports (auditor : Auditor) (inventory : Inventory) :
    (auditor.scan inventory).log.entries =
        (auditor.reports inventory).eraseDups.take auditor.log.cap ∧
      (auditor.scan inventory).summary.violations = (auditor.scan inventory).log.entries.length ∧
      ((auditor.scan inventory).summary.truncated = true ↔
        auditor.log.cap ≤ (auditor.reports inventory).eraseDups.length) ∧
      auditor.reports inventory =
        (if auditor.settings.filter.specialFolders then
            (auditor.fullScan inventory).specialFolderReports else []) ++
          (if auditor.settings.filter.folders then
            (auditor.fullScan inventory).folderReports else []) ++
          (Scan.categoryOrder.filter auditor.settings.filter.isEnabled).flatMap (fun c =>
            if auditor.settings.filter.conditions then
              (auditor.fullScan inventory).conditionReports c ++
                (auditor.fullScan inventory).assetReports c
            else
              (inventory.assets c none).flatMap
                ((auditor.fullScan inventory).reportOnAsset c .empty)) ∧
      ∀ smaller larger : UInt64, smaller ≤ larger →
        ((auditor.setMaxViolations smaller).scan inventory).log.entries =
          ((auditor.setMaxViolations larger).scan inventory).log.entries.take smaller.toNat := by
  have hentries (auditor : Auditor) := (auditor.recordOf_scan inventory).entries_eq
  refine ⟨hentries auditor, rfl, auditor.truncated_scan_iff inventory,
    auditor.reports_eq_parts inventory, ?_⟩
  intro smaller larger hle
  have hmin : min smaller.toNat larger.toNat = smaller.toNat :=
    Nat.min_eq_left (UInt64.le_iff_toNat_le.mp hle)
  -- The reports do not read the limit on violations, so both scans cut the same list.
  have hreports : (auditor.setMaxViolations smaller).reports inventory =
      (auditor.setMaxViolations larger).reports inventory := rfl
  rw [hentries, hentries, hreports, List.take_take]
  exact congrArg (fun n => List.take n _) hmin.symm

/-- Of two missing special folders, one of which is asked for twice, a scan with room for one
violation records the first. -/
theorem scan_records_first_reports_two_missing :
    let auditor : Auditor :=
      .new { Rules.default with specialFolders := ["Art", "Art/", "Audio"] } .default
    let recorded := fun max : UInt64 =>
      ((auditor.setMaxViolations max).scan MemoryInventory.empty.toInventory).log.entries
    (1 : UInt64) ≤ 3 ∧ recorded 1 = (recorded 3).take 1 ∧
      (recorded 3).map Violation.fullPath = ["Assets/Art", "Assets/Audio"] :=
  ⟨by decide,
    (scan_records_first_reports
      (.new { Rules.default with specialFolders := ["Art", "Art/", "Audio"] } .default)
      MemoryInventory.empty.toInventory).2.2.2.2 1 3 (by decide),
    by decide +kernel⟩

end Auditor

end AssetAudit
