import AssetAudit.Proofs.CappedScan

/-!
# Auditors without a memory

An auditor is used again and again: its settings and rules are edited, and inventories are scanned,
in any order.  What it carries from one scan to the next is its log, and three operations write into
that: both ways to change the settings set the cap, whatever the log holds at that time, and a scan
replaces the entries.  This file shows that nothing of it comes through.

* `Auditor.InStep` is what every history leaves behind: the cap of the log is the one of the
  settings (`Auditor.InStep.perform`, `Auditor.inStep_run`).
* `Auditor.entries_editAll`: edits leave the recorded violations of the last scan alone, even when
  the new cap is smaller than their number.
* `Auditor.scan_eq_scan_new`: from such a state a scan is that of a new auditor.
-/

namespace AssetAudit
namespace Auditor

/-! ## Histories -/

/-- A change between scans. -/
inductive Edit where
  | settings (settings : Settings)
  | maxViolations (max : UInt64)
  | rules (edit : Rules → Rules)

/-- One use of an auditor. -/
inductive Step where
  | edit (e : Edit)
  | scan (inventory : Inventory)

/-- The auditor after a change. -/
def edit (auditor : Auditor) : Edit → Auditor
  | .settings settings => auditor.setSettings settings
  | .maxViolations max => auditor.setMaxViolations max
  | .rules edit => auditor.modifyRules edit

/-- The auditor after some changes. -/
def editAll (auditor : Auditor) (edits : List Edit) : Auditor := edits.foldl edit auditor

/-- The auditor after one use. -/
def perform (auditor : Auditor) : Step → Auditor
  | .edit e => auditor.edit e
  | .scan inventory => auditor.scan inventory

/-- The auditor after a history of uses. -/
def run (auditor : Auditor) (steps : List Step) : Auditor := steps.foldl perform auditor

/-! ## What a history leaves behind -/

/-- The cap of the log is the one that the settings ask for. -/
def InStep (auditor : Auditor) : Prop :=
  auditor.log.cap = auditor.settings.maxViolations.toNat

theorem inStep_new (rules : Rules) (settings : Settings) : (new rules settings).InStep := rfl

/-- A scan neither changes the rules nor the settings nor the cap. -/
theorem cap_scan (auditor : Auditor) (inventory : Inventory) :
    (auditor.scan inventory).log.cap = auditor.log.cap :=
  (auditor.recordOf_scan inventory).cap_eq

/-- **One use** keeps the log in step with the settings. -/
theorem InStep.perform {auditor : Auditor} (h : auditor.InStep) (step : Step) :
    (auditor.perform step).InStep := by
  cases step with
  | edit e =>
    cases e with
    | settings settings => exact ViolationLog.cap_withCap _ _
    | maxViolations max => exact ViolationLog.cap_withCap _ _
    | rules edit => exact h
  | scan inventory => exact (auditor.cap_scan inventory).trans h

/-- **A history** keeps the log in step with the settings. -/
theorem inStep_run {auditor : Auditor} (h : auditor.InStep) (steps : List Step) :
    (auditor.run steps).InStep := by
  induction steps generalizing auditor with
  | nil => exact h
  | cons step steps ih => exact ih (h.perform step)

/-- A change leaves the recorded violations alone. -/
theorem entries_edit (auditor : Auditor) (e : Edit) :
    (auditor.edit e).log.entries = auditor.log.entries := by
  cases e with
  | settings settings => exact ViolationLog.entries_withCap _ _
  | maxViolations max => exact ViolationLog.entries_withCap _ _
  | rules edit => rfl

/-- **Changes between scans** leave the recorded violations alone. -/
theorem entries_editAll (auditor : Auditor) (edits : List Edit) :
    (auditor.editAll edits).log.entries = auditor.log.entries := by
  induction edits generalizing auditor with
  | nil => rfl
  | cons e edits ih => exact (ih (auditor.edit e)).trans (auditor.entries_edit e)

/-! ## Scanning after a history -/

/-- **A scan starts from nothing but the rules and the settings**, if the log is in step with
them. -/
theorem scan_eq_scan_new {auditor : Auditor} (h : auditor.InStep) (inventory : Inventory) :
    auditor.scan inventory = (new auditor.rules auditor.settings).scan inventory := by
  have hclear : auditor.log.clear = ViolationLog.empty auditor.settings.maxViolations.toNat :=
    congrArg ViolationLog.empty h
  rw [scan, hclear]
  rfl

/-- A scan records no more violations than the settings ask for. -/
theorem length_entries_scan_le {auditor : Auditor} (h : auditor.InStep) (inventory : Inventory) :
    (auditor.scan inventory).log.entries.length ≤ auditor.settings.maxViolations.toNat := by
  rw [(auditor.recordOf_scan inventory).entries_eq, h]
  exact List.length_take_le _ _

/-- **No history dependence.**  Take a new auditor and use it in any way: change its settings or the
number of violations at which it stops, edit its rules, scan inventories, in any order.  Afterwards

* the cap of its log is the one in its settings, and no violation is recorded twice;
* further changes leave the recorded violations as they are;
* a scan does what it does with a new auditor that has the same rules and settings: it records the
  same violations in the same order and gives the same summary, and it records at most as many
  violations as the settings say. -/
theorem scan_after_any_history (rules : Rules) (settings : Settings) (steps : List Step) :
    let auditor := (new rules settings).run steps
    let fresh := new auditor.rules auditor.settings
    auditor.log.cap = auditor.settings.maxViolations.toNat ∧
      auditor.log.entries.Nodup ∧
      (∀ edits : List Edit, (auditor.editAll edits).log.entries = auditor.log.entries) ∧
      ∀ inventory : Inventory,
        (auditor.scan inventory).log.entries = (fresh.scan inventory).log.entries ∧
          (auditor.scan inventory).summary = (fresh.scan inventory).summary ∧
          (auditor.scan inventory).summary.violations =
            (auditor.scan inventory).log.entries.length ∧
          (auditor.scan inventory).log.entries.length ≤ auditor.settings.maxViolations.toNat := by
  intro auditor fresh
  have hstep : auditor.InStep := inStep_run (inStep_new rules settings) steps
  refine ⟨hstep, auditor.log.distinct, auditor.entries_editAll, fun inventory => ?_⟩
  have hscan : auditor.scan inventory = fresh.scan inventory := scan_eq_scan_new hstep inventory
  exact ⟨by rw [hscan], by rw [hscan], rfl, length_entries_scan_le hstep inventory⟩

/-- A cap below the number of recorded violations drops none of them, and the next scan obeys it. -/
example :
    let rules := { Rules.default with specialFolders := ["Art", "Audio"] }
    let inventory := MemoryInventory.empty.toInventory
    let lowered := (new rules .default).run [.scan inventory, .edit (.maxViolations 1)]
    lowered.log.entries.map Violation.fullPath = ["Assets/Art", "Assets/Audio"] ∧
      (lowered.scan inventory).log.entries.map Violation.fullPath = ["Assets/Art"] := by
  decide +kernel

end Auditor
end AssetAudit
