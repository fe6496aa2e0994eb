import AssetAudit.Scan

/-!
# Auditors

An auditor holds rules, settings and the log of its last scan, and lets all three change between
scans.  Each scan starts from an empty log; changing the settings changes the cap of the log and
leaves its entries as they are.
-/

namespace AssetAudit

/-- What one scan amounts to. -/
structure ScanSummary where
  /-- The number of recorded violations. -/
  violations : Nat
  /-- Did the scan fill the log? -/
  truncated : Bool
  deriving DecidableEq, Repr

/-- Rules and settings, with the log of the last scan. -/
structure Auditor where
  rules : Rules
  settings : Settings
  log : ViolationLog

namespace Auditor

/-- An auditor that has not scanned anything. -/
def new (rules : Rules) (settings : Settings) : Auditor :=
  ⟨rules, settings, .empty settings.maxViolations.toNat⟩

/-- Other settings for the next scan. -/
def setSettings (auditor : Auditor) (settings : Settings) : Auditor :=
  { auditor with settings, log := auditor.log.withCap settings.maxViolations.toNat }

/-- Another number of violations at which the next scan stops. -/
def setMaxViolations (auditor : Auditor) (max : UInt64) : Auditor :=
  { auditor with
    settings := { auditor.settings with maxViolations := max }
    log := auditor.log.withCap max.toNat }

/-- Edits the rules. -/
def modifyRules (auditor : Auditor) (edit : Rules → Rules) : Auditor :=
  { auditor with rules := edit auditor.rules }

/-- The number of recorded violations, and whether there may be more. -/
def summary (auditor : Auditor) : ScanSummary where
  violations := auditor.log.count
  truncated := !auditor.log.hasRoom

/-- Scans an inventory. -/
def scan (auditor : Auditor) (inventory : Inventory) : Auditor :=
  { auditor with log := Scan.record ⟨auditor.rules, auditor.settings, inventory⟩ auditor.log.clear }

end Auditor

end AssetAudit
