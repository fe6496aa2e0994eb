import AssetAudit.CommandLine.Run
import AssetAudit.Proofs.CappedScan
import AssetAudit.Proofs.JsonText
import AssetAudit.Proofs.PrintedText

/-!
# The verdict of the scan command

The exit code of a scan says whether a project is in order.  It is computed from the log of a capped
scan, on the way to an export that may fail and a report in one of two formats.  None of this
matters: the code is zero exactly if the complete scan finds nothing and the scan could have
recorded something.

* `ViolationLog.RecordOf.hasPassed_iff` reads the verdict off the reports that a log is a record of;
* `ScanRequest.configure_eq` says by which settings a request scans;
* `ScanRequest.exportLog_of_isEmpty` is why a failed export never hides a pass: with nothing
  recorded, nothing is written;
* `ScanRequest.output_of_text` and `JsonReport.success_report` read the verdict off what is printed
  in the two formats.
-/

namespace AssetAudit

namespace ViolationLog

/-- **The verdict.**  A record has passed exactly if there was nothing to report and room to do
so. -/
theorem RecordOf.hasPassed_iff {cap : Nat} {reports : List Violation} {log : ViolationLog}
    (h : RecordOf cap reports log) : log.hasPassed = true ↔ 1 ≤ cap ∧ reports.eraseDups = [] := by
  rw [hasPassed, Bool.and_eq_true, h.hasRoom_iff, isEmpty, List.isEmpty_iff, h.entries_eq,
    List.take_eq_nil_iff]
  constructor
  · rintro ⟨hcap | hnone, hroom⟩
    · omega
    · exact ⟨by omega, hnone⟩
  · rintro ⟨hcap, hnone⟩
    rw [hnone]
    exact ⟨.inr rfl, hcap⟩

end ViolationLog

/-! ## The report for other programs -/

namespace JsonReport

/-- The fields of a report. -/
def fieldNames : List String := ["success", "project", "summary", "violations", "export_path"]

/-- **The JSON report says in its field `success` whether the scan has passed.** -/
theorem success_report (project : String) (log : ViolationLog) (milliseconds : Nat)
    (exportedTo : Option String) :
    ∃ fields, (report project log milliseconds exportedTo).fields? fieldNames = some fields ∧
      fields.get? "success" = some (.bool log.hasPassed) := by
  cases exportedTo with
  | none => exact ⟨_, rfl, rfl⟩
  | some path => exact ⟨_, rfl, rfl⟩

end JsonReport

namespace CommandLine
namespace ScanRequest

/-! ## The settings of a request -/

/-- The number of violations that the request records at most, given the configuration of the
project. -/
def effectiveCap (request : ScanRequest) (loaded : Config) : UInt64 :=
  request.maxViolations.getD loaded.settings.maxViolations

/-- The scan of the request under a filter, as far as it does not depend on a log. -/
def completeScan (request : ScanRequest) (tree : FileTree) (loaded : Config) (filter : ScanFilter) :
    Scan where
  rules := loaded.rules
  settings := { loaded.settings with filter }
  inventory := request.inventory tree

/-- A request for a folder that exists, with a configuration that can be loaded and names of checks
that are known, is refused only for asking to record nothing. -/
theorem configure_eq {request : ScanRequest} {tree : FileTree} {loaded : Config}
    {filter : ScanFilter} (hproject : tree.isFolder request.project = true)
    (hloaded : request.loadConfig tree = .ok loaded)
    (hskip : loaded.settings.filter.disableNamed request.skip = (filter, none)) :
    request.configure tree =
      if request.maxViolations = some 0 then .error .noViolationsAllowed
      else .ok
        { loaded with
          settings :=
            { loaded.settings with maxViolations := request.effectiveCap loaded, filter } } := by
  by_cases hzero : request.maxViolations = some 0
  · have hlimit : request.limit loaded.settings = .error .noViolationsAllowed := by
      simp [limit, hzero]
    rw [if_pos hzero]
    simp [configure, hproject, hloaded, hlimit, bind, Except.bind]
  · have hlimit : request.limit loaded.settings =
        .ok { loaded.settings with maxViolations := request.effectiveCap loaded } := by
      unfold limit effectiveCap
      cases hmax : request.maxViolations with
      | none => rfl
      | some max =>
        have hne : max ≠ 0 := fun h => hzero (by rw [hmax, h])
        simp [hne]
    rw [if_neg hzero]
    simp [configure, hproject, hloaded, hlimit, skipChecks, hskip, bind, Except.bind, pure,
      Except.pure]

/-- The log of the scan is a record of the complete scan. -/
theorem recordOf_scan (request : ScanRequest) (tree : FileTree) (loaded : Config) (cap : UInt64)
    (filter : ScanFilter) :
    ViolationLog.RecordOf cap.toNat (request.completeScan tree loaded filter).reports
      (request.scan tree
        { loaded with settings := { loaded.settings with maxViolations := cap, filter } }) :=
  Auditor.recordOf_scan
    (.new loaded.rules { loaded.settings with maxViolations := cap, filter })
    (request.inventory tree)

/-! ## Running a request -/

/-- **An empty log is exported without a failure**, wherever it is exported to. -/
theorem exportLog_of_isEmpty (request : ScanRequest) (tree : FileTree) {log : ViolationLog}
    (h : log.isEmpty = true) : request.exportLog tree log = .ok (tree, none) := by
  unfold exportLog
  cases request.exportPath? with
  | none => rfl
  | some path =>
    have hexport : Csv.exportTo tree path log.entries = .ok (tree, false) := if_pos h
    simp only [hexport]

/-- What a request prints about a log, once it gets that far. -/
theorem run_eq {request : ScanRequest} {surroundings : Surroundings} {config : Config}
    (h : request.configure surroundings.tree = .ok config) :
    request.run surroundings =
      (request.exportLog surroundings.tree (request.scan surroundings.tree config)).map
        fun (tree, exportedTo) =>
          { exitCode := if (request.scan surroundings.tree config).hasPassed then 0 else 1
            output :=
              request.report surroundings (request.scan surroundings.tree config) exportedTo
            tree } := by
  simp only [run, h]
  cases hexport : request.exportLog surroundings.tree (request.scan surroundings.tree config) with
  | error e => simp [bind, Except.bind, Except.map, hexport]
  | ok exported => simp [bind, Except.bind, Except.map, hexport, pure, Except.pure]

/-- **The exit code is the verdict on the log**, also if the export fails. -/
theorem exitCode_execute {request : ScanRequest} {surroundings : Surroundings} {config : Config}
    (h : request.configure surroundings.tree = .ok config) :
    (Command.execute surroundings (.scan request)).exitCode =
      if (request.scan surroundings.tree config).hasPassed then 0 else 1 := by
  rw [Command.execute, Command.run, run_eq h]
  cases hexport : request.exportLog surroundings.tree (request.scan surroundings.tree config) with
  | ok exported => rfl
  | error e =>
    have hnonempty : (request.scan surroundings.tree config).isEmpty = false := by
      rw [← Bool.not_eq_true]
      intro hempty
      rw [exportLog_of_isEmpty request _ hempty] at hexport
      exact absurd hexport (by simp)
    simp [Except.map, ViolationLog.hasPassed, hnonempty]

/-- The exit code of a request that can be carried out, in terms of the complete scan. -/
theorem exitCode_execute_eq (request : ScanRequest) (surroundings : Surroundings)
    {loaded : Config} {filter : ScanFilter}
    (hproject : surroundings.tree.isFolder request.project = true)
    (hloaded : request.loadConfig surroundings.tree = .ok loaded)
    (hskip : loaded.settings.filter.disableNamed request.skip = (filter, none)) :
    (Command.execute surroundings (.scan request)).exitCode =
      if 1 ≤ request.effectiveCap loaded ∧
          (request.completeScan surroundings.tree loaded filter).findings = [] then 0 else 1 := by
  have hconfigure := configure_eq hproject hloaded hskip
  by_cases hzero : request.maxViolations = some 0
  · have hcap : ¬ 1 ≤ request.effectiveCap loaded := by simp [effectiveCap, hzero]
    rw [if_pos hzero] at hconfigure
    rw [if_neg fun h => hcap h.1]
    simp [Command.execute, Command.run, run, hconfigure, bind, Except.bind]
  · rw [if_neg hzero] at hconfigure
    have hpassed := (request.recordOf_scan surroundings.tree loaded (request.effectiveCap loaded)
      filter).hasPassed_iff
    have hone : 1 ≤ (request.effectiveCap loaded).toNat ↔ 1 ≤ request.effectiveCap loaded := by
      rw [UInt64.le_iff_toNat_le]
      rfl
    rw [hone] at hpassed
    rw [exitCode_execute hconfigure]
    exact if_congr hpassed rfl rfl

/-! ## What is printed -/

/-- What is printed about an export, behind a text report. -/
def exportText (request : ScanRequest) (colour : Bool) (exportedTo : Option String) : String :=
  match request.exportTarget, exportedTo with
  | none, _ => ""
  | some _, some path => styled colour "1;36" "Exported:" ++ " " ++ path ++ "\n"
  | some _, none => styled colour "2" "Nothing to export" ++ "\n"

theorem renderAll_exportLines (request : ScanRequest) (colour : Bool) (exportedTo : Option String) :
    Line.renderAll colour (request.exportLines exportedTo) =
      request.exportText colour exportedTo := by
  unfold exportLines exportText
  cases request.exportTarget with
  | none => rfl
  | some target =>
    cases exportedTo with
    | none => simp [Emphasis.apply_eq_styled (e := .faint) rfl]
    | some path => simp [Emphasis.apply_eq_styled (e := .heading) rfl, String.append_assoc]

/-- **A run that comes to its end** reports on the log of its scan, with the verdict on the log as
its exit code.  If the scan has passed there was nothing to export. -/
theorem exists_report_of_run {request : ScanRequest} {surroundings : Surroundings} {config : Config}
    {outcome : Outcome} (hconfigure : request.configure surroundings.tree = .ok config)
    (hrun : request.run surroundings = .ok outcome) :
    let log := request.scan surroundings.tree config
    ∃ exportedTo, outcome.output = request.report surroundings log exportedTo ∧
      outcome.exitCode = (if log.hasPassed then 0 else 1) ∧
      (log.hasPassed = true → exportedTo = none) := by
  intro log
  rw [run_eq hconfigure] at hrun
  cases hexport : request.exportLog surroundings.tree log with
  | error e => simp [log, hexport, Except.map] at hrun
  | ok exported =>
    obtain ⟨tree, exportedTo⟩ := exported
    rw [hexport] at hrun
    obtain rfl := Except.ok.inj hrun
    refine ⟨exportedTo, rfl, rfl, fun hpassed => ?_⟩
    rw [ViolationLog.hasPassed, Bool.and_eq_true] at hpassed
    rw [exportLog_of_isEmpty request _ hpassed.1] at hexport
    exact (Prod.mk.inj (Except.ok.inj hexport)).2.symm

/-- A report for reading: the header, the sections, the verdict, and what has been exported. -/
theorem report_of_text {request : ScanRequest} (hjson : request.json = false)
    (surroundings : Surroundings) (log : ViolationLog) (exportedTo : Option String) :
    request.report surroundings log exportedTo =
      TextReport.headerText surroundings.colour request.project ++
        (if log.hasPassed then
          "\n" ++ TextReport.passedText surroundings.colour surroundings.milliseconds
        else
          String.join (log.sections.map (TextReport.sectionText surroundings.colour)) ++ "\n" ++
            TextReport.failedText surroundings.colour log surroundings.milliseconds) ++
        request.exportText surroundings.colour exportedTo := by
  rw [report, hjson, if_neg Bool.false_ne_true, Line.renderAll_append, TextReport.renderAll_lines,
    renderAll_exportLines]

/-- **The printed text agrees with the exit code.**  The text of a scan that has passed is printed
exactly if the exit code is zero, and otherwise that of a scan that has not. -/
theorem output_of_text {request : ScanRequest} (hjson : request.json = false)
    {surroundings : Surroundings} {log : ViolationLog} {exportedTo : Option String}
    {outcome : Outcome} (houtput : outcome.output = request.report surroundings log exportedTo)
    (hcode : outcome.exitCode = (if log.hasPassed then 0 else 1))
    (hnone : log.hasPassed = true → exportedTo = none) :
    let header := TextReport.headerText surroundings.colour request.project
    (outcome.output = header ++ "\n" ++
          TextReport.passedText surroundings.colour surroundings.milliseconds ++
          request.exportText surroundings.colour none ↔ outcome.exitCode = 0) ∧
      (outcome.exitCode ≠ 0 → outcome.output = header ++
          String.join (log.sections.map (TextReport.sectionText surroundings.colour)) ++ "\n" ++
          TextReport.failedText surroundings.colour log surroundings.milliseconds ++
          request.exportText surroundings.colour exportedTo) := by
  intro header
  rw [houtput, report_of_text hjson, hcode]
  cases hpassed : log.hasPassed with
  | true =>
    rw [hnone hpassed]
    simp [header, String.append_assoc]
  | false =>
    have hother := TextReport.append_failedText_ne surroundings.colour log.sections log
      surroundings.milliseconds (request.exportText surroundings.colour exportedTo)
      (request.exportText surroundings.colour none)
    simp only [String.append_assoc] at hother
    simp [header, String.append_assoc, hother]

/-- **The exit code is zero exactly if the complete scan is clean.**  For a project folder that
exists, a configuration that can be loaded and skipped checks that are known:

* the exit code is zero exactly if the effective cap is at least one and there is nothing to find
  under the remaining checks, so an effective cap of zero never passes;
* on the same tree, another format, another export target and another number of violations to record
  lead to the same exit code, as long as both caps or none of them are at least one;
* if a report is printed, it is on the first of the findings.  In the one format it is read back
  with the verdict in its field `success`.  In the other it is the header, a blank line and the line
  `PASSED`, and behind these at most a line that there was nothing to export, exactly if the exit
  code is zero; and otherwise the header, the sections and the line `FAILED`, and behind these what
  has been exported. -/
theorem exitCode_zero_iff_complete_scan_clean (request : ScanRequest) (surroundings : Surroundings)
    {loaded : Config} {filter : ScanFilter}
    (hproject : surroundings.tree.isFolder request.project = true)
    (hloaded : request.loadConfig surroundings.tree = .ok loaded)
    (hskip : loaded.settings.filter.disableNamed request.skip = (filter, none)) :
    ((Command.execute surroundings (.scan request)).exitCode = 0 ↔
        1 ≤ request.effectiveCap loaded ∧
          (request.completeScan surroundings.tree loaded filter).findings = []) ∧
      (∀ json exportTarget maxViolations colour milliseconds,
        let other : ScanRequest := { request with json, exportTarget, maxViolations }
        (1 ≤ other.effectiveCap loaded ↔ 1 ≤ request.effectiveCap loaded) →
          (Command.execute { surroundings with colour, milliseconds } (.scan other)).exitCode =
            (Command.execute surroundings (.scan request)).exitCode) ∧
      ∀ outcome, request.run surroundings = .ok outcome →
        outcome.exitCode = (Command.execute surroundings (.scan request)).exitCode ∧
          ∃ log exportedTo,
            log.entries = (request.completeScan surroundings.tree loaded filter).findings.take
              (request.effectiveCap loaded).toNat ∧
            (request.json = true →
              ∃ report fields, Json.parse? outcome.output = some report ∧
                outcome.output = report.pretty ++ "\n" ∧
                report =
                  JsonReport.report request.project log surroundings.milliseconds exportedTo ∧
                report.fields? JsonReport.fieldNames = some fields ∧
                fields.get? "success" = some (.bool (outcome.exitCode == 0))) ∧
            (request.json = false →
              let header := TextReport.headerText surroundings.colour request.project
              (outcome.output = header ++ "\n" ++
                    TextReport.passedText surroundings.colour surroundings.milliseconds ++
                    request.exportText surroundings.colour none ↔ outcome.exitCode = 0) ∧
                (outcome.exitCode ≠ 0 → outcome.output = header ++
                    String.join (log.sections.map (TextReport.sectionText surroundings.colour)) ++
                    "\n" ++
                    TextReport.failedText surroundings.colour log surroundings.milliseconds ++
                    request.exportText surroundings.colour exportedTo)) := by
  have hcode := exitCode_execute_eq request surroundings hproject hloaded hskip
  refine ⟨?_, ?_, ?_⟩
  · rw [hcode]
    split
    · next h => exact ⟨fun _ => h, fun _ => rfl⟩
    · next h => exact ⟨fun h' => absurd h' (by decide), fun h' => absurd h' h⟩
  · intro json exportTarget maxViolations colour milliseconds other hcap
    have hother := exitCode_execute_eq other { surroundings with colour, milliseconds } hproject
      hloaded hskip
    rw [hcode, hother]
    exact if_congr (and_congr_left' hcap) rfl rfl
  · intro outcome hrun
    have hexecute : (Command.execute surroundings (.scan request)).exitCode = outcome.exitCode := by
      simp [Command.execute, Command.run, hrun]
    have hconfigure := configure_eq hproject hloaded hskip
    have hzero : ¬ request.maxViolations = some 0 := by
      intro hzero
      rw [if_pos hzero] at hconfigure
      simp [run, hconfigure, bind, Except.bind] at hrun
    rw [if_neg hzero] at hconfigure
    obtain ⟨exportedTo, houtput, hverdict, hnone⟩ := exists_report_of_run hconfigure hrun
    refine ⟨hexecute.symm, _, exportedTo,
      (request.recordOf_scan surroundings.tree loaded _ filter).entries_eq,
      fun hjson => ?_, fun hjson => output_of_text hjson houtput hverdict hnone⟩
    rw [report, if_pos hjson] at houtput
    obtain ⟨fields, hfields, hsuccess⟩ := JsonReport.success_report request.project
      (request.scan surroundings.tree _) surroundings.milliseconds exportedTo
    refine ⟨_, fields, ?_, houtput, rfl, hfields, ?_⟩
    · rw [houtput]
      exact Json.parse?_pretty_append rfl _
    · rw [hsuccess, hverdict]
      split <;> simp_all

/-- A project with a misnamed folder fails, whether the violations are printed or are to be exported
to a folder that is missing. -/
theorem exitCode_zero_iff_complete_scan_clean_failed_export :
    let tree := ((FileTree.empty.insert [] "game" (.folder .full)).insert ["game"] "Assets"
      (.folder .full)).insert ["game", "Assets"] "old stuff" (.folder .full)
    let request : ScanRequest :=
      { project := "game", config := none, maxViolations := none, exportTarget := none,
        json := false, skip := ["Conditions"] }
    let other : ScanRequest :=
      { request with
        json := true, exportTarget := some (.file "missing/out.csv"), maxViolations := some 1 }
    tree.isFolder request.project = true ∧
      (Command.execute ⟨tree, false, 0⟩ (.scan other)).exitCode =
        (Command.execute ⟨tree, true, 7⟩ (.scan request)).exitCode ∧
      (Command.execute ⟨tree, true, 7⟩ (.scan request)).exitCode = 1 := by
  intro tree request other
  have hproject : tree.isFolder request.project = true := by decide +kernel
  have hpath : Config.pathFor? tree request.project request.config = none := by decide +kernel
  have hloaded : request.loadConfig tree = .ok .default := by rw [loadConfig, hpath]
  have hskip : Config.default.settings.filter.disableNamed request.skip =
      ({ ScanFilter.default with conditions := false }, none) := rfl
  refine ⟨hproject, ?_, by decide +kernel⟩
  have hverdict :=
    exitCode_zero_iff_complete_scan_clean request ⟨tree, true, 7⟩ hproject hloaded hskip
  exact hverdict.2.1 true (some (.file "missing/out.csv")) (some 1) false 0 (by decide)

end ScanRequest
end CommandLine

end AssetAudit
