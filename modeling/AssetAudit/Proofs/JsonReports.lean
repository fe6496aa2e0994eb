import AssetAudit.Proofs.ConfigRoundTrip
import AssetAudit.Proofs.Verdict

/-!
# JSON reports say what was found

Names of folders and assets are any texts, and a hint is written only if there is one.  Other
programs still get back from a report what the scan has recorded.

* `Violation.ofJson?_toJson`: a violation is read back from its record, with the hint that it has.
* `Violation.hint_mem_iff`: the member `hint` is written exactly if the hint is not empty.
* `JsonReport.report_fields`: what stands in the fields of a report.
* `CommandLine.ScanRequest.output_of_json`: the output of a scan is the text of the report on the
  log of an auditor with the rules and settings of the request.

The texts are read back by `Json.parse?_pretty` and `Json.parse?_compact`.
-/

namespace AssetAudit

/-! ## Violations -/

namespace Violation

/-- The members of a violation as a record. -/
def members (v : Violation) : List (String × Json) :=
  [("kind", .text v.kind.name), ("category", .text v.category.name), ("asset_name", .text v.name),
    ("folder_path", .text v.folder)] ++ (if v.hint.isEmpty then [] else [("hint", .text v.hint)])

/-- The members are those that are written. -/
theorem toJson_eq (v : Violation) : v.toJson = Json.record v.members := rfl

/-- **A hint is written exactly if there is one.** -/
theorem hint_mem_iff (v : Violation) : "hint" ∈ v.members.map Prod.fst ↔ v.hint ≠ "" := by
  rw [members, ne_eq, ← String.isEmpty_iff]
  cases v.hint.isEmpty <;> simp

/-- What stands under `hint`. -/
theorem lookup_hint (v : Violation) :
    v.members.lookup "hint" = if v.hint.isEmpty then none else some (.text v.hint) := by
  rw [members]
  cases v.hint.isEmpty <;> rfl

/-- **A violation is read back from its record.**  A hint that was left out is read as no hint. -/
theorem ofJson?_toJson (v : Violation) : ofJson? v.toJson = some v := by
  have hnodup : (v.members.map Prod.fst).Nodup := by
    rw [members]
    cases v.hint.isEmpty <;> simp
  have hhint : (Json.Fields.optional ⟨fun name => v.members.lookup name⟩ "hint" Json.toText? "") =
      some v.hint := by
    simp only [Json.Fields.optional, lookup_hint]
    cases hempty : v.hint.isEmpty with
    | true => exact congrArg some (String.isEmpty_iff.mp hempty).symm
    | false => rfl
  have hkind : Json.toName? ViolationKind.ofName? (.text v.kind.name) = some v.kind :=
    ViolationKind.ofName?_name v.kind
  have hcategory : Json.toName? Category.ofName? (.text v.category.name) = some v.category :=
    Category.ofName?_name v.category
  rw [toJson_eq, ofJson?, Json.fields?_record hnodup]
  simp only [Option.bind_eq_bind, Option.bind_some, hhint]
  simp only [Json.Fields.required, members, List.cons_append, List.lookup_cons_self,
    Json.lookup_cons_of_ne, ne_eq, String.reduceEq, not_false_eq_true, Option.bind_some,
    hkind, hcategory, Json.toText?_text]
  rfl

end Violation

/-! ## Reports -/

namespace JsonReport

/-- The fields of the summary in a report. -/
def summaryFieldNames : List String := ["violations", "elapsed_ms", "truncated"]

/-- **The fields of a report**: the verdict, the number of violations, and the violations
themselves. -/
theorem report_fields (project : String) (log : ViolationLog) (milliseconds : Nat)
    (exportedTo : Option String) :
    ∃ fields summary,
      (report project log milliseconds exportedTo).fields? fieldNames = some fields ∧
      fields.get? "success" = some (.bool log.hasPassed) ∧
      fields.required "summary" (Json.fields? summaryFieldNames) = some summary ∧
      summary.get? "violations" = some (.nat log.entries.length) ∧
      fields.required "violations" (Json.toList? Violation.ofJson?) = some log.entries := by
  have hentries : Json.toList? Violation.ofJson? (.array (log.entries.map Violation.toJson)) =
      some log.entries := Json.toList?_map fun v _ => v.ofJson?_toJson
  cases exportedTo with
  | none => exact ⟨_, _, rfl, rfl, rfl, rfl, hentries⟩
  | some path => exact ⟨_, _, rfl, rfl, rfl, rfl, hentries⟩

end JsonReport

namespace ViolationLog

/-- A scan has passed if nothing was recorded and the log is not full. -/
theorem hasPassed_iff (log : ViolationLog) :
    log.hasPassed = true ↔ log.entries = [] ∧ log.hasRoom = true := by
  rw [hasPassed, Bool.and_eq_true, isEmpty, List.isEmpty_iff]

end ViolationLog

namespace CommandLine
namespace ScanRequest

/-- The output of a scan that comes to its end, if JSON is wanted. -/
theorem output_of_json {request : ScanRequest} {surroundings : Surroundings} {outcome : Outcome}
    (hjson : request.json = true) (hrun : request.run surroundings = .ok outcome) :
    ∃ config exportedTo, request.configure surroundings.tree = .ok config ∧
      outcome.output =
        (JsonReport.report request.project (request.scan surroundings.tree config)
          surroundings.milliseconds exportedTo).pretty ++ "\n" := by
  cases hconfigure : request.configure surroundings.tree with
  | error e => simp [run, hconfigure, bind, Except.bind] at hrun
  | ok config =>
    obtain ⟨exportedTo, houtput, -⟩ := exists_report_of_run hconfigure hrun
    exact ⟨config, exportedTo, rfl, by rw [houtput, report, if_pos hjson]⟩

/-- **JSON reports are faithful.**

* The text of a violation, in either form, is an object that has a member `hint` exactly if the hint
  is not empty, and it denotes this violation.
* The output of a scan that comes to its end is one JSON value.  Its violations are those that the
  auditor has recorded, in this order, its summary gives their number, and it announces a success
  exactly if there are none and the scan was not cut short. -/
theorem json_output_faithful :
    (∀ (v : Violation) (text : String), text = v.toJson.compact ∨ text = v.toJson.pretty →
      ∃ members, Json.parse? text = some (Json.record members) ∧
        ("hint" ∉ members.map Prod.fst ↔ v.hint = "") ∧
        Violation.ofJson? (Json.record members) = some v) ∧
    (∀ (request : ScanRequest) (surroundings : Surroundings) (outcome : Outcome),
      request.json = true → request.run surroundings = .ok outcome →
      ∃ config, request.configure surroundings.tree = .ok config ∧
        let auditor := (Auditor.new config.rules config.settings).scan
          (request.inventory surroundings.tree)
        ∃ report fields summary success,
          Json.parse? outcome.output = some report ∧
          report.fields? JsonReport.fieldNames = some fields ∧
          fields.required "violations" (Json.toList? Violation.ofJson?) = some auditor.log.entries ∧
          fields.required "summary" (Json.fields? JsonReport.summaryFieldNames) = some summary ∧
          summary.get? "violations" = some (.nat auditor.log.entries.length) ∧
          fields.get? "success" = some (.bool success) ∧
          (success = true ↔ auditor.log.entries = [] ∧ auditor.summary.truncated = false)) := by
  constructor
  · intro v text htext
    have hparse : Json.parse? text = some v.toJson := by
      rcases htext with rfl | rfl
      · exact Json.parse?_compact _
      · exact Json.parse?_pretty _
    exact ⟨v.members, hparse, by rw [v.hint_mem_iff, not_not], v.ofJson?_toJson⟩
  · intro request surroundings outcome hjson hrun
    obtain ⟨config, exportedTo, hconfigure, houtput⟩ := output_of_json hjson hrun
    refine ⟨config, hconfigure, ?_⟩
    intro auditor
    obtain ⟨fields, summary, hfields, hsuccess, hsummary, hnumber, hentries⟩ :=
      JsonReport.report_fields request.project auditor.log surroundings.milliseconds exportedTo
    have hparse : Json.parse? outcome.output = some (JsonReport.report request.project auditor.log
        surroundings.milliseconds exportedTo) := by
      rw [houtput]
      exact Json.parse?_pretty_append rfl _
    refine ⟨_, fields, summary, _, hparse, hfields, hentries, hsummary, hnumber, hsuccess, ?_⟩
    rw [auditor.log.hasPassed_iff, Auditor.summary, Bool.not_eq_false']

/-- A folder with quotes and a line break in its name is reported, and read back from the report. -/
theorem json_output_faithful_quoted_name :
    let name := "old \"stuff\"\n"
    let tree := ((FileTree.empty.insert [] "game" (.folder .full)).insert ["game"] "Assets"
      (.folder .full)).insert ["game", "Assets"] name (.folder .full)
    let request : ScanRequest :=
      { project := "game", config := none, maxViolations := none, exportTarget := none,
        json := true, skip := ["Conditions"] }
    (∃ members, Json.parse? (Violation.toJson ⟨.folderName, .folder, name, "Assets", ""⟩).compact =
        some (Json.record members) ∧ "hint" ∉ members.map Prod.fst) ∧
    ∃ outcome report fields v, request.run ⟨tree, false, 0⟩ = .ok outcome ∧
      Json.parse? outcome.output = some report ∧
      report.fields? JsonReport.fieldNames = some fields ∧
      fields.required "violations" (Json.toList? Violation.ofJson?) = some [v] ∧ v.name = name ∧
      fields.get? "success" = some (.bool false) := by
  intro name tree request
  obtain ⟨hviolation, hscan⟩ := json_output_faithful
  constructor
  · obtain ⟨members, hparse, hhint, -⟩ :=
      hviolation ⟨.folderName, .folder, name, "Assets", ""⟩ _ (.inl rfl)
    exact ⟨members, hparse, hhint.mpr rfl⟩
  · let filter : ScanFilter := { ScanFilter.default with conditions := false }
    let settings : Settings := { Settings.default with filter }
    have hproject : tree.isFolder request.project = true := by decide +kernel
    have hpath : Config.pathFor? tree request.project request.config = none := by decide +kernel
    have hloaded : request.loadConfig tree = .ok .default := by rw [loadConfig, hpath]
    have hskip : Config.default.settings.filter.disableNamed request.skip = (filter, none) := rfl
    have hconfigure : request.configure tree = .ok { Config.default with settings } :=
      configure_eq hproject hloaded hskip
    have hlog : (((Auditor.new .default settings).scan (request.inventory tree)).log.entries.map
        Violation.name) = [name] := by decide +kernel
    obtain ⟨v, hlog, hname⟩ := List.map_eq_singleton_iff.mp hlog
    have hrun : request.run ⟨tree, false, 0⟩ = .ok _ := run_eq hconfigure
    obtain ⟨config, hconfig, report, fields, -, success, hparse, hfields, hentries, -, -, hsuccess,
      hverdict⟩ := hscan request ⟨tree, false, 0⟩ _ rfl hrun
    obtain rfl := Except.ok.inj (hconfigure.symm.trans hconfig)
    have hfailed : success = false := Bool.eq_false_iff.mpr fun h =>
      List.cons_ne_nil v [] (hlog.symm.trans (hverdict.mp h).1)
    exact ⟨_, report, fields, v, hrun, hparse, hfields, hentries.trans (congrArg some hlog), hname,
      by rw [hsuccess, hfailed]⟩

end ScanRequest
end CommandLine
end AssetAudit
