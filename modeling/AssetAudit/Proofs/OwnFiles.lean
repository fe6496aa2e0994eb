import AssetAudit.Proofs.ConfigRoundTrip
import AssetAudit.Proofs.Verdict
import AssetAudit.Proofs.WrittenFiles

/-!
# The files that the program writes

Two commands write into the project that is scanned: `init` saves the default configuration, and a
scan exports what it has found, below `Assets` unless the user says otherwise.  Neither file has an
influence on the next scan.

* No category discovers them (`FileCategory.discovers_of_mem_ownNames`), so the project answers as
  before (`FileTree.IsWritten.inventory_eq`).
* The saved configuration is read as the default one, which is also what a project without a
  configuration has (`Config.load_of_isWritten`).
* The export is not the file that the next scan reads its configuration from, as long as that is
  not in the same place (`CommandLine.ScanRequest.loadConfig_of_isWrittenAt`).

What a scan records depends on the tree through the configuration and the inventory only
(`CommandLine.ScanRequest.recorded_congr`).

A link can give either file another place, and the user may spell a path as he likes.
`CommandLine.ScanRequest.own_files_seen` shows what comes of a link from the one file to the other
or to an asset, and of another spelling for the file that is exported to.
-/

namespace AssetAudit

/-! ## Their names -/

/-- The name of the file that violations are usually exported to. -/
def Csv.fileName : String := "AssetGuard_Results.csv"

/-- The names of the files that the program writes of its own accord. -/
def ownNames : List String := [Config.fileName, Csv.fileName]

/-- **No category discovers the files of the program.** -/
theorem FileCategory.discovers_of_mem_ownNames {name : String} (h : name ∈ ownNames)
    (c : FileCategory) : c.discovers name = false := by
  simp only [ownNames, List.mem_cons, List.not_mem_nil, or_false] at h
  rcases h with rfl | rfl <;> cases c <;> decide +kernel

theorem isSegment_of_mem_ownNames {name : String} (h : name ∈ ownNames) : Path.IsSegment name := by
  have hall : ∀ name ∈ ownNames, Path.IsSegment name := by decide
  exact hall name h

/-- The path of the configuration of a project ends in its name. -/
theorem Config.namesIn_pathIn (project : String) :
    Location.namesIn (pathIn project) = Location.namesIn project ++ [.text fileName] := by
  have hnames : Location.namesIn fileName = [.text fileName] := by decide +kernel
  rw [pathIn, Location.namesIn_joinPath, hnames]

/-- The path of the usual export of a project ends in its name. -/
theorem Csv.namesIn_defaultTarget (project : String) :
    Location.namesIn (joinPath project defaultTarget) =
      (Location.namesIn project ++ [.text "Assets"]) ++ [.text fileName] := by
  have hnames : Location.namesIn defaultTarget = [.text "Assets", .text fileName] := by
    decide +kernel
  rw [Location.namesIn_joinPath, hnames, List.append_assoc]
  rfl

/-! ## Configuration files -/

/-- A text is read back from its bytes. -/
theorem fromUTF8?_toUTF8 (text : String) : String.fromUTF8? text.toUTF8 = some text :=
  dif_pos text.isValidUTF8

namespace Config

/-- **A saved configuration is read back**, at whatever text leads to the new file. -/
theorem load_of_isWritten {config : Config} (hversion : config.version = currentVersion)
    {tree written : FileTree} {target : List FileName}
    (h : FileTree.IsWritten tree (config.toText ++ "\n").toUTF8 target written)
    (hnew : tree.node? target = none) {path : String}
    (hresolve : written.resolve path = .ok target) :
    load written path = .ok config := by
  have htext : written.readText path = .ok (config.toText ++ "\n") := by
    simp only [FileTree.readText, h.read_target hnew hresolve, bind, Except.bind, fromUTF8?_toUTF8]
  have hread : ofText (config.toText ++ "\n") = .ok config := by
    rw [ofText_toText_newline, ofText_toText, if_pos hversion]
  simp only [load, htext, Except.mapError, bind, Except.bind, hread]

/-- A file that is read at another path than the new one is read as before. -/
theorem load_eq {tree written : FileTree} {content : ByteArray} {target : List FileName}
    (h : FileTree.IsWritten tree content target written) {path : String} {goal : List FileName}
    (hresolve : tree.resolve path = .ok goal) (hne : goal ≠ target) :
    load written path = load tree path := by
  rw [load, load, FileTree.readText, FileTree.readText, h.read_eq hresolve hne]

end Config

namespace CommandLine

/-! ## What the commands write -/

/-- An `init` that comes to its end has saved the default configuration. -/
theorem save_of_runInit {project : String} {force : Bool} {surroundings : Surroundings}
    {outcome : Outcome} (h : runInit project force surroundings = .ok outcome) :
    Config.default.save surroundings.tree (Config.pathIn project) = .ok outcome.tree := by
  unfold runInit at h
  cases hfolder : surroundings.tree.isFolder project with
  | false => simp [hfolder, bind, Except.bind, throw, throwThe, MonadExceptOf.throw] at h
  | true =>
    cases hexists : surroundings.tree.pathExists (Config.pathIn project) && !force with
    | true => simp [hfolder, hexists, bind, Except.bind, throw, throwThe, MonadExceptOf.throw] at h
    | false =>
      cases hsave : Config.default.save surroundings.tree (Config.pathIn project) with
      | error failure => simp [hfolder, hexists, hsave, throw, throwThe, MonadExceptOf.throw] at h
      | ok tree =>
        simp only [hfolder, hexists, hsave, Bool.not_true, Bool.false_eq_true, if_false, pure,
          Except.pure, bind, Except.bind, Except.ok.injEq] at h
        rw [← h]

namespace ScanRequest

/-- **What the usual export writes**, if it writes anything: the file that its path names. -/
theorem exportLog_cases {request : ScanRequest} (hexport : request.exportTarget = some .standard)
    {tree after : FileTree} {log : ViolationLog} {exportedTo : Option String}
    (h : request.exportLog tree log = .ok (after, exportedTo)) :
    after = tree ∨ ∃ content target,
      FileTree.IsWrittenAt tree (joinPath request.project Csv.defaultTarget) content target
        after := by
  have hpath : request.exportPath? = some (joinPath request.project Csv.defaultTarget) := by
    rw [exportPath?, hexport]
    rfl
  rw [exportLog, hpath] at h
  simp only [Csv.exportTo] at h
  by_cases hempty : log.entries.isEmpty = true
  · simp only [if_pos hempty, Except.ok.injEq, Prod.mk.injEq] at h
    exact .inl h.1.symm
  · cases hwrite : tree.writeText (joinPath request.project Csv.defaultTarget)
        (Csv.text log.entries) with
    | error failure => simp [hempty, hwrite, Except.map] at h
    | ok written =>
      simp only [if_neg hempty, hwrite, Except.map, Except.ok.injEq, Prod.mk.injEq] at h
      obtain ⟨rfl, -⟩ := h
      exact .inr ⟨_, FileTree.exists_isWrittenAt_of_write hwrite⟩

/-- A request that is carried out has a configuration. -/
theorem exists_loadConfig_of_configure {request : ScanRequest} {tree : FileTree} {config : Config}
    (h : request.configure tree = .ok config) : ∃ loaded, request.loadConfig tree = .ok loaded := by
  cases hload : request.loadConfig tree with
  | ok loaded => exact ⟨loaded, rfl⟩
  | error e =>
    unfold configure at h
    cases hfolder : tree.isFolder request.project <;>
      simp [hfolder, hload, bind, Except.bind, throw, throwThe, MonadExceptOf.throw] at h

/-- **What a scan with the usual export leaves behind.**  If it has written a file, it had read its
configuration by then. -/
theorem tree_execute_cases {request : ScanRequest} (hexport : request.exportTarget = some .standard)
    (surroundings : Surroundings) :
    (Command.execute surroundings (.scan request)).tree = surroundings.tree ∨
      ∃ content target loaded, request.loadConfig surroundings.tree = .ok loaded ∧
        FileTree.IsWrittenAt surroundings.tree (joinPath request.project Csv.defaultTarget) content
          target (Command.execute surroundings (.scan request)).tree := by
  rw [Command.execute, Command.run]
  cases hconfigure : request.configure surroundings.tree with
  | error e =>
    left
    simp [run, hconfigure, bind, Except.bind]
  | ok config =>
    obtain ⟨loaded, hloaded⟩ := exists_loadConfig_of_configure hconfigure
    rw [run_eq hconfigure]
    cases hlog : request.exportLog surroundings.tree (request.scan surroundings.tree config) with
    | error e => exact .inl rfl
    | ok exported =>
      refine (exportLog_cases hexport hlog).imp id ?_
      rintro ⟨content, target, hwritten⟩
      exact ⟨content, target, loaded, hloaded, hwritten⟩

/-! ## What a scan depends on -/

/-- The violations that a scan records, if the request can be carried out. -/
def recorded (request : ScanRequest) (tree : FileTree) : Except CommandError (List Violation) :=
  (request.configure tree).map fun config => (request.scan tree config).entries

variable {request : ScanRequest} {tree later : FileTree}

/-- The configuration depends on the folder of the project and on the configuration file. -/
theorem configure_congr (hproject : later.isFolder request.project = tree.isFolder request.project)
    (hload : request.loadConfig later = request.loadConfig tree) :
    request.configure later = request.configure tree := by
  rw [configure, configure, hproject, hload]

/-- The log depends on the inventory. -/
theorem scan_congr (hinventory : request.inventory later = request.inventory tree)
    (config : Config) :
    request.scan later config = request.scan tree config := by
  rw [scan, scan, hinventory]

/-- **The recorded violations** depend on the configuration and the inventory. -/
theorem recorded_congr (hconfigure : request.configure later = request.configure tree)
    (hinventory : request.inventory later = request.inventory tree) :
    request.recorded later = request.recorded tree := by
  simp only [recorded, hconfigure, scan_congr hinventory]

/-- **The exit code** depends on the configuration and the inventory. -/
theorem exitCode_congr {before after : Surroundings}
    (hconfigure : request.configure after.tree = request.configure before.tree)
    (hinventory : request.inventory after.tree = request.inventory before.tree) :
    (Command.execute after (.scan request)).exitCode =
      (Command.execute before (.scan request)).exitCode := by
  cases hbefore : request.configure before.tree with
  | error e =>
    have hafter := hconfigure.trans hbefore
    simp [Command.execute, Command.run, run, hbefore, hafter, bind, Except.bind]
  | ok config =>
    rw [exitCode_execute hbefore, exitCode_execute (hconfigure.trans hbefore),
      scan_congr hinventory]

/-! ## The configuration of the next scan -/

/-- Without a file there is no configuration to read. -/
theorem loadConfig_of_error {failure : FileFailure} (hconfig : request.config = none)
    (h : tree.resolve (Config.pathIn request.project) = .error failure) :
    request.loadConfig tree = .ok .default := by
  simp [loadConfig, Config.pathFor?, hconfig, FileTree.isFile, h]

/-- **After `init`** the project has the configuration that it had without a file. -/
theorem loadConfig_of_saved_default {target : List FileName} (hconfig : request.config = none)
    (hmissing : tree.lastNode? (Config.pathIn request.project) = none)
    (h : FileTree.IsWritten tree (Config.default.toText ++ "\n").toUTF8 target later) :
    request.loadConfig later = request.loadConfig tree := by
  have hnone := FileTree.resolve_ne_ok_of_lastNode?_eq_none (Config.namesIn_pathIn request.project)
    (by decide) hmissing
  have hbefore : request.loadConfig tree = .ok .default := by
    cases hresolve : tree.resolve (Config.pathIn request.project) with
    | ok goal => exact absurd hresolve (hnone goal)
    | error failure => exact loadConfig_of_error hconfig hresolve
  rw [hbefore]
  cases hresolve : later.resolve (Config.pathIn request.project) with
  | error failure => exact loadConfig_of_error hconfig hresolve
  | ok goal =>
    rcases h.resolve_cases hresolve with hsame | ⟨rfl, hnew⟩
    · exact absurd hsame (hnone goal)
    · have hfile : later.isFile (Config.pathIn request.project) = true := by
        simp [FileTree.isFile, hresolve, h.node?_target_of_eq_none hnew, FileNode.isFile]
      have hload := Config.load_of_isWritten rfl h hnew hresolve
      simp only [loadConfig, Config.pathFor?, hconfig, hfile, if_true, hload, Except.mapError]

/-- A configuration that the user names and that has been read is a file in the tree. -/
theorem exists_resolve_of_loadConfig {config : Config} {path : String}
    (hconfig : request.config = some path) (h : request.loadConfig tree = .ok config) :
    ∃ goal, tree.resolve path = .ok goal := by
  cases hresolve : tree.resolve path with
  | ok goal => exact ⟨goal, rfl⟩
  | error failure =>
    simp [loadConfig, Config.pathFor?, hconfig, Config.load, FileTree.readText, FileTree.read,
      hresolve, bind, Except.bind, Except.mapError] at h

/-- Where the configuration is that the request asks for. -/
def configText (request : ScanRequest) : String :=
  request.config.getD (Config.pathIn request.project)

/-- **A file that is not the configuration** leaves the configuration alone. -/
theorem loadConfig_of_isWrittenAt {text : String} {content : ByteArray} {target : List FileName}
    {config : Config} (h : FileTree.IsWrittenAt tree text content target later)
    (hother : tree.isSamePlace request.configText text = false)
    (hloaded : request.loadConfig tree = .ok config) :
    request.loadConfig later = request.loadConfig tree := by
  have hwritten := h.isWritten
  cases hconfig : request.config with
  | some path =>
    have htext : request.configText = path := by rw [configText, hconfig, Option.getD_some]
    rw [htext] at hother
    obtain ⟨goal, hgoal⟩ := exists_resolve_of_loadConfig hconfig hloaded
    obtain ⟨l, -, hl, hleads, -⟩ := FileTree.resolve_eq_ok_iff.mp hgoal
    have hne := h.ne_target hother hl hleads
    simp only [loadConfig, Config.pathFor?, hconfig, Config.load_eq hwritten hgoal hne]
  | none =>
    have htext : request.configText = Config.pathIn request.project := by
      rw [configText, hconfig, Option.getD_none]
    rw [htext] at hother
    cases hbefore : tree.resolve (Config.pathIn request.project) with
    | ok goal =>
      obtain ⟨l, -, hl, hleads, -⟩ := FileTree.resolve_eq_ok_iff.mp hbefore
      have hne := h.ne_target hother hl hleads
      have hload := Config.load_eq hwritten hbefore hne
      simp only [loadConfig, Config.pathFor?, hconfig, FileTree.isFile, hbefore,
        hwritten.resolve_of_resolve hbefore, hwritten.node?_of_ne hne]
      split <;> simp_all
    | error failure =>
      rw [loadConfig_of_error hconfig hbefore]
      cases hafter : later.resolve (Config.pathIn request.project) with
      | error failure => exact loadConfig_of_error hconfig hafter
      | ok goal =>
        obtain ⟨l, -, hl, hleads, -⟩ := FileTree.resolve_eq_ok_iff.mp hafter
        rcases hwritten.resolve_cases hafter with hsame | ⟨hgoal, -⟩
        · rw [hsame] at hbefore
          cases hbefore
        · exact absurd hgoal (h.ne_target hother hl (hwritten.queryLeads_iff.mp hleads))

/-- **A file of the program is no part of the project.** -/
theorem inventory_of_isWrittenAt (request : ScanRequest) {text : String} {content : ByteArray}
    {target : List FileName} {name : String}
    (h : FileTree.IsWrittenAt tree text content target later)
    (hlast : target.getLast? = some (.text name)) (hname : name ∈ ownNames) :
    request.inventory later = request.inventory tree :=
  h.isWritten.inventory_eq hlast (isSegment_of_mem_ownNames hname)
    (FileCategory.discovers_of_mem_ownNames hname) request.project

/-- **The program does not see its own files.**

* Take a request without a configuration of its own, for a project that has no entry of the name of
  its configuration either.  After an `init` that comes to its end it records the same violations as
  before, and has the same exit code.  The `init` may spell the project in another way, as long as
  it does not write through a link.
* Take a request with the usual export, where no link has the name of the file that is exported to,
  and where the configuration that the request asks for is not in the place of that file.  After it
  has been carried out, with or without writing that file, a request with the same arguments, with
  or without the export, records the same violations. -/
theorem own_files_unseen :
    (∀ (request : ScanRequest) (before : Surroundings) (project : String) (force : Bool)
      (outcome : Outcome), request.config = none →
      before.tree.lastNode? (Config.pathIn request.project) = none →
      (before.tree.lastNode? (Config.pathIn project)).any FileNode.isLink = false →
      runInit project force before = .ok outcome →
      ∀ after : Surroundings, after.tree = outcome.tree →
        request.recorded after.tree = request.recorded before.tree ∧
          (Command.execute after (.scan request)).exitCode =
            (Command.execute before (.scan request)).exitCode) ∧
    (∀ (request : ScanRequest) (before : Surroundings), request.exportTarget = some .standard →
      (before.tree.lastNode? (joinPath request.project Csv.defaultTarget)).any FileNode.isLink =
        false →
      before.tree.isSamePlace request.configText (joinPath request.project Csv.defaultTarget) =
        false →
      ∀ following : ScanRequest,
        following = { request with exportTarget := none } ∨ following = request →
        following.recorded (Command.execute before (.scan request)).tree =
          request.recorded before.tree) := by
  constructor
  · intro request before project force outcome hconfig hmissing hlink hinit after hafter
    obtain ⟨target, hwritten⟩ := FileTree.exists_isWrittenAt_of_write (save_of_runInit hinit)
    rw [← hafter] at hwritten
    have hlast := hwritten.getLast?_eq (Config.namesIn_pathIn project) (by decide) hlink
    have hinventory := request.inventory_of_isWrittenAt hwritten hlast (by decide)
    have hconfigure := configure_congr (hwritten.isWritten.isFolder_eq request.project)
      (loadConfig_of_saved_default hconfig hmissing hwritten.isWritten)
    exact ⟨recorded_congr hconfigure hinventory, exitCode_congr hconfigure hinventory⟩
  · intro request before hexport hlink hother following hfollowing
    have hsame : following.recorded (Command.execute before (.scan request)).tree =
        request.recorded (Command.execute before (.scan request)).tree := by
      rcases hfollowing with rfl | rfl <;> rfl
    rw [hsame]
    rcases tree_execute_cases hexport before with htree | ⟨_, target, loaded, hloaded, hwritten⟩
    · rw [htree]
    · have hlast := hwritten.getLast?_eq (Csv.namesIn_defaultTarget request.project)
        (by decide) hlink
      have hinventory := request.inventory_of_isWrittenAt hwritten hlast (by decide)
      have hconfigure := configure_congr (hwritten.isWritten.isFolder_eq request.project)
        (loadConfig_of_isWrittenAt hwritten hother hloaded)
      exact recorded_congr hconfigure hinventory

/-- A misnamed folder is reported before and after `init`, and before and after it has been exported
by a scan with a configuration of its own. -/
theorem own_files_unseen_misnamed_folder :
    let folder : FileNode := .folder .full
    let tree := (((FileTree.empty.insert [] "game" folder).insert ["game"] "Assets" folder).insert
      ["game", "Assets"] "old stuff" folder).insert ["game"] "rules.json"
        (.file "\x7b\x7d".toUTF8 .full)
    let before : Surroundings := ⟨tree, false, 0⟩
    let plain : ScanRequest :=
      { project := "game", config := none, maxViolations := none, exportTarget := none,
        json := false, skip := ["Conditions"] }
    let named : ScanRequest :=
      { plain with config := some "game/rules.json", exportTarget := some .standard }
    let exported := (Command.execute before (.scan named)).tree
    (∃ outcome, runInit "game" false before = .ok outcome ∧
        plain.recorded outcome.tree = plain.recorded tree) ∧
      (plain.recorded tree).toOption.map (List.map Violation.name) = some ["old stuff"] ∧
      { named with exportTarget := none }.recorded exported = named.recorded tree ∧
      (named.recorded tree).toOption.map (List.map Violation.name) = some ["old stuff"] ∧
      exported.isFile "game/Assets/AssetGuard_Results.csv" = true := by
  intro folder tree before plain named exported
  obtain ⟨hinit, hexport⟩ := own_files_unseen
  refine ⟨?_, by decide +kernel, ?_, by decide +kernel, by decide +kernel⟩
  · have hmissing : tree.lastNode? (Config.pathIn plain.project) = none := by decide +kernel
    have hok : (runInit "game" false before).isOk = true := by decide +kernel
    cases hrun : runInit "game" false before with
    | error e => simp [hrun, Except.isOk, Except.toBool] at hok
    | ok outcome =>
      have hlink : (tree.lastNode? (Config.pathIn "game")).any FileNode.isLink = false := by
        rw [show tree.lastNode? (Config.pathIn "game") = none from hmissing]
        rfl
      exact ⟨outcome, rfl, (hinit plain before "game" false outcome rfl hmissing hlink hrun
        ⟨outcome.tree, true, 1⟩ rfl).1⟩
  · have hlink : (tree.lastNode? (joinPath named.project Csv.defaultTarget)).any FileNode.isLink =
        false := by
      decide +kernel
    have hother : tree.isSamePlace named.configText (joinPath named.project Csv.defaultTarget) =
        false := by
      decide +kernel
    exact hexport named before rfl hlink hother _ (.inl rfl)

/-- **When the program does see its own files.**

* If the file that is exported to is a link to the configuration of the project, the export writes
  over the configuration, and the next scan cannot read it.
* If the user names the file that is exported to as the configuration, in another spelling, the
  export writes over it too.
* If the file that is exported to is a link to a script that does not exist yet, the export makes
  it, and the next scan finds fault with it. -/
theorem own_files_seen :
    let folder : FileNode := .folder .full
    let project := ((FileTree.empty.insert [] "game" folder).insert ["game"] "Assets" folder).insert
      ["game", "Assets"] "old stuff" folder
    let request : ScanRequest :=
      { project := "game", config := none, maxViolations := none, exportTarget := some .standard,
        json := false, skip := [] }
    let defaults := FileNode.file "\x7b\x7d".toUTF8 .full
    (let tree := (project.insert ["game"] "assetguard.json" defaults).insert ["game", "Assets"]
        "AssetGuard_Results.csv" (.link false [⟨"..", by decide⟩, ⟨"assetguard.json", by decide⟩])
    (request.recorded tree).isOk = true ∧
      (request.recorded (Command.execute ⟨tree, false, 0⟩ (.scan request)).tree).isOk = false) ∧
    (let tree := project.insert ["game", "Assets"] "AssetGuard_Results.csv" defaults
    let named := { request with config := some "game/Assets/../Assets/AssetGuard_Results.csv" }
    named.config ≠ some (joinPath named.project Csv.defaultTarget) ∧
      (named.recorded tree).isOk = true ∧
      (named.recorded (Command.execute ⟨tree, false, 0⟩ (.scan named)).tree).isOk = false) ∧
    (let tree := project.insert ["game", "Assets"] "AssetGuard_Results.csv"
        (.link false [⟨"new script.cs", by decide⟩])
    let count := fun tree => (request.recorded tree).toOption.map List.length
    count tree = some 1 ∧
      count (Command.execute ⟨tree, false, 0⟩ (.scan request)).tree = some 3) := by
  intro folder project request defaults
  exact ⟨by decide +kernel, by decide +kernel, by decide +kernel⟩

end ScanRequest
end CommandLine
end AssetAudit
