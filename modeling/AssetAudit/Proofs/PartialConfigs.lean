import AssetAudit.Proofs.ConfigRoundTrip
import Mathlib.Data.List.Perm.Basic

/-!
# Configurations with some of their fields

A configuration file need not look like one that was saved.  Its author may leave fields out, write
them in another order, and add members of which nothing is known, in the whole object as well as in
the objects inside it.  `Json.IsEdit keep members edited` says that a list of members results from
another in this way; `keep` tells which of the old members are still there.

* `Json.IsEdit.lookup_eq`: under the name of an old member stands what stood there, if it was kept,
  and nothing otherwise.
* `Json.IsEdit.fields?_record`: so a field that is kept is read as before, and a field that is not
  has the value of a missing one.
* `Rules.ofJson?_of_isEdit`, `ScanFilter.ofJson?_of_isEdit`, `Settings.ofJson?_of_isEdit` and
  `Config.ofJson?_of_isEdit`: each record is read as the one with defaults in the fields that are
  not kept (`Rules.keeping` and the like).

A field is kept or dropped as a whole, also where it is a table.  `Config.Edit` is an edit of a
whole configuration, and `Config.edited_text_read` says what every text of it denotes.
-/

namespace AssetAudit
namespace Json

/-! ## Edited records -/

/-- Some members are dropped, the others are put in any order, and members of other names are
added. -/
def IsEdit (keep : String → Bool) (members edited : List (String × Json)) : Prop :=
  ∃ added : List (String × Json),
    edited.Perm (members.filter (fun m => keep m.1) ++ added) ∧ (added.map Prod.fst).Nodup ∧
      ∀ name ∈ added.map Prod.fst, name ∉ members.map Prod.fst

/-- A value stands under its name if no name occurs twice. -/
theorem lookup_eq_some_iff_mem {members : List (String × Json)} (h : (members.map Prod.fst).Nodup)
    {name : String} {v : Json} : members.lookup name = some v ↔ (name, v) ∈ members := by
  induction members with
  | nil => simp
  | cons m members ih =>
    obtain ⟨hm, hmembers⟩ := List.nodup_cons.mp (List.map_cons ▸ h)
    obtain ⟨key, w⟩ := m
    by_cases hname : name = key
    · subst hname
      have hv : (name, v) ∉ members := fun hmem => hm (List.mem_map.mpr ⟨_, hmem, rfl⟩)
      simp [hv, eq_comm]
    · rw [lookup_cons_of_ne hname, ih hmembers, List.mem_cons, Prod.mk.injEq]
      simp [hname]

/-- Nothing stands under a name that does not occur. -/
theorem lookup_eq_none_of_notMem {members : List (String × Json)} {name : String}
    (h : name ∉ members.map Prod.fst) : members.lookup name = none := by
  rw [List.lookup_eq_none_iff]
  intro m hm
  rw [bne_iff_ne]
  rintro rfl
  exact h (List.mem_map_of_mem hm)

/-- The order of members does not matter to what stands under a name. -/
theorem lookup_eq_of_perm {members others : List (String × Json)} (h : members.Perm others)
    (hnodup : (members.map Prod.fst).Nodup) (name : String) :
    members.lookup name = others.lookup name := by
  refine Option.ext fun v => ?_
  rw [lookup_eq_some_iff_mem hnodup,
    lookup_eq_some_iff_mem ((h.map Prod.fst).nodup_iff.mp hnodup), h.mem_iff]

/-- What is left of the members when some names are dropped. -/
theorem lookup_filter (keep : String → Bool) (members : List (String × Json)) (name : String) :
    (members.filter fun m => keep m.1).lookup name =
      if keep name then members.lookup name else none := by
  induction members with
  | nil => simp
  | cons m members ih =>
    obtain ⟨key, v⟩ := m
    rw [List.filter_cons]
    by_cases hname : name = key
    · subst hname
      split_ifs with hkeep
      · rw [List.lookup_cons_self, List.lookup_cons_self]
      · rw [ih, if_neg hkeep]
    · rw [lookup_cons_of_ne hname, ← ih]
      split_ifs
      · exact lookup_cons_of_ne hname v _
      · rfl

namespace IsEdit

variable {keep : String → Bool} {members edited : List (String × Json)}

/-- No name occurs twice after an edit. -/
theorem nodup (h : IsEdit keep members edited) (hmembers : (members.map Prod.fst).Nodup) :
    (edited.map Prod.fst).Nodup := by
  obtain ⟨added, hperm, hadded, hnew⟩ := h
  rw [(hperm.map Prod.fst).nodup_iff, List.map_append, List.nodup_append']
  have hsub : ((members.filter fun m => keep m.1).map Prod.fst).Sublist (members.map Prod.fst) :=
    List.filter_sublist.map Prod.fst
  exact ⟨hmembers.sublist hsub, hadded, fun name hkept hname => hnew name hname (hsub.subset hkept)⟩

/-- What stands under an old name after an edit. -/
theorem lookup_eq (h : IsEdit keep members edited) (hmembers : (members.map Prod.fst).Nodup)
    {name : String} (hname : name ∈ members.map Prod.fst) :
    edited.lookup name = if keep name then members.lookup name else none := by
  have hnodup := h.nodup hmembers
  obtain ⟨added, hperm, -, hnew⟩ := h
  have hadded : name ∉ added.map Prod.fst := fun hmem => hnew name hmem hname
  rw [lookup_eq_of_perm hperm hnodup, List.lookup_append, lookup_filter,
    lookup_eq_none_of_notMem hadded, Option.or_none]

end IsEdit

/-- **The fields of an edited record.**  A field that is kept is read as before the edit, and a
field that is not kept has the value of a missing one. -/
theorem IsEdit.fields?_record {keep : String → Bool} {members edited : List (String × Json)}
    (h : IsEdit keep members edited) (hmembers : (members.map Prod.fst).Nodup)
    (names : List String) :
    ∃ fields, (record edited).fields? names = some fields ∧
      ∀ {α : Type} {v : Json} {read : Json → Option α} {a : α} (name : String) (missing : α),
        (name, v) ∈ members → read v = some a →
          fields.optional name read missing = some (if keep name then a else missing) := by
  refine ⟨_, Json.fields?_record (h.nodup hmembers) names, ?_⟩
  intro α v read a name missing hmem hread
  have hlookup : edited.lookup name = if keep name then some v else none := by
    rw [h.lookup_eq hmembers (List.mem_map.mpr ⟨_, hmem, rfl⟩),
      (lookup_eq_some_iff_mem hmembers).mpr hmem]
  simp only [Fields.optional, hlookup]
  split_ifs
  · exact hread
  · rfl

end Json

/-! ## Edited parts of a configuration -/

namespace Rules

/-- The members of the rules as a record. -/
def members (rules : Rules) : List (String × Json) :=
  [("naming", Json.ofTable Category.all Category.name (fun s => Json.nat s.toNat) rules.naming),
    ("root_folders", Json.ofTable FileCategory.all FileCategory.name Json.text rules.rootFolders),
    ("special_folders", Json.texts rules.specialFolders),
    ("ignore_folders", Json.texts rules.ignoreFolders),
    ("conditions", .array (rules.conditions.map ConditionRule.toJson))]

/-- The members are those that are written. -/
theorem toJson_eq (rules : Rules) : rules.toJson = Json.record rules.members := rfl

/-- The rules with the default in every field that is not kept. -/
def keeping (keep : String → Bool) (rules : Rules) : Rules where
  naming := if keep "naming" then rules.naming else Rules.default.naming
  rootFolders := if keep "root_folders" then rules.rootFolders else Rules.default.rootFolders
  specialFolders := if keep "special_folders" then rules.specialFolders else []
  ignoreFolders := if keep "ignore_folders" then rules.ignoreFolders else []
  conditions := if keep "conditions" then rules.conditions else []

/-- **Edited rules** are the rules with the fields that were kept. -/
theorem ofJson?_of_isEdit {keep : String → Bool} {rules : Rules} {edited : List (String × Json)}
    (h : Json.IsEdit keep rules.members edited) :
    ofJson? (Json.record edited) = some (rules.keeping keep) := by
  have hnaming : Json.toTable? Category.ofName? Json.toUInt8? (Json.ofTable Category.all
      Category.name (fun s => Json.nat s.toNat) rules.naming) = some rules.naming :=
    Json.toTable?_ofTable Category.ofName?_name Json.toUInt8?_nat Category.mem_all _
  have hroots : Json.toTable? FileCategory.ofName? Json.toText? (Json.ofTable FileCategory.all
      FileCategory.name Json.text rules.rootFolders) = some rules.rootFolders :=
    Json.toTable?_ofTable FileCategory.ofName?_name Json.toText?_text FileCategory.mem_all _
  have hconditions : Json.toList? ConditionRule.ofJson?
      (.array (rules.conditions.map ConditionRule.toJson)) = some rules.conditions :=
    Json.toList?_map fun rule _ => ConditionRule.ofJson?_toJson rule
  obtain ⟨fields, hfields, hread⟩ := h.fields?_record (by simp [members])
    ["naming", "root_folders", "special_folders", "ignore_folders", "conditions"]
  simp only [ofJson?, hfields, Option.bind_eq_bind, Option.bind_some,
    hread "naming" default.naming (by simp [members]) hnaming,
    hread "root_folders" default.rootFolders (by simp [members]) hroots,
    hread "special_folders" default.specialFolders (by simp [members])
      (Json.toList?_texts rules.specialFolders),
    hread "ignore_folders" default.ignoreFolders (by simp [members])
      (Json.toList?_texts rules.ignoreFolders),
    hread "conditions" default.conditions (by simp [members]) hconditions]
  rfl

end Rules

namespace ScanFilter

/-- The members of a filter as a record. -/
def members (filter : ScanFilter) : List (String × Json) :=
  [("special_folders", .bool filter.specialFolders), ("folders", .bool filter.folders),
    ("categories", filter.categories.toJson), ("conditions", .bool filter.conditions)]

/-- The members are those that are written. -/
theorem toJson_eq (filter : ScanFilter) : filter.toJson = Json.record filter.members := rfl

/-- The filter with the default in every field that is not kept. -/
def keeping (keep : String → Bool) (filter : ScanFilter) : ScanFilter where
  specialFolders := if keep "special_folders" then filter.specialFolders else true
  folders := if keep "folders" then filter.folders else true
  categories := if keep "categories" then filter.categories else .all
  conditions := if keep "conditions" then filter.conditions else true

/-- **An edited filter** is the filter with the fields that were kept. -/
theorem ofJson?_of_isEdit {keep : String → Bool} {filter : ScanFilter}
    {edited : List (String × Json)} (h : Json.IsEdit keep filter.members edited) :
    ofJson? (Json.record edited) = some (filter.keeping keep) := by
  obtain ⟨fields, hfields, hread⟩ := h.fields?_record (by simp [members])
    ["special_folders", "folders", "categories", "conditions"]
  simp only [ofJson?, hfields, Option.bind_eq_bind, Option.bind_some,
    hread "special_folders" default.specialFolders (by simp [members])
      (Json.toBool?_bool filter.specialFolders),
    hread "folders" default.folders (by simp [members]) (Json.toBool?_bool filter.folders),
    hread "categories" default.categories (by simp [members])
      (CategorySet.ofJson?_toJson filter.categories),
    hread "conditions" default.conditions (by simp [members])
      (Json.toBool?_bool filter.conditions)]
  rfl

end ScanFilter

namespace Settings

/-- The members of settings as a record, with another value for the filter. -/
def membersWith (settings : Settings) (filter : Json) : List (String × Json) :=
  [("max_violations", .nat settings.maxViolations.toNat),
    ("max_special_folders", .nat settings.maxSpecialFolders.toNat),
    ("max_ignore_folders", .nat settings.maxIgnoreFolders.toNat),
    ("max_condition_rows", .nat settings.maxConditionRows.toNat),
    ("filter", filter)]

/-- The members are those that are written, if the filter is. -/
theorem toJson_eq (settings : Settings) :
    settings.toJson = Json.record (settings.membersWith settings.filter.toJson) := rfl

/-- The settings with another filter, and with the default in every field that is not kept. -/
def keeping (keep : String → Bool) (settings : Settings) (filter : ScanFilter) : Settings where
  maxViolations := if keep "max_violations" then settings.maxViolations else 999
  maxSpecialFolders := if keep "max_special_folders" then settings.maxSpecialFolders else 15
  maxIgnoreFolders := if keep "max_ignore_folders" then settings.maxIgnoreFolders else 15
  maxConditionRows := if keep "max_condition_rows" then settings.maxConditionRows else 15
  filter := if keep "filter" then filter else .default

/-- **Edited settings** are the settings with the fields that were kept. -/
theorem ofJson?_of_isEdit {keep : String → Bool} {settings : Settings} {value : Json}
    {filter : ScanFilter} {edited : List (String × Json)}
    (hfilter : ScanFilter.ofJson? value = some filter)
    (h : Json.IsEdit keep (settings.membersWith value) edited) :
    ofJson? (Json.record edited) = some (settings.keeping keep filter) := by
  obtain ⟨fields, hfields, hread⟩ := h.fields?_record (by simp [membersWith])
    ["max_violations", "max_special_folders", "max_ignore_folders", "max_condition_rows", "filter"]
  simp only [ofJson?, hfields, Option.bind_eq_bind, Option.bind_some,
    hread "max_violations" default.maxViolations (by simp [membersWith])
      (Json.toUInt64?_nat settings.maxViolations),
    hread "max_special_folders" default.maxSpecialFolders (by simp [membersWith])
      (Json.toUInt64?_nat settings.maxSpecialFolders),
    hread "max_ignore_folders" default.maxIgnoreFolders (by simp [membersWith])
      (Json.toUInt64?_nat settings.maxIgnoreFolders),
    hread "max_condition_rows" default.maxConditionRows (by simp [membersWith])
      (Json.toUInt64?_nat settings.maxConditionRows),
    hread "filter" default.filter (by simp [membersWith]) hfilter]
  rfl

end Settings

namespace Config

/-- The members of a configuration as a record, with other values for its parts. -/
def membersWith (config : Config) (rules settings : Json) : List (String × Json) :=
  [("version", .nat config.version.toNat), ("rules", rules), ("settings", settings)]

/-- The members are those that are written, if the parts are. -/
theorem toJson_eq (config : Config) :
    config.toJson =
      Json.record (config.membersWith config.rules.toJson config.settings.toJson) := rfl

/-- A configuration with other parts, and with the default in every field that is not kept. -/
def keeping (keep : String → Bool) (config : Config) (rules : Rules) (settings : Settings) :
    Config where
  version := if keep "version" then config.version else currentVersion
  rules := if keep "rules" then rules else .default
  settings := if keep "settings" then settings else .default

/-- **An edited configuration** is the configuration with the fields that were kept. -/
theorem ofJson?_of_isEdit {keep : String → Bool} {config : Config} {rulesValue settingsValue : Json}
    {rules : Rules} {settings : Settings} {edited : List (String × Json)}
    (hrules : Rules.ofJson? rulesValue = some rules)
    (hsettings : Settings.ofJson? settingsValue = some settings)
    (h : Json.IsEdit keep (config.membersWith rulesValue settingsValue) edited) :
    ofJson? (Json.record edited) = some (config.keeping keep rules settings) := by
  obtain ⟨fields, hfields, hread⟩ := h.fields?_record (by simp [membersWith])
    ["version", "rules", "settings"]
  simp only [ofJson?, hfields, Option.bind_eq_bind, Option.bind_some,
    hread "version" currentVersion (by simp [membersWith]) (Json.toUInt32?_nat config.version),
    hread "rules" .default (by simp [membersWith]) hrules,
    hread "settings" .default (by simp [membersWith]) hsettings]
  rfl

/-! ## Edited texts -/

/-- The members of a configuration after an edit of the whole object and of each object inside it,
the four of them independent of each other. -/
structure Edit (config : Config) where
  /-- The names that are kept in the rules, in the filter, in the settings and in the whole
  object. -/
  keepRules : String → Bool
  keepFilter : String → Bool
  keepSettings : String → Bool
  keep : String → Bool
  /-- What the members are then. -/
  rules : List (String × Json)
  filter : List (String × Json)
  settings : List (String × Json)
  members : List (String × Json)
  isEdit_rules : Json.IsEdit keepRules config.rules.members rules
  isEdit_filter : Json.IsEdit keepFilter config.settings.filter.members filter
  isEdit_settings :
    Json.IsEdit keepSettings (config.settings.membersWith (Json.record filter)) settings
  isEdit_members :
    Json.IsEdit keep (config.membersWith (Json.record rules) (Json.record settings)) members

namespace Edit

variable {config : Config}

/-- The configuration with the fields that were kept. -/
def result (edit : Edit config) : Config :=
  config.keeping edit.keep (config.rules.keeping edit.keepRules)
    (config.settings.keeping edit.keepSettings (config.settings.filter.keeping edit.keepFilter))

/-- An edited object is read as the configuration with the fields that were kept. -/
theorem ofJson?_record (edit : Edit config) :
    ofJson? (Json.record edit.members) = some edit.result :=
  ofJson?_of_isEdit (Rules.ofJson?_of_isEdit edit.isEdit_rules)
    (Settings.ofJson?_of_isEdit (ScanFilter.ofJson?_of_isEdit edit.isEdit_filter)
      edit.isEdit_settings)
    edit.isEdit_members

/-- Dropping the version does not change it. -/
theorem version_result (edit : Edit config) (h : config.version = currentVersion) :
    edit.result.version = currentVersion := by
  rw [result, keeping, h, ite_self]

end Edit

/-- **Partial configuration files.**  Take a configuration of the current version as the object that
is written for it, and edit the whole object, its rules, its settings and their filter: drop
members, reorder the others and add members of other names.  Every text of the edited object is
read, and it denotes the configuration whose kept fields are as before and whose other fields have
their defaults.  A table that is kept has no entries but its own: what the default table says of
other categories does not come back. -/
theorem edited_text_read (config : Config) (hversion : config.version = currentVersion)
    (edit : Edit config) :
    config.toJson = Json.record (config.membersWith (Json.record config.rules.members)
        (Json.record (config.settings.membersWith
          (Json.record config.settings.filter.members)))) ∧
      (∀ text, Json.parse? text = some (Json.record edit.members) →
        ofText text = .ok edit.result) ∧
      ofText (Json.record edit.members).pretty = .ok edit.result ∧
      ofText (Json.record edit.members).compact = .ok edit.result ∧
      (edit.keep "rules" = true → edit.keepRules "naming" = true →
        ∀ c, edit.result.rules.naming c = config.rules.naming c) ∧
      (edit.keep "rules" = true → edit.keepRules "root_folders" = true →
        ∀ c, edit.result.rules.rootFolders c = config.rules.rootFolders c) := by
  have hread : ∀ text, Json.parse? text = some (Json.record edit.members) →
      ofText text = .ok edit.result := fun text htext => by
    rw [ofText, htext, Option.bind_some, edit.ofJson?_record]
    exact if_pos (edit.version_result hversion)
  have hwritten : config.toJson =
      Json.record (config.membersWith (Json.record config.rules.members)
        (Json.record
          (config.settings.membersWith (Json.record config.settings.filter.members)))) := by
    rw [toJson_eq, Rules.toJson_eq, Settings.toJson_eq, ScanFilter.toJson_eq]
  refine ⟨hwritten, hread, hread _ (Json.parse?_pretty _), hread _ (Json.parse?_compact _),
    fun hrules hnaming c => ?_, fun hrules hroots c => ?_⟩
  · simp only [Edit.result, keeping, Rules.keeping, if_pos hrules, if_pos hnaming]
  · simp only [Edit.result, keeping, Rules.keeping, if_pos hrules, if_pos hroots]

/-- A file that leaves out the version, the settings and most of the rules, gives the rest in
another order and adds a note.  Its naming table has one entry, and it is the only one that is
read. -/
theorem edited_text_read_note :
    let naming : Category → Option UInt8 := fun c => if c = .folder then some 3 else none
    ofText ("\x7b\"note\": null, \"rules\": \x7b\"ignore_folders\": [\"Demo\"], " ++
        "\"naming\": \x7b\"Folder\": 3\x7d\x7d\x7d") =
      .ok ⟨1, { Rules.default with naming := naming, ignoreFolders := ["Demo"] }, .default⟩ := by
  intro naming
  let rules : Rules := { Rules.default with
    naming := naming
    ignoreFolders := ["Demo"]
    specialFolders := ["Art"] }
  let config : Config := ⟨1, rules, { Settings.default with maxViolations := 5 }⟩
  let edit : Edit config :=
    { keepRules := fun name => name = "naming" || name = "ignore_folders"
      keepFilter := fun _ => true
      keepSettings := fun _ => true
      keep := fun name => name = "rules"
      rules := [("ignore_folders", Json.texts ["Demo"]),
        ("naming", Json.record [("Folder", Json.nat 3)])]
      filter := config.settings.filter.members
      settings := config.settings.membersWith config.settings.filter.toJson
      members := [("note", .null), ("rules", Json.record [("ignore_folders", Json.texts ["Demo"]),
        ("naming", Json.record [("Folder", Json.nat 3)])])]
      isEdit_rules := ⟨[], .swap _ _ _, by simp⟩
      isEdit_filter := ⟨[], by simp⟩
      isEdit_settings := ⟨[], by simp [ScanFilter.toJson_eq]⟩
      isEdit_members := ⟨[("note", .null)], .swap _ _ _, by decide⟩ }
  exact (edited_text_read config rfl edit).2.1 _ rfl

end Config
end AssetAudit
