import AssetAudit.Json.Fields
import AssetAudit.Json.Parser
import AssetAudit.Json.Printer
import AssetAudit.Settings

/-!
# Project configurations

What a project keeps in its configuration file: the version of the format, the rules and the
settings.  This library understands one version.

The file is JSON.  Rules, settings and whole configurations are records, the two tables of the rules
have category names as keys, and a set of categories is the list of its members' names or the number
of its bits.  What is written names every field, in a fixed order; what is read may leave fields
out, which then have their default values.  A table that is given replaces the default table as a
whole.

`Config.ofText` reads a configuration.  The version is looked at last, so a text that is malformed
anywhere is malformed, whatever version it gives.
-/

namespace AssetAudit

/-- The content of a configuration file. -/
structure Config where
  version : UInt32
  rules : Rules
  settings : Settings

namespace Config

/-- The version of the format that can be read. -/
def currentVersion : UInt32 := 1

/-- The name of a configuration file, which lies in the folder of its project. -/
def fileName : String := "assetguard.json"

/-- The configuration of a project that has none. -/
def default : Config where
  version := currentVersion
  rules := .default
  settings := .default

end Config

/-! ## Parts as JSON -/

namespace CategorySet

/-- The set as the list of its members' names. -/
def toJson (s : CategorySet) : Json := Json.texts (s.toList.map FileCategory.name)

/-- Reads a set of categories. -/
def ofJson? : Json → Option CategorySet
  | .array items => ((Json.array items).toList? (Json.toName? FileCategory.ofName?)).map ofList
  | v => (v.toNatBelow? UInt32.size).map ofBits

end CategorySet

namespace ConditionRule

/-- The rule as a record. -/
def toJson (rule : ConditionRule) : Json :=
  Json.record [("formula", .text rule.formula), ("applies_to", rule.appliesTo.toJson)]

/-- Reads a condition rule; both fields must be given. -/
def ofJson? (v : Json) : Option ConditionRule := do
  let fields ← v.fields? ["formula", "applies_to"]
  let formula ← fields.required "formula" Json.toText?
  let appliesTo ← fields.required "applies_to" CategorySet.ofJson?
  return ⟨formula, appliesTo⟩

end ConditionRule

namespace Rules

/-- The rules as a record. -/
def toJson (rules : Rules) : Json :=
  Json.record
    [("naming", Json.ofTable Category.all Category.name (fun s => Json.nat s.toNat) rules.naming),
      ("root_folders",
        Json.ofTable FileCategory.all FileCategory.name Json.text rules.rootFolders),
      ("special_folders", Json.texts rules.specialFolders),
      ("ignore_folders", Json.texts rules.ignoreFolders),
      ("conditions", .array (rules.conditions.map ConditionRule.toJson))]

/-- Reads rules. -/
def ofJson? (v : Json) : Option Rules := do
  let fields ← v.fields?
    ["naming", "root_folders", "special_folders", "ignore_folders", "conditions"]
  let naming ← fields.optional "naming"
    (Json.toTable? Category.ofName? Json.toUInt8?) default.naming
  let rootFolders ← fields.optional "root_folders"
    (Json.toTable? FileCategory.ofName? Json.toText?) default.rootFolders
  let specialFolders ← fields.optional "special_folders"
    (Json.toList? Json.toText?) default.specialFolders
  let ignoreFolders ← fields.optional "ignore_folders"
    (Json.toList? Json.toText?) default.ignoreFolders
  let conditions ← fields.optional "conditions"
    (Json.toList? ConditionRule.ofJson?) default.conditions
  return ⟨naming, rootFolders, specialFolders, ignoreFolders, conditions⟩

end Rules

namespace ScanFilter

/-- The filter as a record. -/
def toJson (filter : ScanFilter) : Json :=
  Json.record
    [("special_folders", .bool filter.specialFolders), ("folders", .bool filter.folders),
      ("categories", filter.categories.toJson), ("conditions", .bool filter.conditions)]

/-- Reads a filter. -/
def ofJson? (v : Json) : Option ScanFilter := do
  let fields ← v.fields? ["special_folders", "folders", "categories", "conditions"]
  let specialFolders ← fields.optional "special_folders" Json.toBool? default.specialFolders
  let folders ← fields.optional "folders" Json.toBool? default.folders
  let categories ← fields.optional "categories" CategorySet.ofJson? default.categories
  let conditions ← fields.optional "conditions" Json.toBool? default.conditions
  return ⟨specialFolders, folders, categories, conditions⟩

end ScanFilter

namespace Settings

/-- The settings as a record. -/
def toJson (settings : Settings) : Json :=
  Json.record
    [("max_violations", .nat settings.maxViolations.toNat),
      ("max_special_folders", .nat settings.maxSpecialFolders.toNat),
      ("max_ignore_folders", .nat settings.maxIgnoreFolders.toNat),
      ("max_condition_rows", .nat settings.maxConditionRows.toNat),
      ("filter", settings.filter.toJson)]

/-- Reads settings. -/
def ofJson? (v : Json) : Option Settings := do
  let fields ← v.fields?
    ["max_violations", "max_special_folders", "max_ignore_folders", "max_condition_rows", "filter"]
  let maxViolations ← fields.optional "max_violations" Json.toUInt64? default.maxViolations
  let maxSpecialFolders ←
    fields.optional "max_special_folders" Json.toUInt64? default.maxSpecialFolders
  let maxIgnoreFolders ←
    fields.optional "max_ignore_folders" Json.toUInt64? default.maxIgnoreFolders
  let maxConditionRows ←
    fields.optional "max_condition_rows" Json.toUInt64? default.maxConditionRows
  let filter ← fields.optional "filter" ScanFilter.ofJson? default.filter
  return ⟨maxViolations, maxSpecialFolders, maxIgnoreFolders, maxConditionRows, filter⟩

end Settings

/-! ## Whole configurations as JSON -/

/-- Why a text is no configuration. -/
inductive ConfigTextError where
  /-- The text is not JSON, or its values are not those of a configuration. -/
  | malformed
  /-- The text is a configuration of another version. -/
  | unsupportedVersion (version : UInt32)
  deriving DecidableEq, Repr

namespace ConfigTextError

/-- What there is to tell the user. -/
def message : ConfigTextError → String
  | .malformed => "invalid json"
  | .unsupportedVersion version =>
      "invalid configuration: unsupported version " ++ toString version.toNat ++ ", expected " ++
        toString Config.currentVersion.toNat

end ConfigTextError

namespace Config

/-- The configuration as a record. -/
def toJson (config : Config) : Json :=
  Json.record
    [("version", .nat config.version.toNat), ("rules", config.rules.toJson),
      ("settings", config.settings.toJson)]

/-- Reads a configuration of any version. -/
def ofJson? (v : Json) : Option Config := do
  let fields ← v.fields? ["version", "rules", "settings"]
  let version ← fields.optional "version" Json.toUInt32? currentVersion
  let rules ← fields.optional "rules" Rules.ofJson? .default
  let settings ← fields.optional "settings" Settings.ofJson? .default
  return ⟨version, rules, settings⟩

/-- The text of a configuration. -/
def toText (config : Config) : String := config.toJson.pretty

/-- Reads the text of a configuration. -/
def ofText (text : String) : Except ConfigTextError Config :=
  match (Json.parse? text).bind ofJson? with
  | none => .error .malformed
  | some config =>
      if config.version = currentVersion then .ok config
      else .error (.unsupportedVersion config.version)

end Config

end AssetAudit
