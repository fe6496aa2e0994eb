import AssetAudit.Config.File
import AssetAudit.Proofs.JsonText
import Mathlib.Data.List.Nodup
import Mathlib.Data.Option.Basic

/-!
# Configurations are read back from their texts

A configuration is written as a record of records, tables and lists, and read by the combinators of
`Json.Fields`.  Here each reader is shown to undo its writer.

* `Json.fields?_record`: the fields of a written record are its members, if no field is written
  twice.
* `Json.toTable?_ofTable`: a table is read back if every member of the enumeration is written and
  names determine members.
* `CategorySet.ofJson?_toJson`, `ConditionRule.ofJson?_toJson`, `Rules.ofJson?_toJson`,
  `ScanFilter.ofJson?_toJson`, `Settings.ofJson?_toJson` and `Config.ofJson?_toJson` put these
  together.

The text of a configuration is then read back by `Json.parse?_pretty`, and the version is looked at
last (`Config.ofText_toText`).  `Config.text_round_trip` says what follows for texts.
-/

namespace AssetAudit
namespace Json

/-! ## Values -/

@[simp] theorem toText?_text (s : String) : toText? (text s) = some s := rfl

@[simp] theorem toBool?_bool (b : Bool) : toBool? (.bool b) = some b := rfl

theorem toNatBelow?_nat {bound n : Nat} (h : n < bound) : toNatBelow? bound (nat n) = some n := by
  rw [nat, toNatBelow?, Number.toNat?_ofNat, Option.filter_some, if_pos (decide_eq_true h)]

@[simp] theorem toUInt8?_nat (u : UInt8) : toUInt8? (nat u.toNat) = some u := by
  rw [toUInt8?, toNatBelow?_nat u.toNat_lt, Option.map_some, UInt8.ofNat_toNat]

@[simp] theorem toUInt32?_nat (u : UInt32) : toUInt32? (nat u.toNat) = some u := by
  rw [toUInt32?, toNatBelow?_nat u.toNat_lt, Option.map_some, UInt32.ofNat_toNat]

@[simp] theorem toUInt64?_nat (u : UInt64) : toUInt64? (nat u.toNat) = some u := by
  rw [toUInt64?, toNatBelow?_nat u.toNat_lt, Option.map_some, UInt64.ofNat_toNat]

/-- A list is read back if each of its entries is. -/
theorem toList?_map {α : Type} {read : Json → Option α} {write : α → Json} {as : List α}
    (h : ∀ a ∈ as, read (write a) = some a) : toList? read (.array (as.map write)) = some as := by
  rw [toList?, List.mapM_map]
  induction as with
  | nil => rfl
  | cons a as ih =>
    rw [List.mapM_cons, Function.comp_apply, h a List.mem_cons_self,
      ih fun b hb => h b (List.mem_cons_of_mem _ hb)]
    rfl

@[simp] theorem toList?_texts (ss : List String) : toList? toText? (texts ss) = some ss :=
  toList?_map fun s _ => toText?_text s

/-! ## Records -/

/-- The keys of a written record are texts. -/
theorem lookup_map_some (members : List (String × Json)) (name : String) :
    (members.map fun (key, value) => ((some key : Literal), value)).lookup (some name) =
      members.lookup name := by
  induction members with
  | nil => rfl
  | cons m members ih =>
    rw [List.map_cons, List.lookup_cons, List.lookup_cons, ih]
    rfl

/-- **The fields of a written record are its members.** -/
theorem fields?_record {members : List (String × Json)} (h : (members.map Prod.fst).Nodup)
    (names : List String) :
    (record members).fields? names = some ⟨fun name => members.lookup name⟩ := by
  have hkeys : (members.map fun (key, value) => ((some key : Literal), value)).map Prod.fst =
      (members.map Prod.fst).map some := by
    rw [List.map_map, List.map_map]
    rfl
  have hfields : areFieldsOf names
      (members.map fun (key, value) => ((some key : Literal), value)) = true := by
    rw [areFieldsOf, hkeys, Bool.and_eq_true]
    refine ⟨by simp, List.all_eq_true.mpr fun name _ => decide_eq_true ?_⟩
    exact List.nodup_iff_count_le_one.mp (h.map (Option.some_injective _)) _
  rw [record, fields?, if_pos hfields]
  congr 2
  funext name
  exact lookup_map_some members name

theorem lookup_cons_of_ne {name key : String} (h : name ≠ key) (v : Json)
    (members : List (String × Json)) :
    ((key, v) :: members).lookup name = members.lookup name := by
  rw [List.lookup_cons, beq_false_of_ne h]

/-! ## Tables -/

section Tables

variable {κ α : Type} [DecidableEq κ] {ofName? : String → Option κ} {name : κ → String}
variable {read : Json → Option α} {write : α → Json}

/-- Reading the written entries of some members extends a table by these entries. -/
theorem extendTable?_ofTable (hname : ∀ k, ofName? (name k) = some k)
    (hvalue : ∀ a, read (write a) = some a) (table : κ → Option α) (members : List κ)
    (start : κ → Option α) :
    extendTable? ofName? read start
        ((members.filterMap fun k => (table k).map fun a => (name k, write a)).map
          fun (key, value) => ((some key : Literal), value)) =
      some fun k => if k ∈ members then (table k).or (start k) else start k := by
  induction members generalizing start with
  | nil => rfl
  | cons k members ih =>
    cases hk : table k with
    | none =>
      rw [List.filterMap_cons_none (by rw [hk, Option.map_none]), ih]
      congr 1
      funext l
      by_cases hl : l = k <;> simp [hl, hk]
    | some a =>
      rw [List.filterMap_cons_some (by rw [hk, Option.map_some]), List.map_cons, extendTable?,
        Option.bind_some, hname, hvalue]
      change extendTable? ofName? read (withEntry start k a) _ = _
      rw [ih]
      congr 1
      funext l
      by_cases hl : l = k <;> simp [withEntry, hl, hk]

/-- **A table is read back.** -/
theorem toTable?_ofTable (hname : ∀ k, ofName? (name k) = some k)
    (hvalue : ∀ a, read (write a) = some a) {members : List κ} (hall : ∀ k, k ∈ members)
    (table : κ → Option α) :
    toTable? ofName? read (ofTable members name write table) = some table := by
  rw [ofTable, record, toTable?, extendTable?_ofTable hname hvalue]
  congr 1
  funext k
  rw [if_pos (hall k), Option.or_none]

end Tables

end Json

/-! ## Parts of a configuration -/

@[simp] theorem CategorySet.ofJson?_toJson (s : CategorySet) : ofJson? s.toJson = some s := by
  have hnames : Json.toList? (Json.toName? FileCategory.ofName?) s.toJson = some s.toList := by
    rw [toJson, Json.texts, List.map_map]
    exact Json.toList?_map fun c _ => FileCategory.ofName?_name c
  rw [toJson, Json.texts, ofJson?, ← Json.texts, ← toJson, hnames, Option.map_some, ofList_toList]

@[simp] theorem ConditionRule.ofJson?_toJson (rule : ConditionRule) :
    ofJson? rule.toJson = some rule := by
  rw [toJson, ofJson?, Json.fields?_record (by simp)]
  simp only [Json.Fields.required, List.lookup_cons_self, Json.lookup_cons_of_ne, ne_eq,
    String.reduceEq, not_false_eq_true, Option.bind_eq_bind, Option.bind_some,
    Json.toText?_text, CategorySet.ofJson?_toJson]
  rfl

@[simp] theorem Rules.ofJson?_toJson (rules : Rules) : ofJson? rules.toJson = some rules := by
  have hnaming : Json.toTable? Category.ofName? Json.toUInt8? (Json.ofTable Category.all
      Category.name (fun s => Json.nat s.toNat) rules.naming) = some rules.naming :=
    Json.toTable?_ofTable Category.ofName?_name Json.toUInt8?_nat Category.mem_all _
  have hroots : Json.toTable? FileCategory.ofName? Json.toText? (Json.ofTable FileCategory.all
      FileCategory.name Json.text rules.rootFolders) = some rules.rootFolders :=
    Json.toTable?_ofTable FileCategory.ofName?_name Json.toText?_text FileCategory.mem_all _
  have hconditions : Json.toList? ConditionRule.ofJson?
      (.array (rules.conditions.map ConditionRule.toJson)) = some rules.conditions :=
    Json.toList?_map fun rule _ => ConditionRule.ofJson?_toJson rule
  rw [toJson, ofJson?, Json.fields?_record (by simp)]
  simp only [Json.Fields.optional, List.lookup_cons_self, Json.lookup_cons_of_ne, ne_eq,
    String.reduceEq, not_false_eq_true, Option.bind_eq_bind, Option.bind_some,
    hnaming, hroots, Json.toList?_texts, hconditions]
  rfl

@[simp] theorem ScanFilter.ofJson?_toJson (filter : ScanFilter) :
    ofJson? filter.toJson = some filter := by
  rw [toJson, ofJson?, Json.fields?_record (by simp)]
  simp only [Json.Fields.optional, List.lookup_cons_self, Json.lookup_cons_of_ne, ne_eq,
    String.reduceEq, not_false_eq_true, Option.bind_eq_bind, Option.bind_some,
    Json.toBool?_bool, CategorySet.ofJson?_toJson]
  rfl

@[simp] theorem Settings.ofJson?_toJson (settings : Settings) :
    ofJson? settings.toJson = some settings := by
  rw [toJson, ofJson?, Json.fields?_record (by simp)]
  simp only [Json.Fields.optional, List.lookup_cons_self, Json.lookup_cons_of_ne, ne_eq,
    String.reduceEq, not_false_eq_true, Option.bind_eq_bind, Option.bind_some,
    Json.toUInt64?_nat, ScanFilter.ofJson?_toJson]
  rfl

theorem Config.ofJson?_toJson (config : Config) : ofJson? config.toJson = some config := by
  rw [toJson, ofJson?, Json.fields?_record (by simp)]
  simp only [Json.Fields.optional, List.lookup_cons_self, Json.lookup_cons_of_ne, ne_eq,
    String.reduceEq, not_false_eq_true, Option.bind_eq_bind, Option.bind_some,
    Json.toUInt32?_nat, Rules.ofJson?_toJson, Settings.ofJson?_toJson]
  rfl

/-! ## Texts -/

/-- The error for another version names that version. -/
theorem ConfigTextError.message_unsupportedVersion (version : UInt32) :
    (unsupportedVersion version).message =
      "invalid configuration: unsupported version " ++ toString version.toNat ++
        ", expected 1" := by
  have hend : ", expected " ++ "1" = ", expected 1" := by decide
  have hfront : ∀ front : String, front ++ ", expected " ++ "1" = front ++ ", expected 1" :=
    fun front => String.append_assoc.trans (congrArg (front ++ ·) hend)
  exact hfront _

namespace Config

/-- What follows when the text of a configuration is read, with blanks behind it. -/
theorem ofText_toText_append {blanks : String} (h : blanks.toList.all Json.isBlank = true)
    (config : Config) :
    ofText (config.toText ++ blanks) =
      if config.version = currentVersion then .ok config
      else .error (.unsupportedVersion config.version) := by
  rw [ofText, toText, Json.parse?_pretty_append h, Option.bind_some, ofJson?_toJson]

/-- **Reading undoes writing**, as far as the version is one that can be read. -/
theorem ofText_toText (config : Config) :
    ofText config.toText =
      if config.version = currentVersion then .ok config
      else .error (.unsupportedVersion config.version) := by
  have hblank : "".toList.all Json.isBlank = true := rfl
  have h := ofText_toText_append hblank config
  rwa [String.append_empty] at h

/-- The newline at the end of a configuration file does not matter. -/
theorem ofText_toText_newline (config : Config) :
    ofText (config.toText ++ "\n") = ofText config.toText := by
  have hblank : "\n".toList.all Json.isBlank = true := rfl
  rw [ofText_toText_append hblank, ofText_toText]

/-- A text that is read is of the version that can be read. -/
theorem version_of_ofText {text : String} {config : Config} (h : ofText text = .ok config) :
    config.version = currentVersion := by
  rw [ofText] at h
  split at h
  · cases h
  · split at h
    · rename_i hversion
      cases h
      exact hversion
    · cases h

/-- **Round trip.**  A configuration of the current version is read back unchanged from the text
that is written for it, and from the content of the file that `save` writes.  A configuration of
another version is refused with an error that names the version.  So writing a configuration that
has been read changes nothing but the spelling: the new text denotes the same configuration, and it
is the same text for all texts that denote this configuration. -/
theorem text_round_trip :
    (∀ config : Config, config.version = currentVersion →
        ofText config.toText = .ok config ∧ ofText (config.toText ++ "\n") = .ok config) ∧
      (∀ config : Config, config.version ≠ currentVersion →
        ∃ error : ConfigTextError,
          ofText config.toText = .error error ∧ ofText (config.toText ++ "\n") = .error error ∧
            error = .unsupportedVersion config.version ∧
            error.message = "invalid configuration: unsupported version " ++
              toString config.version.toNat ++ ", expected 1") ∧
      (∀ (config : Config) (tree : FileTree) (path : String),
        config.save tree path = tree.writeText path (config.toText ++ "\n")) ∧
      (∀ (text : String) (config : Config), ofText text = .ok config →
        ofText config.toText = .ok config ∧
          ∀ (other : String) (config' : Config), ofText other = .ok config' →
            (config.toText = config'.toText ↔ config = config')) := by
  have hcurrent : ∀ config : Config, config.version = currentVersion →
      ofText config.toText = .ok config := fun config h => by
    rw [ofText_toText, if_pos h]
  refine ⟨fun config h => ⟨hcurrent config h, ?_⟩, fun config h => ?_, fun _ _ _ => rfl,
    fun text config htext => ⟨hcurrent config (version_of_ofText htext), ?_⟩⟩
  · rw [ofText_toText_newline, hcurrent config h]
  · have herror : ofText config.toText = .error (.unsupportedVersion config.version) := by
      rw [ofText_toText, if_neg h]
    exact ⟨_, herror, by rw [ofText_toText_newline, herror], rfl,
      ConfigTextError.message_unsupportedVersion config.version⟩
  · intro other config' hother
    constructor
    · intro hsame
      have hconfig := hcurrent config (version_of_ofText htext)
      rw [hsame, hcurrent config' (version_of_ofText hother)] at hconfig
      exact (Except.ok.inj hconfig).symm
    · rintro rfl
      rfl

/-- The round trip of a configuration with quotes, a backslash, a line break and another control
character in its rules, of the same configuration under another version, and of a text that leaves
everything out. -/
theorem text_round_trip_control_character :
    let rules : Rules := { Rules.default with
      specialFolders := ["\"A\\b\"", "\n\x01"]
      conditions := [⟨"Units/*", .ofList [.prefab, .sound]⟩] }
    ofText (toText ⟨1, rules, .default⟩ ++ "\n") = .ok ⟨1, rules, .default⟩ ∧
      ofText (toText ⟨7, rules, .default⟩) = .error (.unsupportedVersion 7) ∧
      ofText "\x7b\x7d" = .ok default ∧ ofText default.toText = .ok default := by
  intro rules
  obtain ⟨hcurrent, hother, -, hread⟩ := text_round_trip
  have hempty : ofText "\x7b\x7d" = .ok default := rfl
  refine ⟨(hcurrent _ rfl).2, ?_, hempty, (hread _ _ hempty).1⟩
  obtain ⟨error, herror, -, rfl, -⟩ := hother ⟨7, rules, .default⟩ (show (7 : UInt32) ≠ 1 by decide)
  exact herror

end Config

end AssetAudit
