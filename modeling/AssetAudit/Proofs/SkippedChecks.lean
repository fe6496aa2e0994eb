import AssetAudit.CommandLine.Scan
import AssetAudit.Proofs.AssetCategories
import AssetAudit.Settings

/-!
# Skipping checks by name

A list of names switches checks off, one after the other, until a name belongs to no check.  What
comes of it depends on which names there are and not on their order, except for where the list ends.

* `Check.words` are the words for a check.  Categories go by the names that reports and condition
  rules have for them, and these differ for models only.  `Check.ofName?_eq_some_iff`: a name
  belongs to a check exactly if it is one of its words, up to capital and small ASCII letters.
* A name is looked up in small letters, with all that Unicode knows, among a few fixed words and the
  names of categories.  Whichever small form is taken, the same check is found
  (`Check.ofLowered?_eq_some_iff_of_lowersTo`), because no word holds a `k`.
* `ScanFilter.runs` is the view of a filter: which checks run.  Switching one off leaves the others
  (`ScanFilter.runs_disable`), and a filter is determined by this view (`ScanFilter.ext_runs`).
* `ScanFilter.disableNamed_of_known`, `ScanFilter.runs_disableNamed` and
  `ScanFilter.disableNamed_append_cons` follow a list of names to its end or to the first name that
  is not known.
-/

namespace AssetAudit

/-! ## The number of a set of categories -/

namespace CategorySet

/-- The number of a set is a byte. -/
theorem bitsOf_lt (members : List FileCategory) : bitsOf members < 256 := by
  induction members with
  | nil => decide
  | cons c members ih =>
    have hc : 1 <<< c.index < 256 := by cases c <;> decide
    exact Nat.or_lt_two_pow (n := 8) hc ih

/-- **To take a category out of a set is to clear its bit.** -/
theorem bits_erase (s : CategorySet) (c : FileCategory) :
    (s.erase c).bits = s.bits &&& (255 ^^^ 1 <<< c.index) := by
  have hmem (s : CategorySet) (d : FileCategory) : s.bits.testBit d.index = s.contains d := by
    rw [bits, testBit_bitsOf, Bool.eq_iff_iff, List.contains_iff_mem, mem_toList]
  refine Nat.eq_of_testBit_eq fun i => ?_
  rw [Nat.testBit_and]
  rcases Nat.lt_or_ge i 8 with hi | hi
  · obtain ⟨d, rfl⟩ : ∃ d : FileCategory, d.index = i := by
      have hall : ∀ i < 8, ∃ d ∈ FileCategory.all, d.index = i := by decide
      obtain ⟨d, -, hd⟩ := hall i hi
      exact ⟨d, hd⟩
    have hmask : (255 ^^^ 1 <<< c.index).testBit d.index = (d != c) := by
      cases c <;> cases d <;> decide
    rw [hmem, hmem, hmask, contains_erase, Bool.and_comm]
  · have hbyte : 256 ≤ 2 ^ i := Nat.pow_le_pow_right (n := 2) (by decide) hi
    have hbeyond (s : CategorySet) : s.bits.testBit i = false :=
      Nat.testBit_lt_two_pow (Nat.lt_of_lt_of_le (bitsOf_lt _) hbyte)
    rw [hbeyond, hbeyond, Bool.false_and]

end CategorySet

/-! ## Names of checks -/

namespace Check

/-- The words for a check. -/
def words : Check → List String
  | .specialFolders => ["special-folders"]
  | .folders => ["folders"]
  | .conditions => ["conditions"]
  | .category c => [c.toCategory.name, c.name]

/-- The name calls for the check. -/
def IsCalled (check : Check) (name : String) : Prop :=
  ∃ word ∈ check.words, EqIgnoringCase name word

instance (check : Check) (name : String) : Decidable (check.IsCalled name) :=
  inferInstanceAs (Decidable (∃ word ∈ check.words, EqIgnoringCase name word))

/-- Some check is called by the name. -/
def IsKnown (name : String) : Prop := ∃ check : Check, check.IsCalled name

/-- The names of the checks, in small letters.  Models go by two names. -/
def vocabulary : List (String × Check) :=
  [("special-folders", .specialFolders), ("folders", .folders), ("conditions", .conditions),
    ("scene", .category .scene), ("prefab", .category .prefab), ("script", .category .script),
    ("texture", .category .texture), ("model", .category .model), ("graphics3d", .category .model),
    ("sound", .category .sound), ("material", .category .material),
    ("animation", .category .animation)]

/-- The words that are known, in small letters. -/
def knownWords : List String := vocabulary.map Prod.fst

/-- The vocabulary holds every word for a check, in small letters. -/
theorem mem_vocabulary_of_mem_words {check : Check} {word : String} (h : word ∈ check.words) :
    (String.ofList (word.toList.map Char.toLower), check) ∈ vocabulary := by
  cases check with
  | specialFolders | folders | conditions =>
    rw [List.mem_singleton.mp h]
    decide +kernel
  | category c =>
    have htable : ∀ c ∈ FileCategory.all, ∀ word ∈ (Check.category c).words,
        (String.ofList (word.toList.map Char.toLower), Check.category c) ∈ vocabulary := by
      decide +kernel
    exact htable c (FileCategory.mem_all c) word h

/-- The vocabulary holds nothing but words for checks. -/
theorem exists_word_of_mem_vocabulary {small : String} {check : Check}
    (h : (small, check) ∈ vocabulary) :
    ∃ word ∈ check.words, word.toList.map Char.toLower = small.toList := by
  have htable : ∀ entry ∈ vocabulary,
      ∃ word ∈ entry.2.words, word.toList.map Char.toLower = entry.1.toList := by decide +kernel
  exact htable _ h

/-- Looking a text in small letters up finds it in the vocabulary. -/
theorem ofLowered?_eq_some_iff {lowered : String} {check : Check}
    (h : lowered.toList.map Char.toLower = lowered.toList) :
    ofLowered? lowered = some check ↔ (lowered, check) ∈ vocabulary := by
  constructor
  · intro hfound
    unfold ofLowered? at hfound
    split at hfound
    · next heq => rw [heq, ← Option.some.inj hfound]; decide
    · split at hfound
      · next heq => rw [heq, ← Option.some.inj hfound]; decide
      · split at hfound
        · next heq => rw [heq, ← Option.some.inj hfound]; decide
        · split at hfound
          · next heq => rw [heq, ← Option.some.inj hfound]; decide
          · obtain ⟨c, hc, rfl⟩ := Option.map_eq_some_iff.mp hfound
            have heq : EqIgnoringCase c.toCategory.name lowered := by
              simpa using List.find?_some hc
            have hword : c.toCategory.name ∈ (Check.category c).words := List.mem_cons_self
            have hentry := mem_vocabulary_of_mem_words hword
            rwa [heq, h, String.ofList_toList] at hentry
  · intro hentry
    have htable : ∀ entry ∈ vocabulary, ofLowered? entry.1 = some entry.2 := by decide +kernel
    exact htable _ hentry

/-- **Which check a small form calls for**: small letters of other scripts make no difference. -/
theorem ofLowered?_eq_some_iff_of_lowersTo {name lowered : String}
    (h : LowersTo name.toList lowered.toList) {check : Check} :
    ofLowered? lowered = some check ↔ check.IsCalled name := by
  have hascii : ∀ entry ∈ vocabulary, IsAsciiWithoutK entry.1.toList := by decide +kernel
  have hword {small : String} (hentry : (small, check) ∈ vocabulary) :
      lowered = small ↔ name.toList.map Char.toLower = small.toList := by
    rw [← h.eq_iff (hascii _ hentry), String.toList_inj]
  rw [ofLowered?_eq_some_iff h.map_toLower]
  constructor
  · intro hentry
    obtain ⟨word, hmem, hsmall⟩ := exists_word_of_mem_vocabulary hentry
    refine ⟨word, hmem, ?_⟩
    rw [EqIgnoringCase, hsmall, (hword hentry).mp rfl]
  · rintro ⟨word, hmem, heq⟩
    have hentry := mem_vocabulary_of_mem_words hmem
    rwa [(hword hentry).mpr (by rw [String.toList_ofList, heq])]

/-- **Which check a name calls for.** -/
theorem ofName?_eq_some_iff {name : String} {check : Check} :
    ofName? name = some check ↔ check.IsCalled name :=
  ofLowered?_eq_some_iff_of_lowersTo (lowersTo_lowercase name)

/-- Every small form of a name finds the check that the program finds. -/
theorem ofLowered?_eq_ofName? {name lowered : String} (h : LowersTo name.toList lowered.toList) :
    ofLowered? lowered = ofName? name :=
  Option.ext fun _ => (ofLowered?_eq_some_iff_of_lowersTo h).trans ofName?_eq_some_iff.symm

/-- **Which names are known.** -/
theorem isKnown_iff {name : String} :
    IsKnown name ↔ ∃ word ∈ knownWords, EqIgnoringCase name word := by
  have hsmall : ∀ word ∈ knownWords, word.toList.map Char.toLower = word.toList := by decide +kernel
  constructor
  · rintro ⟨check, word, hmem, heq⟩
    have hword := List.mem_map_of_mem (f := Prod.fst) (mem_vocabulary_of_mem_words hmem)
    refine ⟨_, hword, ?_⟩
    rw [EqIgnoringCase, hsmall _ hword, String.toList_ofList, heq]
  · rintro ⟨word, hword, heq⟩
    obtain ⟨⟨small, check⟩, hentry, rfl⟩ := List.mem_map.mp hword
    obtain ⟨called, hmem, hcalled⟩ := exists_word_of_mem_vocabulary hentry
    rw [EqIgnoringCase, hsmall _ hword, ← hcalled] at heq
    exact ⟨check, called, hmem, heq⟩

end Check

/-! ## Filters and lists of names -/

namespace ScanFilter

/-- Does the filter let the check run? -/
def runs (filter : ScanFilter) : Check → Bool
  | .specialFolders => filter.specialFolders
  | .folders => filter.folders
  | .conditions => filter.conditions
  | .category c => filter.isEnabled c

/-- A filter is determined by the checks that run. -/
theorem ext_runs {filter filter' : ScanFilter}
    (h : ∀ check, filter.runs check = filter'.runs check) :
    filter = filter' := by
  have hcategories : filter.categories = filter'.categories :=
    CategorySet.ext (funext fun c => h (.category c))
  exact ScanFilter.ext (h .specialFolders) (h .folders) hcategories (h .conditions)

/-- **Switching one check off** leaves the others as they are. -/
theorem runs_disable (filter : ScanFilter) (check other : Check) :
    (filter.disable check).runs other = (other != check && filter.runs other) := by
  cases check with
  | category c =>
    cases other with
    | category d =>
      have hne : (Check.category d != Check.category c) = (d != c) := by
        rw [Bool.eq_iff_iff, bne_iff_ne, bne_iff_ne, ne_eq, Check.category.injEq]
      rw [hne]
      rfl
    | specialFolders | folders | conditions => rfl
  | specialFolders | folders | conditions => cases other <;> rfl

variable {filter : ScanFilter} {names before : List String}

/-- A list of known names is worked through. -/
theorem disableNamed_append_of_known (h : ∀ name ∈ before, Check.IsKnown name)
    (names : List String) :
    filter.disableNamed (before ++ names) = (filter.disableNamed before).1.disableNamed names := by
  induction before generalizing filter with
  | nil => rfl
  | cons name before ih =>
    obtain ⟨check, hcheck⟩ := h name List.mem_cons_self
    have hfound := Check.ofName?_eq_some_iff.mpr hcheck
    rw [List.cons_append, disableNamed_cons_of_known _ hfound, disableNamed_cons_of_known _ hfound,
      ih fun other hother => h other (List.mem_cons_of_mem name hother)]

/-- Nothing is returned of a list of known names. -/
theorem disableNamed_of_known (h : ∀ name ∈ names, Check.IsKnown name) :
    filter.disableNamed names = ((filter.disableNamed names).1, none) := by
  induction names generalizing filter with
  | nil => rfl
  | cons name names ih =>
    obtain ⟨check, hcheck⟩ := h name List.mem_cons_self
    rw [disableNamed_cons_of_known _ (Check.ofName?_eq_some_iff.mpr hcheck)]
    exact ih fun other hother => h other (List.mem_cons_of_mem name hother)

/-- **The first name that is not known** ends the list. -/
theorem disableNamed_append_cons (filter : ScanFilter)
    (h : ∀ name ∈ before, Check.IsKnown name) {unknown : String}
    (hunknown : ¬ Check.IsKnown unknown) (after : List String) :
    filter.disableNamed (before ++ unknown :: after) =
      ((filter.disableNamed before).1, some unknown) := by
  have hnone : Check.ofName? unknown = none := by
    refine Option.eq_none_iff_forall_ne_some.mpr fun check hfound => ?_
    exact hunknown ⟨check, Check.ofName?_eq_some_iff.mp hfound⟩
  rw [disableNamed_append_of_known h, disableNamed_cons_of_unknown _ hnone]

/-- **What known names switch off**: the checks that they call for, and nothing else. -/
theorem runs_disableNamed (h : ∀ name ∈ names, Check.IsKnown name) {check : Check} :
    (filter.disableNamed names).1.runs check = true ↔
      filter.runs check = true ∧ ∀ name ∈ names, ¬ check.IsCalled name := by
  induction names generalizing filter with
  | nil => simp
  | cons name names ih =>
    obtain ⟨called, hcalled⟩ := h name List.mem_cons_self
    have hfound := Check.ofName?_eq_some_iff.mpr hcalled
    have hname : check.IsCalled name ↔ check = called := by
      rw [← Check.ofName?_eq_some_iff, hfound, Option.some.injEq, eq_comm]
    rw [disableNamed_cons_of_known _ hfound,
      ih fun other hother => h other (List.mem_cons_of_mem name hother), runs_disable,
      Bool.and_eq_true, bne_iff_ne, List.forall_mem_cons, hname]
    constructor
    · rintro ⟨⟨hne, hruns⟩, hrest⟩
      exact ⟨hruns, hne, hrest⟩
    · rintro ⟨hruns, hne, hrest⟩
      exact ⟨⟨hne, hruns⟩, hrest⟩

/-- The same names, in another order or repeated, switch the same checks off. -/
theorem disableNamed_congr {others : List String} (h : ∀ name ∈ names, Check.IsKnown name)
    (hsame : ∀ name, name ∈ others ↔ name ∈ names) :
    filter.disableNamed others = filter.disableNamed names := by
  have hothers : ∀ name ∈ others, Check.IsKnown name := fun name hname =>
    h name ((hsame name).mp hname)
  have hfilter : (filter.disableNamed others).1 = (filter.disableNamed names).1 := by
    refine ext_runs fun check => ?_
    rw [Bool.eq_iff_iff, runs_disableNamed hothers, runs_disableNamed h]
    simp only [hsame]
  rw [disableNamed_of_known hothers, disableNamed_of_known h, hfilter]

/-- A list of names is known, or there is a first name in it that is not. -/
theorem known_or_exists_unknown (names : List String) :
    (∀ name ∈ names, Check.IsKnown name) ∨
      ∃ before unknown after, names = before ++ unknown :: after ∧
        (∀ name ∈ before, Check.IsKnown name) ∧ ¬ Check.IsKnown unknown := by
  classical
  obtain ⟨before, rest, hsplit, hbefore, hrest⟩ :=
    exists_cut (fun name => decide (Check.IsKnown name)) names
  simp only [decide_eq_true_eq, decide_eq_false_iff_not] at hbefore hrest
  cases rest with
  | nil =>
    rw [List.append_nil] at hsplit
    exact .inl (hsplit ▸ hbefore)
  | cons unknown after => exact .inr ⟨before, unknown, after, hsplit, hbefore, hrest unknown rfl⟩

/-- All of a list is worked through exactly if all of it is known. -/
theorem snd_disableNamed_eq_none_iff :
    (filter.disableNamed names).2 = none ↔ ∀ name ∈ names, Check.IsKnown name := by
  constructor
  · intro hnone
    refine (known_or_exists_unknown names).resolve_right ?_
    rintro ⟨before, unknown, after, rfl, hbefore, hunknown⟩
    rw [disableNamed_append_cons filter hbefore hunknown] at hnone
    cases hnone
  · intro h
    rw [disableNamed_of_known h]

/-- **Where a list of names ends early**, and with which filter. -/
theorem snd_disableNamed_eq_some_iff {unknown : String} :
    (filter.disableNamed names).2 = some unknown ↔
      ∃ before after, names = before ++ unknown :: after ∧
        (∀ name ∈ before, Check.IsKnown name) ∧
        ¬ Check.IsKnown unknown ∧
        ∀ check, (filter.disableNamed names).1.runs check = true ↔
          filter.runs check = true ∧ ∀ name ∈ before, ¬ check.IsCalled name := by
  constructor
  · intro hsome
    rcases known_or_exists_unknown names with h | ⟨before, first, after, rfl, hbefore, hfirst⟩
    · rw [disableNamed_of_known h] at hsome
      cases hsome
    · have hend := disableNamed_append_cons filter hbefore hfirst after
      rw [hend] at hsome ⊢
      obtain rfl := Option.some.inj hsome
      exact ⟨before, after, rfl, hbefore, hfirst, fun check => runs_disableNamed hbefore⟩
  · rintro ⟨before, after, rfl, hbefore, hunknown, -⟩
    rw [disableNamed_append_cons filter hbefore hunknown]

end ScanFilter

namespace CommandLine
namespace ScanRequest

/-- A request whose names are all known scans by the filter that they lead to. -/
theorem skipChecks_of_none {request : ScanRequest} {settings : Settings}
    (h : (settings.filter.disableNamed request.skip).2 = none) :
    request.skipChecks settings =
      .ok { settings with filter := (settings.filter.disableNamed request.skip).1 } := by
  unfold skipChecks
  split
  · next hresult => rw [hresult] at h; cases h
  · next hresult => rw [hresult]

/-- A request with a name that is not known is refused. -/
theorem skipChecks_of_some {request : ScanRequest} {settings : Settings} {unknown : String}
    (h : (settings.filter.disableNamed request.skip).2 = some unknown) :
    request.skipChecks settings = .error (.unknownCheck unknown) := by
  unfold skipChecks
  split
  · next hresult => rw [hresult] at h; rw [Option.some.inj h]
  · next hresult => rw [hresult] at h; cases h

end ScanRequest
end CommandLine

/-- **Names switch checks off.**  Take any filter and any list of names.

* A name is known if it is one of twelve words, up to capital and small ASCII letters; models have
  two of them.  The list is worked through exactly if all of its names are known.
* Then the checks run that have run before and that no name calls for.  Neither the order of the
  names nor how often they stand in the list makes a difference.
* Otherwise the first name that is not known is returned as it stands, and the checks run that have
  run before and that no name in front of it calls for.
* A request with these names scans by the filter that has been reached, or is refused with a message
  that quotes the name that is not known.
* Looking names up by their small letters in Unicode finds the same checks, and switching a category
  off clears its bit in the number of the categories. -/
theorem names_switch_checks_off (filter : ScanFilter) (names : List String) :
    let result := filter.disableNamed names
    ((∀ name, Check.IsKnown name ↔
        ∃ word ∈ ["special-folders", "folders", "conditions", "scene", "prefab", "script",
          "texture", "model", "graphics3d", "sound", "material", "animation"],
          EqIgnoringCase name word) ∧
      (∀ name, (Check.category .model).IsCalled name ↔
        EqIgnoringCase name "model" ∨ EqIgnoringCase name "graphics3d") ∧
      (result.2 = none ↔ ∀ name ∈ names, Check.IsKnown name)) ∧
    (result.2 = none →
      (∀ check, result.1.runs check = true ↔
        filter.runs check = true ∧ ∀ name ∈ names, ¬ check.IsCalled name) ∧
      ∀ others, (∀ name, name ∈ others ↔ name ∈ names) → filter.disableNamed others = result) ∧
    (∀ unknown, result.2 = some unknown ↔
      ∃ before after, names = before ++ unknown :: after ∧
        (∀ name ∈ before, Check.IsKnown name) ∧
        ¬ Check.IsKnown unknown ∧
        ∀ check, result.1.runs check = true ↔
          filter.runs check = true ∧ ∀ name ∈ before, ¬ check.IsCalled name) ∧
    (∀ (request : CommandLine.ScanRequest) (settings : Settings),
      request.skip = names → settings.filter = filter →
        (result.2 = none → request.skipChecks settings = .ok { settings with filter := result.1 }) ∧
        ∀ unknown, result.2 = some unknown → ∃ e, request.skipChecks settings = .error e ∧
          e.message = "unknown check '" ++ unknown ++
            "', expected special-folders, folders, conditions or an asset category") ∧
    (∀ name : String, (∃ lowered : String, LowersTo name.toList lowered.toList) ∧
      ∀ lowered : String, LowersTo name.toList lowered.toList →
        Check.ofLowered? lowered = Check.ofName? name) ∧
    ∀ c, (filter.disable (.category c)).categories.bits =
      filter.categories.bits &&& (255 ^^^ 1 <<< c.index) := by
  intro result
  refine ⟨⟨fun name => Check.isKnown_iff, fun name => ?_, ScanFilter.snd_disableNamed_eq_none_iff⟩,
    fun hnone => ?_, fun unknown => ScanFilter.snd_disableNamed_eq_some_iff, ?_,
    fun name => ⟨?_, ?_⟩, CategorySet.bits_erase filter.categories⟩
  · have hmodel : EqIgnoringCase "Model" "model" := by decide
    have hgraphics : EqIgnoringCase "Graphics3D" "graphics3d" := by decide
    have hwords : (Check.category .model).IsCalled name ↔
        EqIgnoringCase name "Model" ∨ EqIgnoringCase name "Graphics3D" := by
      simp [Check.IsCalled, Check.words, FileCategory.toCategory, Category.name, FileCategory.name]
    rw [hwords, EqIgnoringCase, EqIgnoringCase, hmodel, hgraphics]
    rfl
  · have hknown := ScanFilter.snd_disableNamed_eq_none_iff.mp hnone
    exact ⟨fun check => ScanFilter.runs_disableNamed hknown,
      fun others hsame => ScanFilter.disableNamed_congr hknown hsame⟩
  · rintro request settings rfl rfl
    exact ⟨CommandLine.ScanRequest.skipChecks_of_none,
      fun unknown hsome => ⟨_, CommandLine.ScanRequest.skipChecks_of_some hsome, rfl⟩⟩
  · exact ⟨lowercase name, lowersTo_lowercase name⟩
  · exact fun lowered hlowered => Check.ofLowered?_eq_ofName? hlowered

/-- Models are skipped by both of their names, and folders in capital letters; a second request
names a check that there is not. -/
theorem names_switch_checks_off_two_words :
    let names := ["Folders", "model", "GRAPHICS3D"]
    let result := ScanFilter.default.disableNamed names
    let request : CommandLine.ScanRequest :=
      ⟨"Game", none, none, none, false, ["texture", "Meshes", "sound"]⟩
    result.2 = none ∧ result.1.runs (.category .model) = false ∧
      result.1.runs (.category .sound) = true ∧
      ScanFilter.default.disableNamed (names.reverse ++ names) = result ∧
      ∃ e, request.skipChecks .default = .error e ∧
        e.message =
          "unknown check 'Meshes', expected special-folders, folders, conditions " ++
            "or an asset category" := by
  intro names result request
  have hnone : result.2 = none := by decide +kernel
  have hsound : ∀ name ∈ names, ¬ (Check.category .sound).IsCalled name := by decide +kernel
  have hmodel : ¬ ∀ name ∈ names, ¬ (Check.category .model).IsCalled name := by decide +kernel
  have hsome : (ScanFilter.default.disableNamed request.skip).2 = some "Meshes" := by decide +kernel
  obtain ⟨-, hdone, -⟩ := names_switch_checks_off .default names
  obtain ⟨hruns, hsame⟩ := hdone hnone
  obtain ⟨-, -, -, hrequest, -⟩ := names_switch_checks_off .default request.skip
  refine ⟨hnone, ?_, (hruns _).mpr ⟨rfl, hsound⟩, hsame _ fun name => ?_,
    (hrequest request .default rfl rfl).2 _ hsome⟩
  · rw [← Bool.not_eq_true, hruns]
    exact fun h => hmodel h.2
  · rw [List.mem_append, List.mem_reverse, or_self]

end AssetAudit
