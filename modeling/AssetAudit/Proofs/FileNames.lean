import AssetAudit.Inventory
import AssetAudit.Naming.Pattern
import Mathlib.Data.List.Basic

/-!
# File names: a stem, a dot and an extension

Two tables speak of extensions.  `FileCategory.extensions` says which files are assets of a
category, and `Naming.suffix` says how the names of such assets may end.  This file puts both on one
footing.

* `Expression.notMem_of_avoids`: a text holds no character that its expression has no place for.  No
  grammar of a style has a place for a dot, so a name is cut at its only dot.
* `Pattern.IsCut` cuts a name into a stem that is a name of the style and an extension that
  `AllowsExtension`.  The accepted names are those that can be cut
  (`Pattern.accepts_iff_exists_isCut`), and the only dot tells where (`Pattern.IsCut.eq_of_append`).
* `Pattern.accepts_append_extension_iff`: a name made of a stem, a dot and an extension is accepted
  exactly if that is a cut.
* `Pattern.accepts_recognised_extension_iff` compares the tables.  They agree on every extension but
  one: `controller` has more letters than any extension may have, so a file that is discovered as an
  animator controller is misnamed whatever its stem is (`Pattern.rejects_hero_controller`).
-/

namespace AssetAudit
namespace Naming

open CharClass

namespace Expression

/-! ## Characters that do not occur -/

/-- Has the expression no place for the character? -/
def avoids (c : Char) : Expression → Bool
  | .empty => true
  | .literal d => c != d
  | .one k => !k.contains c
  | .seq e f => e.avoids c && f.avoids c
  | .either e f => e.avoids c && f.avoids c
  | .repeated e _ _ => e.avoids c

/-- **A character without a place does not occur.** -/
theorem notMem_of_avoids {c : Char} {e : Expression} (h : e.avoids c = true) {w : List Char}
    (hw : e.Matches w) : c ∉ w := by
  induction e generalizing w with
  | empty =>
    rw [show w = [] from hw]
    exact List.not_mem_nil
  | literal d =>
    rw [show w = [d] from hw, List.mem_singleton]
    simpa [avoids] using h
  | one k =>
    obtain ⟨d, hd, rfl⟩ := hw
    rw [List.mem_singleton]
    rintro rfl
    simp [avoids, hd] at h
  | seq e f he hf =>
    obtain ⟨u, v, rfl, hu, hv⟩ := hw
    rw [avoids, Bool.and_eq_true] at h
    exact List.not_mem_append (he h.1 hu) (hf h.2 hv)
  | either e f he hf =>
    rw [avoids, Bool.and_eq_true] at h
    rcases hw with hw | hw
    · exact he h.1 hw
    · exact hf h.2 hw
  | repeated e least most he =>
    obtain ⟨parts, -, -, hparts, rfl⟩ := hw
    rw [List.mem_flatten]
    rintro ⟨u, hu, hc⟩
    exact he h (hparts u hu) hc

/-! ## The expressions of suffixes -/

/-- A written text describes itself. -/
theorem matches_text_iff {cs w : List Char} : (text cs).Matches w ↔ w = cs := by
  induction cs generalizing w with
  | nil => rfl
  | cons c cs ih =>
    cases cs with
    | nil => rfl
    | cons d cs =>
      constructor
      · rintro ⟨u, v, rfl, hu, hv⟩
        rw [show u = [c] from hu, ih.mp hv, List.singleton_append]
      · rintro rfl
        exact ⟨[c], d :: cs, rfl, rfl, ih.mpr rfl⟩

/-- Texts of one character each are the characters of a text. -/
theorem exists_map_singleton {p : Char → Prop} {parts : List (List Char)}
    (h : ∀ u ∈ parts, ∃ c, p c ∧ u = [c]) :
    ∃ w : List Char, parts = w.map ([·]) ∧ ∀ c ∈ w, p c := by
  induction parts with
  | nil => exact ⟨[], rfl, by simp⟩
  | cons u parts ih =>
    obtain ⟨w, rfl, hw⟩ := ih fun v hv => h v (List.mem_cons_of_mem _ hv)
    obtain ⟨c, hc, rfl⟩ := h u List.mem_cons_self
    exact ⟨c :: w, rfl, by simpa using ⟨hc, hw⟩⟩

theorem flatten_map_singleton (w : List Char) : (w.map ([·])).flatten = w := by
  rw [← List.flatMap_def, List.flatMap_singleton']

/-- Copies of a class describe the texts of its characters that have a fitting length. -/
theorem matches_repeated_one_iff {k : CharClass} {least : Nat} {most : Option Nat} {w : List Char} :
    (Expression.repeated (.one k) least most).Matches w ↔
      least ≤ w.length ∧ (∀ n, most = some n → w.length ≤ n) ∧ ∀ c ∈ w, k.contains c = true := by
  constructor
  · rintro ⟨parts, hleast, hmost, hparts, rfl⟩
    obtain ⟨w, rfl, hw⟩ := exists_map_singleton hparts
    rw [List.length_map] at hleast hmost
    rw [flatten_map_singleton]
    exact ⟨hleast, hmost, hw⟩
  · rintro ⟨hleast, hmost, hw⟩
    refine ⟨w.map ([·]), by simpa using hleast, ?_, ?_, (flatten_map_singleton w).symm⟩
    · rwa [List.length_map]
    · intro u hu
      obtain ⟨c, hc, rfl⟩ := List.mem_map.mp hu
      exact ⟨c, hw c hc, rfl⟩

theorem matches_between_one_iff {k : CharClass} {least most : Nat} {w : List Char} :
    (between (.one k) least most).Matches w ↔
      least ≤ w.length ∧ w.length ≤ most ∧ ∀ c ∈ w, k.contains c = true := by
  rw [between, matches_repeated_one_iff]
  simp only [Option.some.injEq, forall_eq']

end Expression

open Expression (matches_text_iff matches_between_one_iff)

/-! ## Extensions that a suffix allows -/

/-- Two to six small letters or digits. -/
def IsShortExtension (extension : List Char) : Prop :=
  2 ≤ extension.length ∧ extension.length ≤ 6 ∧
    ∀ c ∈ extension, (lower.union digit).contains c = true

/-- The extensions that the names of a category may have. -/
def AllowsExtension : FileCategory → List Char → Prop
  | .prefab, extension => extension = "prefab".toList
  | .script, extension => extension = "cs".toList ∨ extension = "dll".toList
  | .scene, extension => extension = "unity".toList
  | .texture, extension | .sound, extension | .model, extension | .material, extension
  | .animation, extension => IsShortExtension extension

instance (extension : List Char) : Decidable (IsShortExtension extension) :=
  decidable_of_iff (2 ≤ extension.length ∧ extension.length ≤ 6 ∧
    extension.all (lower.union digit).contains = true) (by
      rw [IsShortExtension, List.all_eq_true])

instance (c : FileCategory) (extension : List Char) : Decidable (AllowsExtension c extension) :=
  match c with
  | .prefab | .scene => inferInstanceAs (Decidable (_ = _))
  | .script => inferInstanceAs (Decidable (_ ∨ _))
  | .texture | .sound | .model | .material | .animation =>
      inferInstanceAs (Decidable (IsShortExtension extension))

/-- An extension that may stand behind a dot holds no dot itself. -/
theorem dot_notMem_of_allowsExtension {c : FileCategory} {extension : List Char}
    (h : AllowsExtension c extension) : '.' ∉ extension := by
  have hshort (hextension : IsShortExtension extension) : '.' ∉ extension := fun hmem =>
    absurd (hextension.2.2 '.' hmem) (by decide)
  cases c with
  | prefab => rw [show extension = _ from h]; decide
  | scene => rw [show extension = _ from h]; decide
  | script => rcases h with rfl | rfl <;> decide
  | texture => exact hshort h
  | model => exact hshort h
  | sound => exact hshort h
  | material => exact hshort h
  | animation => exact hshort h

/-- **A suffix is a dot and an allowed extension.** -/
theorem matches_suffix_iff {c : FileCategory} {w : List Char} :
    (suffix c.toCategory).Matches w ↔
      ∃ extension, w = '.' :: extension ∧ AllowsExtension c extension := by
  have hdot {e : Expression} {allowed : List Char → Prop}
      (he : ∀ {v}, e.Matches v ↔ allowed v) :
      (Expression.seq (.literal '.') e).Matches w ↔
        ∃ extension, w = '.' :: extension ∧ allowed extension := by
    constructor
    · rintro ⟨u, v, rfl, hu, hv⟩
      exact ⟨v, by rw [show u = ['.'] from hu, List.singleton_append], he.mp hv⟩
    · rintro ⟨extension, rfl, hextension⟩
      exact ⟨['.'], extension, rfl, rfl, he.mpr hextension⟩
  cases c with
  | prefab => exact hdot matches_text_iff
  | scene => exact hdot matches_text_iff
  | script => exact hdot (or_congr matches_text_iff matches_text_iff)
  | texture => exact hdot matches_between_one_iff
  | model => exact hdot matches_between_one_iff
  | sound => exact hdot matches_between_one_iff
  | material => exact hdot matches_between_one_iff
  | animation => exact hdot matches_between_one_iff

/-! ## Names of files -/

/-- No style has a place for a dot. -/
theorem dot_notMem_of_grammar {style : Style} {w : List Char} (h : style.grammar.Matches w) :
    '.' ∉ w :=
  Expression.notMem_of_avoids (by cases style <;> decide) h

namespace Pattern

/-- A folder is named by the style alone. -/
theorem accepts_folder_iff {style : Style} {name : String} :
    (Pattern.mk style .folder).accepts name = true ↔ style.grammar.Matches name.toList := by
  rw [accepts_iff]
  constructor
  · rintro ⟨stem, rest, hname, hstem, hrest⟩
    rwa [hname, show rest = [] from hrest, List.append_nil]
  · intro h
    exact ⟨name.toList, [], (List.append_nil _).symm, h, rfl⟩

/-- A name is cut into a stem of the style and an extension of the category. -/
structure IsCut (style : Style) (c : FileCategory) (name stem extension : String) : Prop where
  name_eq : name = stem ++ "." ++ extension
  accepts_stem : (Pattern.mk style .folder).accepts stem = true
  allows_extension : AllowsExtension c extension.toList

section IsCut

variable {style : Style} {c : FileCategory} {name stem extension stem' extension' : String}

theorem IsCut.toList_eq (h : IsCut style c name stem extension) :
    name.toList = stem.toList ++ '.' :: extension.toList := by
  rw [h.name_eq]
  simp

theorem IsCut.dot_notMem_stem (h : IsCut style c name stem extension) : '.' ∉ stem.toList :=
  dot_notMem_of_grammar (accepts_folder_iff.mp h.accepts_stem)

theorem IsCut.dot_notMem_extension (h : IsCut style c name stem extension) :
    '.' ∉ extension.toList :=
  dot_notMem_of_allowsExtension h.allows_extension

/-- The only dot tells where a cut is. -/
theorem IsCut.eq_of_append (h : IsCut style c name stem extension)
    (hname : name = stem' ++ "." ++ extension') : stem = stem' ∧ extension = extension' := by
  have htexts :
      stem.toList ++ '.' :: extension.toList = stem'.toList ++ '.' :: extension'.toList := by
    rw [← h.toList_eq, hname]
    simp
  obtain ⟨hstem, -, hextension⟩ :=
    (List.append_cons_inj_of_notMem h.dot_notMem_stem h.dot_notMem_extension).mp htexts
  exact ⟨String.toList_inj.mp hstem, String.toList_inj.mp hextension⟩

theorem IsCut.count_dot (h : IsCut style c name stem extension) : name.toList.count '.' = 1 := by
  rw [h.toList_eq, List.count_append, List.count_cons_self,
    List.count_eq_zero_of_not_mem h.dot_notMem_stem,
    List.count_eq_zero_of_not_mem h.dot_notMem_extension]

/-- The accepted names are those that can be cut. -/
theorem accepts_iff_exists_isCut :
    (Pattern.mk style c.toCategory).accepts name = true ↔
      ∃ stem extension, IsCut style c name stem extension := by
  rw [accepts_iff]
  constructor
  · rintro ⟨stem, rest, hname, hstem, hrest⟩
    obtain ⟨extension, rfl, hallowed⟩ := matches_suffix_iff.mp hrest
    refine ⟨String.ofList stem, String.ofList extension, ?_, ?_, ?_⟩
    · apply String.toList_inj.mp
      rw [hname]
      simp
    · rwa [accepts_folder_iff, String.toList_ofList]
    · rwa [String.toList_ofList]
  · rintro ⟨stem, extension, hcut⟩
    exact ⟨_, _, hcut.toList_eq, accepts_folder_iff.mp hcut.accepts_stem,
      matches_suffix_iff.mpr ⟨_, rfl, hcut.allows_extension⟩⟩

/-- **A file is named by a stem and an extension.** -/
theorem accepts_append_extension_iff :
    (Pattern.mk style c.toCategory).accepts (stem ++ "." ++ extension) = true ↔
      (Pattern.mk style .folder).accepts stem = true ∧ AllowsExtension c extension.toList := by
  rw [accepts_iff_exists_isCut]
  constructor
  · rintro ⟨found, foundExtension, hcut⟩
    obtain ⟨rfl, rfl⟩ := hcut.eq_of_append rfl
    exact ⟨hcut.accepts_stem, hcut.allows_extension⟩
  · rintro ⟨hstem, hallowed⟩
    exact ⟨stem, extension, rfl, hstem, hallowed⟩

end IsCut

/-- **A file name is a stem, a dot and an extension.**  For every style and every category of files:

* a name is accepted exactly if it can be cut into a stem that is a name of the style, a dot, and an
  extension of the category: `prefab`; `cs` or `dll`; `unity`; or for the other five categories two
  to six small letters and digits;
* there is one such cut at most;
* a name with no dot or with several dots is not accepted. -/
theorem accepts_iff_stem_dot_extension (style : Style) (c : FileCategory) (name : String) :
    ((Pattern.mk style c.toCategory).accepts name = true ↔
        ∃ stem extension : String, name = stem ++ "." ++ extension ∧
          (Pattern.mk style .folder).accepts stem = true ∧ AllowsExtension c extension.toList) ∧
      (∀ stem extension stem' extension' : String, IsCut style c name stem extension →
        IsCut style c name stem' extension' → stem = stem' ∧ extension = extension') ∧
      (name.toList.count '.' ≠ 1 → (Pattern.mk style c.toCategory).accepts name = false) := by
  refine ⟨?_, fun _ _ _ _ hcut hcut' => hcut.eq_of_append hcut'.name_eq, fun hdots => ?_⟩
  · rw [accepts_iff_exists_isCut]
    constructor
    · rintro ⟨stem, extension, hcut⟩
      exact ⟨stem, extension, hcut.name_eq, hcut.accepts_stem, hcut.allows_extension⟩
    · rintro ⟨stem, extension, hname, hstem, hallowed⟩
      exact ⟨stem, extension, hname, hstem, hallowed⟩
  · rw [← Bool.not_eq_true, accepts_iff_exists_isCut]
    rintro ⟨stem, extension, hcut⟩
    exact hdots hcut.count_dot

/-- A script, and a script with a second dot. -/
theorem accepts_iff_stem_dot_extension_player_input :
    (Pattern.mk .snakeCase .script).accepts "player_input.cs" = true ∧
      "player_input.old.cs".toList.count '.' ≠ 1 ∧
      (Pattern.mk .snakeCase .script).accepts "player_input.old.cs" = false := by
  have hstem : (Pattern.mk .snakeCase .folder).accepts "player_input" = true := by decide +kernel
  have hdots : "player_input.old.cs".toList.count '.' ≠ 1 := by decide
  exact ⟨(accepts_iff_stem_dot_extension .snakeCase .script "player_input.cs").1.mpr
      ⟨"player_input", "cs", rfl, hstem, by decide⟩,
    hdots, (accepts_iff_stem_dot_extension .snakeCase .script "player_input.old.cs").2.2 hdots⟩

/-- The extensions by which files are recognised are allowed, all but one. -/
theorem allowsExtension_iff_of_mem_extensions {c : FileCategory} {extension : String}
    (h : extension ∈ c.extensions) :
    AllowsExtension c extension.toList ↔ extension ≠ "controller" := by
  have htable : ∀ c ∈ FileCategory.all, ∀ extension ∈ c.extensions,
      (AllowsExtension c extension.toList ↔ extension ≠ "controller") := by decide
  exact htable c (FileCategory.mem_all c) extension h

/-- **Recognised extensions.**  Take any style, any category and any extension by which files of the
category are recognised.  A stem with this extension is accepted exactly if the stem is a name of
the style and the extension is not `controller`. -/
theorem accepts_recognised_extension_iff (style : Style) {c : FileCategory} {extension : String}
    (h : extension ∈ c.extensions) (stem : String) :
    (Pattern.mk style c.toCategory).accepts (stem ++ "." ++ extension) = true ↔
      (Pattern.mk style .folder).accepts stem = true ∧ extension ≠ "controller" := by
  rw [accepts_append_extension_iff, allowsExtension_iff_of_mem_extensions h]

/-- A shader under a name with hyphens. -/
theorem accepts_recognised_extension_iff_water_surface :
    "shader" ∈ FileCategory.material.extensions ∧
      (Pattern.mk .kebabCase .material).accepts "water-surface.shader" = true := by
  have hrecognised : "shader" ∈ FileCategory.material.extensions := by decide
  have hstem : (Pattern.mk .kebabCase .folder).accepts "water-surface" = true := by decide +kernel
  exact ⟨hrecognised, (accepts_recognised_extension_iff .kebabCase hrecognised
    "water-surface").mpr ⟨hstem, by decide⟩⟩

/-- **Animator controllers are misnamed.**  `Hero` is a name of the first style, and `controller` an
extension by which animations are recognised, but `Hero.controller` is not accepted. -/
theorem rejects_hero_controller :
    ∃ (style : Style) (c : FileCategory) (stem extension : String),
      extension ∈ c.extensions ∧ c.discovers (stem ++ "." ++ extension) = true ∧
        (Pattern.mk style .folder).accepts stem = true ∧
        (Pattern.mk style c.toCategory).accepts (stem ++ "." ++ extension) = false := by
  refine ⟨.pascalCase, .animation, "Hero", "controller", ?_⟩
  decide +kernel

end Pattern
end Naming
end AssetAudit
