import AssetAudit.Condition.Formula
import AssetAudit.Proofs.Segments

/-!
# How a formula is cut

`Formula.groups` cuts a text at its markers, before separators are brought to their normal form.
Here its equations are put into the form in which they are used: a text without a marker is one
group, and a marker ends the group in front of it.

* `groups_of_no_marker`, `groups_append_marker_slash` and `groups_append_marker` cut a text.
* `split_withForwardSlashes`: which slash is written does not change the segments, so the segments
  of a group are those of the part of the formula that it was cut from.
* `parse?_of_one_group`, `parse?_of_two_groups` and `parse?_eq_none_of_two_le_count` read a text by
  its `nonemptyGroups`, which are all that counts.
* `parse?_append_marker` and `parse?_append_marker_slash` read a text with one marker.
* `Glob` is the formula `b/*/s` of literal names that an author means to write, and
  `Glob.parse?_text` shows that it is read so.
-/

namespace AssetAudit

open AssetAudit.Path (IsSegment)

namespace Formula

/-- A name that stands for itself in a formula. -/
def IsLiteral (name : String) : Prop := IsSegment name ∧ wildcard ∉ name.toList

instance (name : String) : Decidable (IsLiteral name) := inferInstanceAs (Decidable (_ ∧ _))

/-- The name that stands for every subfolder. -/
def wildcardSegment : String := String.singleton wildcard

/-- The text at which a formula is cut. -/
def marker : List Char := ['/', wildcard]

theorem not_marker_infix_of_notMem {text : List Char} (h : wildcard ∉ text) : ¬ marker <:+: text :=
  fun hmarker => h (hmarker.subset (by simp [marker]))

/-! ## Cutting -/

/-- There is always a group, if only an empty one. -/
theorem groups_ne_nil (text : List Char) : groups text ≠ [] := by
  fun_induction groups text with
  | case1 => exact List.cons_ne_nil _ _
  | case2 => exact List.cons_ne_nil _ _
  | case3 => exact List.cons_ne_nil _ _
  | case4 c rest _ _ ih => rwa [ne_eq, List.modifyHead_eq_nil_iff]

/-- A character that does not begin a marker goes to the first group. -/
theorem groups_cons_of_not_marker {c : Char} {text : List Char} (h : ¬ marker <+: c :: text) :
    groups (c :: text) = (groups text).modifyHead (c :: ·) := by
  rw [groups]
  · rintro rest rfl rfl
    exact h ⟨'/' :: rest, rfl⟩
  · rintro rest rfl rfl
    exact h ⟨rest, rfl⟩

/-- A text without a marker is one group. -/
theorem groups_of_no_marker {text : List Char} (h : ¬ marker <:+: text) : groups text = [text] := by
  induction text with
  | nil => rfl
  | cons c text ih =>
    have htext : ¬ marker <:+: text :=
      fun hmarker => h (hmarker.trans (List.suffix_cons c text).isInfix)
    rw [groups_cons_of_not_marker fun hmarker => h hmarker.isInfix, ih htext, List.modifyHead_cons]

/-- What stands before a slash and holds no marker goes to the group that the slash ends or
continues. -/
theorem groups_append_slash {before : List Char} (h : ¬ marker <:+: before) (rest : List Char) :
    groups (before ++ '/' :: rest) = (groups ('/' :: rest)).modifyHead (before ++ ·) := by
  induction before with
  | nil => cases hgroups : groups ('/' :: rest) <;> simp [hgroups]
  | cons c before ih =>
    have hbefore : ¬ marker <:+: before :=
      fun hmarker => h (hmarker.trans (List.suffix_cons c before).isInfix)
    have hbegins : ¬ marker <+: c :: (before ++ '/' :: rest) := by
      cases before with
      | nil => simp [marker, wildcard]
      | cons d before =>
        intro hmarker
        refine h (List.IsPrefix.isInfix ?_)
        simpa [marker] using hmarker
    rw [List.cons_append, groups_cons_of_not_marker hbegins, ih hbefore, List.modifyHead_modifyHead]
    rfl

/-- **A marker ends the group in front of it** and takes a slash with it. -/
theorem groups_append_marker_slash {before : List Char} (h : ¬ marker <:+: before)
    (rest : List Char) :
    groups (before ++ '/' :: wildcard :: '/' :: rest) = before :: groups rest := by
  have hmarker : groups ('/' :: wildcard :: '/' :: rest) = [] :: groups rest := by
    rw [wildcard, groups]
  rw [groups_append_slash h, hmarker, List.modifyHead_cons, List.append_nil]

/-- A marker at the end leaves an empty group behind. -/
theorem groups_append_marker {before : List Char} (h : ¬ marker <:+: before) :
    groups (before ++ ['/', wildcard]) = [before, []] := by
  rw [groups_append_slash h]
  simp [wildcard, groups]

/-! ## Slashes -/

/-- Separators are replaced by separators. -/
theorem isSeparator_forwardSlash (c : Char) :
    Path.isSeparator (if c = '\\' then '/' else c) = Path.isSeparator c := by
  split
  · next hc => rw [hc]; rfl
  · rfl

/-- So the replacement does not move a cut. -/
theorem splitOnP_map_of_isSeparator (text : List Char) :
    (text.map fun c => if c = '\\' then '/' else c).splitOnP Path.isSeparator =
      text.splitOnP Path.isSeparator := by
  induction text with
  | nil => rfl
  | cons c text ih =>
    rw [List.map_cons, List.splitOnP_cons_eq_if_modifyHead, List.splitOnP_cons_eq_if_modifyHead, ih]
    by_cases hc : c = '\\'
    · rw [if_pos hc, hc]
      rfl
    · rw [if_neg hc]

/-- **The segments do not depend on the slashes.** -/
theorem split_withForwardSlashes (text : String) :
    Path.split (String.ofList (withForwardSlashes text)) = Path.split text := by
  rw [Path.split, String.toList_ofList, withForwardSlashes, splitOnP_map_of_isSeparator]
  rfl

theorem normalize_withForwardSlashes (text : String) :
    Path.normalize (String.ofList (withForwardSlashes text)) = Path.normalize text := by
  rw [Path.normalize, split_withForwardSlashes]
  rfl

/-- Every separator is now a forward slash. -/
theorem eq_slash_of_mem_withForwardSlashes {text : String} {c : Char}
    (hc : c ∈ withForwardSlashes text) (hseparator : Path.isSeparator c = true) : c = '/' := by
  obtain ⟨d, -, rfl⟩ := List.mem_map.mp hc
  by_cases hd : d = '\\'
  · rw [if_pos hd]
  · rw [if_neg hd] at hseparator ⊢
    simpa [Path.isSeparator, hd] using hseparator

theorem withForwardSlashes_append (a b : String) :
    withForwardSlashes (a ++ b) = withForwardSlashes a ++ withForwardSlashes b := by
  simp [withForwardSlashes]

theorem withForwardSlashes_append_marker_slash (base suffix : String) :
    withForwardSlashes (base ++ "/*/" ++ suffix) =
      withForwardSlashes base ++ '/' :: wildcard :: '/' :: withForwardSlashes suffix := by
  rw [withForwardSlashes_append, withForwardSlashes_append, List.append_assoc]
  rfl

theorem withForwardSlashes_eq_nil_iff {text : String} :
    withForwardSlashes text = [] ↔ text = "" := by
  simp [withForwardSlashes]

/-- Wildcards stay wildcards. -/
theorem count_withForwardSlashes (text : String) :
    (withForwardSlashes text).count wildcard = text.toList.count wildcard := by
  rw [withForwardSlashes, List.count_eq_countP, List.countP_map, List.count_eq_countP]
  congr 1
  funext c
  by_cases hc : c = '\\'
  · simp [hc, wildcard]
  · simp [hc]

theorem not_marker_infix_withForwardSlashes {text : String} (h : wildcard ∉ text.toList) :
    ¬ marker <:+: withForwardSlashes text :=
  not_marker_infix_of_notMem <| by
    rwa [← List.count_eq_zero, count_withForwardSlashes, List.count_eq_zero]

/-! ## Reading groups -/

/-- The groups that are not empty. -/
def nonemptyGroups (text : List Char) : List (List Char) :=
  (groups text).filter (!·.isEmpty)

theorem nonemptyGroups_of_no_marker {text : List Char} (h : ¬ marker <:+: text) (hne : text ≠ []) :
    nonemptyGroups text = [text] := by
  rw [nonemptyGroups, groups_of_no_marker h, List.filter_cons_of_pos (by simpa using hne)]
  rfl

section Before

variable {before : List Char}

theorem nonemptyGroups_append_marker (h : ¬ marker <:+: before) (hne : before ≠ []) :
    nonemptyGroups (before ++ ['/', wildcard]) = [before] := by
  rw [nonemptyGroups, groups_append_marker h, List.filter_cons_of_pos (by simpa using hne)]
  rfl

theorem nonemptyGroups_append_marker_slash (h : ¬ marker <:+: before) (hne : before ≠ [])
    (rest : List Char) :
    nonemptyGroups (before ++ '/' :: wildcard :: '/' :: rest) = before :: nonemptyGroups rest := by
  rw [nonemptyGroups, groups_append_marker_slash h, List.filter_cons_of_pos (by simpa using hne)]
  rfl

end Before

theorem parse?_of_one_group {text : String} {group : List Char}
    (h : nonemptyGroups (withForwardSlashes text) = [group]) :
    parse? text = some ⟨Path.normalize (String.ofList group), none⟩ := by
  rw [nonemptyGroups] at h
  rw [parse?, h]

theorem parse?_of_two_groups {text : String} {base suffix : List Char}
    (h : nonemptyGroups (withForwardSlashes text) = [base, suffix])
    (hcount : text.toList.count wildcard ≤ 1) :
    parse? text = some ⟨Path.normalize (String.ofList base),
      some (Path.normalize (String.ofList suffix))⟩ := by
  rw [nonemptyGroups] at h
  rw [parse?, h]
  exact if_pos hcount

/-- A text with several wildcards is read only if one group is left of it. -/
theorem parse?_eq_none_of_two_le_count {text : String} (hcount : 2 ≤ text.toList.count wildcard)
    (h : ∀ group, nonemptyGroups (withForwardSlashes text) ≠ [group]) : parse? text = none := by
  simp only [nonemptyGroups] at h
  rw [parse?]
  split
  · next base hbase => exact absurd hbase (h base)
  · exact if_neg (by omega)
  · rfl

/-! ## Reading a text with one marker -/

/-- A marker at the end of a base. -/
theorem parse?_append_marker {base : String} (hbase : wildcard ∉ base.toList) (hne : base ≠ "") :
    parse? (base ++ "/*") = some ⟨Path.normalize base, none⟩ := by
  have hgroups :
      nonemptyGroups (withForwardSlashes (base ++ "/*")) = [withForwardSlashes base] := by
    rw [withForwardSlashes_append]
    exact nonemptyGroups_append_marker (not_marker_infix_withForwardSlashes hbase)
      (mt withForwardSlashes_eq_nil_iff.mp hne)
  rw [parse?_of_one_group hgroups, normalize_withForwardSlashes]

/-- A marker between a base and a suffix. -/
theorem parse?_append_marker_slash {base suffix : String} (hbase : wildcard ∉ base.toList)
    (hne : base ≠ "") (hsuffix : wildcard ∉ suffix.toList) (hne' : suffix ≠ "") :
    parse? (base ++ "/*/" ++ suffix) =
      some ⟨Path.normalize base, some (Path.normalize suffix)⟩ := by
  have hgroups : nonemptyGroups (withForwardSlashes (base ++ "/*/" ++ suffix)) =
      [withForwardSlashes base, withForwardSlashes suffix] := by
    rw [withForwardSlashes_append_marker_slash,
      nonemptyGroups_append_marker_slash (not_marker_infix_withForwardSlashes hbase)
        (mt withForwardSlashes_eq_nil_iff.mp hne),
      nonemptyGroups_of_no_marker (not_marker_infix_withForwardSlashes hsuffix)
        (mt withForwardSlashes_eq_nil_iff.mp hne')]
  have hcount : (base ++ "/*/" ++ suffix).toList.count wildcard ≤ 1 := by
    have htext : (base ++ "/*/" ++ suffix).toList =
        base.toList ++ ['/', wildcard, '/'] ++ suffix.toList := by
      rw [String.toList_append, String.toList_append]
      rfl
    rw [htext, List.count_append, List.count_append, List.count_eq_zero_of_not_mem hbase,
      List.count_eq_zero_of_not_mem hsuffix]
    decide
  rw [parse?_of_two_groups hgroups hcount, normalize_withForwardSlashes,
    normalize_withForwardSlashes]

/-! ## Reading canonical text -/

/-- Joining literal names writes no wildcard. -/
theorem wildcard_notMem_join {segments : List String} (h : ∀ name ∈ segments, IsLiteral name) :
    wildcard ∉ (Path.join segments).toList := by
  induction segments with
  | nil => decide
  | cons name rest ih =>
    have hname := (h name List.mem_cons_self).2
    have hrest := ih fun other hother => h other (List.mem_cons_of_mem _ hother)
    by_cases hnil : rest = []
    · rwa [hnil, Path.join_singleton]
    · rw [Path.join_cons_of_ne_nil name hnil, String.toList_append, String.toList_append,
        List.mem_append, List.mem_append]
      rintro ((hmem | hmem) | hmem)
      · exact hname hmem
      · exact absurd hmem (by decide)
      · exact hrest hmem

/-- A wildcard between names is written with a slash on either side. -/
theorem join_append_wildcardSegment {base names : List String} (hbase : base ≠ [])
    (hnames : names ≠ []) :
    Path.join (base ++ wildcardSegment :: names) = Path.join base ++ "/*/" ++ Path.join names := by
  have hmarker : "/*/" = "/" ++ wildcardSegment ++ "/" := rfl
  rw [Path.join_append_of_ne_nil hbase (List.cons_ne_nil _ _), Path.join_cons_of_ne_nil _ hnames,
    hmarker]
  simp only [String.append_assoc]

end Formula

/-! ## Globs -/

/-- A formula as an author means it: a wildcard between a base and a suffix of literal names, which
may be empty. -/
structure Glob where
  base : List String
  suffix : List String
  base_ne_nil : base ≠ []
  isLiteral_base : ∀ name ∈ base, Formula.IsLiteral name
  isLiteral_suffix : ∀ name ∈ suffix, Formula.IsLiteral name

namespace Glob

open Formula (IsLiteral wildcardSegment)

/-- The text `b/*/s`, or `b/*` without a suffix. -/
def text (glob : Glob) : String := Path.join (glob.base ++ wildcardSegment :: glob.suffix)

/-- What the text is to be read as. -/
def formula (glob : Glob) : Formula where
  base := Path.join glob.base
  suffix := if glob.suffix = [] then none else some (Path.join glob.suffix)

variable (glob : Glob)

theorem isSegment_base : ∀ name ∈ glob.base, IsSegment name :=
  fun name hname => (glob.isLiteral_base name hname).1

theorem isSegment_suffix : ∀ name ∈ glob.suffix, IsSegment name :=
  fun name hname => (glob.isLiteral_suffix name hname).1

/-- **The text of a glob is read as it is meant.** -/
theorem parse?_text : Formula.parse? glob.text = some glob.formula := by
  have hbase : Path.join glob.base ≠ "" :=
    mt (Path.join_eq_empty_iff glob.isSegment_base).mp glob.base_ne_nil
  have hcanonical : Path.normalize (Path.join glob.base) = Path.join glob.base := by
    rw [Path.normalize, Path.split_join glob.isSegment_base]
  by_cases hnil : glob.suffix = []
  · have hend : Path.join glob.base ++ "/" ++ wildcardSegment = Path.join glob.base ++ "/*" := by
      rw [String.append_assoc]
      rfl
    rw [text, formula, hnil, if_pos rfl,
      Path.join_append_of_ne_nil glob.base_ne_nil (List.cons_ne_nil _ _), Path.join_singleton, hend,
      Formula.parse?_append_marker (Formula.wildcard_notMem_join glob.isLiteral_base) hbase,
      hcanonical]
  · have hsuffix : Path.join glob.suffix ≠ "" :=
      mt (Path.join_eq_empty_iff glob.isSegment_suffix).mp hnil
    have hcanonical' : Path.normalize (Path.join glob.suffix) = Path.join glob.suffix := by
      rw [Path.normalize, Path.split_join glob.isSegment_suffix]
    rw [text, formula, if_neg hnil, Formula.join_append_wildcardSegment glob.base_ne_nil hnil,
      Formula.parse?_append_marker_slash (Formula.wildcard_notMem_join glob.isLiteral_base) hbase
        (Formula.wildcard_notMem_join glob.isLiteral_suffix) hsuffix, hcanonical, hcanonical']

end Glob
end AssetAudit
