import AssetAudit.Proofs.FormulaText
import AssetAudit.Proofs.RuleOutcomes

/-!
# Wildcards where none is meant to stand

A formula is meant to have one wildcard at most, with a base in front of it.  What `Formula.parse?`
makes of other texts follows from two of its rules: empty groups count for nothing, and wildcards
are counted only when two groups are left.

## Several wildcards

Markers that follow each other at once, as in `/*//*`, leave nothing but empty groups between them.
Such a stretch is an `IsMarkerRun`, and a text is left with one group exactly if runs are all that
stands around it (`nonemptyGroups_eq_singleton_iff`).  So a text with several wildcards is malformed
unless a single group stands between two runs, and then it is read as that group, without its
wildcards.

## A wildcard in front

A wildcard that is the first name of a formula has no base in front of it, and the number of slashes
in front of it decides what becomes of it.  Without a slash it does not belong to a marker and stays
a part of the base.  One slash makes it a marker with an empty group in front, so that the suffix
takes the place of the base.  From two slashes on the base is a group of slashes, which names the
assets themselves.
-/

namespace AssetAudit

open AssetAudit.Path (IsSegment)

namespace Formula

/-! ## Runs of markers -/

/-- Markers that follow each other at once, so that all groups around them are empty. -/
inductive IsMarkerRun : List Char → Prop where
  | nil : IsMarkerRun []
  | marker : IsMarkerRun ['/', wildcard]
  | cons {run : List Char} (h : IsMarkerRun run) : IsMarkerRun ('/' :: wildcard :: '/' :: run)

/-- A run that does not begin with a slash is empty. -/
theorem IsMarkerRun.eq_nil_of_head? {run : List Char} (h : IsMarkerRun run)
    (hhead : run.head? ≠ some '/') : run = [] := by
  cases h with
  | nil => rfl
  | marker => exact absurd rfl hhead
  | cons => exact absurd rfl hhead

theorem nonemptyGroups_marker_slash (rest : List Char) :
    nonemptyGroups ('/' :: wildcard :: '/' :: rest) = nonemptyGroups rest := by
  rw [nonemptyGroups, wildcard, groups]
  rfl

theorem nonemptyGroups_marker {rest : List Char} (h : rest.head? ≠ some '/') :
    nonemptyGroups ('/' :: wildcard :: rest) = nonemptyGroups rest := by
  rw [nonemptyGroups, wildcard, groups]
  · rfl
  · rintro more rfl
    exact h rfl

theorem head?_ne_slash {rest : List Char} (h : ∀ more, rest = '/' :: more → False) :
    rest.head? ≠ some '/' := by
  intro hhead
  obtain ⟨more, hmore⟩ := List.head?_eq_some_iff.mp hhead
  exact h more hmore

/-- A character that does not begin a marker belongs to the first group. -/
theorem exists_groups_cons {c : Char} {rest : List Char}
    (h : ∀ more, c = '/' → rest = wildcard :: more → False) :
    ¬ marker <+: c :: rest ∧ ∃ first others, groups rest = first :: others ∧
      groups (c :: rest) = (c :: first) :: others := by
  have hbegins : ¬ marker <+: c :: rest := by
    rintro ⟨more, hmore⟩
    obtain ⟨rfl, rfl⟩ := List.cons.inj hmore
    exact h more rfl rfl
  obtain ⟨first, others, hgroups⟩ := List.exists_cons_of_ne_nil (groups_ne_nil rest)
  refine ⟨hbegins, first, others, hgroups, ?_⟩
  rw [groups_cons_of_not_marker hbegins, hgroups, List.modifyHead_cons]

/-- **The runs of markers** are the texts whose groups are all empty. -/
theorem nonemptyGroups_eq_nil_iff {text : List Char} :
    nonemptyGroups text = [] ↔ IsMarkerRun text := by
  constructor
  · intro h
    fun_induction groups text with
    | case1 => exact .nil
    | case2 rest ih => exact .cons (ih (by rwa [← nonemptyGroups_marker_slash]))
    | case3 rest hrest ih =>
      have hhead := head?_ne_slash hrest
      have hrun : IsMarkerRun rest := ih (by rwa [← nonemptyGroups_marker hhead])
      rw [hrun.eq_nil_of_head? hhead]
      exact .marker
    | case4 c rest _ hmarker ih =>
      obtain ⟨-, first, others, -, hgroups⟩ := exists_groups_cons hmarker
      rw [nonemptyGroups, hgroups] at h
      simp at h
  · intro h
    induction h with
    | nil => rfl
    | marker => rfl
    | cons _ ih => rw [nonemptyGroups_marker_slash, ih]

/-- The first group has only a run behind it if all other groups are empty. -/
theorem groups_eq_cons_iff {text group : List Char} :
    (∃ others, groups text = group :: others ∧ others.filter (!·.isEmpty) = []) ↔
      ∃ back, text = group ++ back ∧ IsMarkerRun back ∧ ¬ marker <:+: group := by
  constructor
  · rintro ⟨others, hgroups, hothers⟩
    fun_induction groups text generalizing group with
    | case1 =>
      cases hgroups
      exact ⟨[], rfl, .nil, by simp [marker]⟩
    | case2 rest ih =>
      cases hgroups
      exact ⟨_, rfl, .cons (nonemptyGroups_eq_nil_iff.mp hothers), by simp [marker]⟩
    | case3 rest hrest ih =>
      cases hgroups
      refine ⟨_, rfl, nonemptyGroups_eq_nil_iff.mp ?_, by simp [marker]⟩
      exact (nonemptyGroups_marker (head?_ne_slash hrest)).trans hothers
    | case4 c rest _ hmarker ih =>
      obtain ⟨hbegins, first, others', hfirst, -⟩ := exists_groups_cons hmarker
      rw [hfirst, List.modifyHead_cons, List.cons.injEq] at hgroups
      obtain ⟨rfl, rfl⟩ := hgroups
      obtain ⟨back, rfl, hback, hnone⟩ := ih hfirst
      refine ⟨back, rfl, hback, fun hinside => ?_⟩
      rcases List.infix_cons_iff.mp hinside with hinside | hinside
      · exact hbegins (hinside.trans (List.prefix_append (c :: first) back))
      · exact hnone hinside
  · rintro ⟨back, rfl, hback, hnone⟩
    cases hback with
    | nil => exact ⟨[], by rw [List.append_nil, groups_of_no_marker hnone], rfl⟩
    | marker => exact ⟨[[]], groups_append_marker hnone, rfl⟩
    | cons hrun =>
      exact ⟨_, groups_append_marker_slash hnone _, nonemptyGroups_eq_nil_iff.mpr hrun⟩

/-- A group between two runs of markers.  A marker that ends the run in front would take a slash of
the group with it. -/
structure IsLoneGroup (front group back : List Char) : Prop where
  run_front : IsMarkerRun front
  run_back : IsMarkerRun back
  ne_nil : group ≠ []
  no_marker : ¬ marker <:+: group
  no_slash : front.getLast? = some wildcard → group.head? ≠ some '/'

/-- **One group is left** exactly if all that stands around it are runs of markers. -/
theorem nonemptyGroups_eq_singleton_iff {text group : List Char} :
    nonemptyGroups text = [group] ↔
      ∃ front back, text = front ++ (group ++ back) ∧ IsLoneGroup front group back := by
  constructor
  · intro h
    fun_induction groups text with
    | case1 => cases h
    | case2 rest ih =>
      obtain ⟨front, back, rfl, hlone⟩ := ih ((nonemptyGroups_marker_slash rest).symm.trans h)
      refine ⟨_, back, rfl,
        { hlone with run_front := .cons hlone.run_front, no_slash := fun hlast => ?_ }⟩
      cases front with
      | nil => cases hlast
      | cons c front => exact hlone.no_slash hlast
    | case3 rest hrest ih =>
      have hhead := head?_ne_slash hrest
      obtain ⟨front, back, rfl, hlone⟩ := ih ((nonemptyGroups_marker hhead).symm.trans h)
      have hfront : front = [] := hlone.run_front.eq_nil_of_head? fun hslash => by
        rw [List.head?_append, hslash] at hhead
        exact hhead rfl
      subst hfront
      refine ⟨_, back, rfl, { hlone with run_front := .marker, no_slash := fun _ hslash => ?_ }⟩
      rw [List.nil_append, List.head?_append, hslash] at hhead
      exact hhead rfl
    | case4 c rest _ hmarker ih =>
      obtain ⟨-, first, others, -, hgroups⟩ := exists_groups_cons hmarker
      rw [nonemptyGroups, hgroups, List.filter_cons_of_pos rfl, List.cons.injEq] at h
      obtain ⟨back, htext, hback, hnone⟩ :=
        groups_eq_cons_iff.mp ⟨others, hgroups, h.2⟩
      have hgroup : group ≠ [] := by
        rw [← h.1]
        exact List.cons_ne_nil _ _
      refine ⟨[], back, by rw [htext, h.1]; rfl, .nil, hback, hgroup, h.1 ▸ hnone, fun hlast => ?_⟩
      cases hlast
  · rintro ⟨front, back, rfl, hlone⟩
    have hgroup : nonemptyGroups (group ++ back) = [group] := by
      obtain ⟨others, hgroups, hothers⟩ :=
        groups_eq_cons_iff.mpr ⟨back, rfl, hlone.run_back, hlone.no_marker⟩
      rw [nonemptyGroups, hgroups, List.filter_cons_of_pos (by simpa using hlone.ne_nil), hothers]
    obtain ⟨hfront, -, hne, -, hslash⟩ := hlone
    induction hfront with
    | nil => exact hgroup
    | marker =>
      have hhead : (group ++ back).head? ≠ some '/' := by
        rw [List.head?_append_of_ne_nil _ hne]
        exact hslash rfl
      exact (nonemptyGroups_marker hhead).trans hgroup
    | @cons run _ ih =>
      refine (nonemptyGroups_marker_slash _).trans (ih fun hlast => hslash ?_)
      cases run with
      | nil => cases hlast
      | cons c run => exact hlast

/-! ## Several wildcards -/

/-- Names that are wildcards take a wildcard of the text each. -/
theorem count_wildcardSegment_le (text : String) :
    (Path.split text).count wildcardSegment ≤ text.toList.count wildcard := by
  have hnames (names : List String) :
      names.count wildcardSegment ≤ (names.flatMap String.toList).count wildcard := by
    induction names with
    | nil => exact Nat.le_refl 0
    | cons name names ih =>
      rw [List.flatMap_cons, List.count_append, List.count_cons]
      split
      · next hname =>
        have hone : name.toList.count wildcard = 1 := by rw [eq_of_beq hname]; rfl
        omega
      · omega
  refine Nat.le_trans (hnames _) ?_
  rw [Path.flatMap_toList_split]
  exact List.filter_sublist.count_le wildcard

end Formula

namespace Resolution

/-- A rule with a malformed formula is passed over. -/
theorem recordRules_cons_of_malformed {inventory : Inventory} {c : FileCategory}
    {rule : ConditionRule} (hparse : Formula.parse? rule.formula = none) (position : Nat)
    (r : Resolution) (rules : List (ConditionRule × Nat)) :
    recordRules inventory c r ((rule, position) :: rules) = recordRules inventory c r rules := by
  cases hroom : r.log.hasRoom with
  | true =>
    rw [recordRules, if_pos hroom, ConditionRule.findings_of_malformed hparse]
    rfl
  | false => rw [recordRules_of_full hroom, recordRules_of_full hroom]

end Resolution

namespace Formula

/-- **Which formulas with several wildcards are malformed.**  A text with two or more wildcards
among its names is malformed unless a single group stands between two runs of markers, and then it
is read as that group alone, without a suffix.  A rule whose formula is malformed changes neither
the allow-list nor the log, wherever it stands among other rules. -/
theorem several_wildcards_malformed_iff {text : String}
    (h : 2 ≤ (Path.split text).count wildcardSegment) :
    (parse? text = none ↔ ¬ ∃ front group back,
        withForwardSlashes text = front ++ (group ++ back) ∧ IsLoneGroup front group back) ∧
      (∀ front group back, withForwardSlashes text = front ++ (group ++ back) →
        IsLoneGroup front group back →
          parse? text = some ⟨Path.normalize (String.ofList group), none⟩) ∧
      (parse? text = none →
        ∀ (inventory : Inventory) (c : FileCategory) (appliesTo : CategorySet) (position : Nat)
          (r : Resolution) (rules : List (ConditionRule × Nat)),
          Resolution.recordRules inventory c r ((⟨text, appliesTo⟩, position) :: rules) =
            Resolution.recordRules inventory c r rules) := by
  have hread {front group back : List Char}
      (htext : withForwardSlashes text = front ++ (group ++ back))
      (hlone : IsLoneGroup front group back) :
      parse? text = some ⟨Path.normalize (String.ofList group), none⟩ :=
    parse?_of_one_group (nonemptyGroups_eq_singleton_iff.mpr ⟨front, back, htext, hlone⟩)
  refine ⟨⟨?_, fun hnone => ?_⟩, fun _ _ _ => hread, fun hparse _ _ _ => ?_⟩
  · rintro hparse ⟨front, group, back, htext, hlone⟩
    rw [hread htext hlone] at hparse
    cases hparse
  · refine parse?_eq_none_of_two_le_count (Nat.le_trans h (count_wildcardSegment_le text))
      fun group hgroup => hnone ?_
    obtain ⟨front, back, htext, hlone⟩ := nonemptyGroups_eq_singleton_iff.mp hgroup
    exact ⟨front, group, back, htext, hlone⟩
  · exact Resolution.recordRules_cons_of_malformed hparse

/-- A formula with two wildcards on different levels is malformed, and its rule is passed over. -/
theorem several_wildcards_malformed_iff_two_levels :
    let inventory := (MemoryInventory.ofAdditions
      [.file "Assets/Units/Orc/Squads/Imp/imp.prefab"]).toInventory
    let rule : ConditionRule := ⟨"Units/*/Squads/*", .ofList [.prefab]⟩
    2 ≤ (Path.split rule.formula).count wildcardSegment ∧ parse? rule.formula = none ∧
      Resolution.recordRules inventory .prefab ⟨.empty, .empty 9⟩ [(rule, 1)] =
        ⟨.empty, .empty 9⟩ := by
  intro inventory rule
  have hcount : 2 ≤ (Path.split rule.formula).count wildcardSegment := by decide +kernel
  have hparse : parse? rule.formula = none := by decide +kernel
  exact ⟨hcount, hparse,
    (several_wildcards_malformed_iff hcount).2.2 hparse inventory .prefab _ 1 _ []⟩

/-- **A doubled slash hides a wildcard.**  Not every formula with several wildcards is malformed:
`Units/*//*` is read as `Units`, so that its rule allows the folders in `Units`. -/
theorem doubled_slash_hides_wildcard :
    (¬ ∀ text, 2 ≤ (Path.split text).count wildcardSegment → parse? text = none) ∧
      (ConditionRule.resolve
          (MemoryInventory.ofAdditions [.file "Assets/Units/Orc/orc.prefab"]).toInventory .prefab
          [⟨"Units/*//*", .ofList [.prefab]⟩] (.empty 9)).allowed.folders =
            ["Assets/Units/Orc"] := by
  refine ⟨fun h => ?_, by decide +kernel⟩
  have hcount : 2 ≤ (Path.split "Units/*//*").count wildcardSegment := by decide +kernel
  have hread : parse? "Units/*//*" = some ⟨"Units", none⟩ := by decide +kernel
  rw [h _ hcount] at hread
  cases hread

/-! ## A wildcard in front -/

/-- How many separators stand in front of a text. -/
def leadingSlashes (text : String) : Nat := (text.toList.takeWhile Path.isSeparator).length

/-- Separators stay separators. -/
theorem length_takeWhile_withForwardSlashes (text : String) :
    ((withForwardSlashes text).takeWhile Path.isSeparator).length = leadingSlashes text := by
  rw [withForwardSlashes, List.takeWhile_map, List.length_map, leadingSlashes]
  congr 2
  exact funext isSeparator_forwardSlash

/-- **The text around a leading wildcard.**  Slashes stand in front of it, and a slash and a text
without wildcards stand behind it. -/
theorem exists_of_leading_wildcard {text : String} {names : List String}
    (hsplit : Path.split text = wildcardSegment :: names) (hne : names ≠ [])
    (hliteral : ∀ name ∈ names, wildcard ∉ name.toList) :
    ∃ rest, withForwardSlashes text =
        List.replicate (leadingSlashes text) '/' ++ wildcard :: '/' :: rest ∧
      wildcard ∉ rest ∧ rest ≠ [] ∧ Path.split (String.ofList rest) = names := by
  rw [← split_withForwardSlashes] at hsplit
  obtain ⟨slashes, tail, htext, hslashes, hhead, hnames⟩ := Path.exists_of_split_eq_cons hsplit
  rw [String.toList_ofList] at htext
  obtain ⟨c, rest, rfl⟩ : ∃ c rest, tail = c :: rest := by
    cases tail with
    | nil => exact absurd hnames.symm hne
    | cons c rest => exact ⟨c, rest, rfl⟩
  have hslash {d : Char} (hd : d ∈ slashes ++ (wildcardSegment.toList ++ c :: rest)) :
      Path.isSeparator d = true → d = '/' := eq_slash_of_mem_withForwardSlashes (htext ▸ hd)
  obtain rfl : c = '/' := hslash (by simp) (hhead c rfl)
  have hrest : Path.split (String.ofList rest) = names := by
    rw [← hnames, Path.split_cons_of_isSeparator (hhead '/' rfl)]
  have hcount : slashes.length = leadingSlashes text := by
    rw [← length_takeWhile_withForwardSlashes, htext, List.takeWhile_append_of_pos hslashes]
    have hstop : (wildcardSegment.toList ++ '/' :: rest).takeWhile Path.isSeparator = [] := rfl
    rw [hstop, List.append_nil]
  refine ⟨rest, ?_, fun hmem => ?_, ?_, hrest⟩
  · have hreplicate : slashes = List.replicate (leadingSlashes text) '/' :=
      List.eq_replicate_iff.mpr ⟨hcount, fun d hd =>
        hslash (List.mem_append_left _ hd) (hslashes d hd)⟩
    rw [htext, hreplicate]
    rfl
  · have hsegments : wildcard ∈ (Path.split (String.ofList rest)).flatMap String.toList := by
      rw [Path.flatMap_toList_split, String.toList_ofList, List.mem_filter]
      exact ⟨hmem, rfl⟩
    rw [hrest, List.mem_flatMap] at hsegments
    obtain ⟨name, hname, hwildcard⟩ := hsegments
    exact hliteral name hname hwildcard
  · rintro rfl
    exact hne hrest.symm

section LeadingWildcard

variable {rest : List Char}

/-- Without a slash in front, the wildcard belongs to no marker. -/
theorem nonemptyGroups_wildcard_slash (hrest : wildcard ∉ rest) :
    nonemptyGroups (wildcard :: '/' :: rest) = [wildcard :: '/' :: rest] := by
  have hnone : ¬ marker <:+: wildcard :: '/' :: rest := by
    rw [List.infix_cons_iff, List.infix_cons_iff]
    rintro (hbegins | hbegins | hinside)
    · exact absurd (List.cons_prefix_cons.mp hbegins).1 (by decide)
    · exact hrest ((List.cons_prefix_cons.mp hbegins).2.subset List.mem_cons_self)
    · exact not_marker_infix_of_notMem hrest hinside
  exact nonemptyGroups_of_no_marker hnone (List.cons_ne_nil _ _)

theorem wildcard_notMem_replicate (n : Nat) : wildcard ∉ List.replicate n '/' := by
  rw [List.mem_replicate]
  exact fun hmem => absurd hmem.2 (by decide)

/-- The slashes in front of a marker are a group of their own. -/
theorem nonemptyGroups_slashes (n : Nat) (hrest : wildcard ∉ rest) (hne : rest ≠ []) :
    nonemptyGroups (List.replicate (n + 2) '/' ++ wildcard :: '/' :: rest) =
      [List.replicate (n + 1) '/', rest] := by
  have hslashes : List.replicate (n + 1) '/' ≠ [] := List.cons_ne_nil _ _
  rw [List.replicate_succ', List.append_assoc, List.singleton_append,
    nonemptyGroups_append_marker_slash (not_marker_infix_of_notMem (wildcard_notMem_replicate _))
      hslashes,
    nonemptyGroups_of_no_marker (not_marker_infix_of_notMem hrest) hne]

/-- Slashes alone name nothing. -/
theorem normalize_replicate_slash (n : Nat) :
    Path.normalize (String.ofList (List.replicate n '/')) = "" := by
  have hseparators : ∀ c ∈ List.replicate n '/', Path.isSeparator c = true := by
    intro c hc
    rw [(List.mem_replicate.mp hc).2]
    rfl
  have hsplit := Path.split_append_of_isSeparator hseparators []
  rw [List.append_nil] at hsplit
  rw [Path.normalize, hsplit]
  rfl

end LeadingWildcard

/-- **What becomes of a leading wildcard.**  Take any text whose names are the wildcard and, behind
it, one or more names without wildcards.  The number of separators in front of the text decides how
it is read:

* with none, the wildcard is a part of the base;
* with one, the names behind the wildcard are the base;
* with two or more, the base is empty and the names behind the wildcard are the suffix. -/
theorem leading_wildcard_read {text : String} {names : List String}
    (hsplit : Path.split text = wildcardSegment :: names) (hne : names ≠ [])
    (hliteral : ∀ name ∈ names, wildcard ∉ name.toList) :
    parse? text =
      match leadingSlashes text with
      | 0 => some ⟨Path.join (wildcardSegment :: names), none⟩
      | 1 => some ⟨Path.join names, none⟩
      | _ => some ⟨"", some (Path.join names)⟩ := by
  obtain ⟨rest, htext, hrest, hnonempty, hnames⟩ := exists_of_leading_wildcard hsplit hne hliteral
  have hjoin : Path.normalize (String.ofList rest) = Path.join names := by
    rw [Path.normalize, hnames]
  have hcount : text.toList.count wildcard ≤ 1 := by
    have hfront := List.count_eq_zero_of_not_mem (wildcard_notMem_replicate (leadingSlashes text))
    have hback := List.count_eq_zero_of_not_mem hrest
    rw [← count_withForwardSlashes, htext, List.count_append, List.count_cons_self,
      List.count_cons_of_ne (by decide)]
    omega
  rcases hslashes : leadingSlashes text with _ | _ | n
  · change parse? text = some ⟨Path.join (wildcardSegment :: names), none⟩
    have hgroups : nonemptyGroups (withForwardSlashes text) = [withForwardSlashes text] := by
      rw [htext, hslashes]
      exact nonemptyGroups_wildcard_slash hrest
    rw [parse?_of_one_group hgroups, normalize_withForwardSlashes, Path.normalize, hsplit]
  · change parse? text = some ⟨Path.join names, none⟩
    have hgroups : nonemptyGroups (withForwardSlashes text) = [rest] := by
      rw [htext, hslashes]
      exact (nonemptyGroups_marker_slash rest).trans
        (nonemptyGroups_of_no_marker (not_marker_infix_of_notMem hrest) hnonempty)
    rw [parse?_of_one_group hgroups, hjoin]
  · change parse? text = some ⟨"", some (Path.join names)⟩
    have hgroups : nonemptyGroups (withForwardSlashes text) =
        [List.replicate (n + 1) '/', rest] := by
      rw [htext, hslashes]
      exact nonemptyGroups_slashes n hrest hnonempty
    rw [parse?_of_two_groups hgroups hcount, hjoin, normalize_replicate_slash]

/-- Two separators in front of the wildcard. -/
theorem leading_wildcard_read_two_slashes :
    Path.split "\\/*/Prefabs/" = [wildcardSegment, "Prefabs"] ∧
      parse? "\\/*/Prefabs/" = some ⟨"", some "Prefabs"⟩ := by
  have hsplit : Path.split "\\/*/Prefabs/" = [wildcardSegment, "Prefabs"] := by decide +kernel
  have hslashes : leadingSlashes "\\/*/Prefabs/" = 2 := by decide +kernel
  have hread := leading_wildcard_read hsplit (List.cons_ne_nil _ _) (by decide)
  rw [hslashes] at hread
  exact ⟨hsplit, hread⟩

/-- **A leading wildcard changes its meaning.**  It is not so that a formula which begins with a
wildcard is either malformed or read with an empty base: `/*/Prefabs` has the base `Prefabs`, and
`*/Prefabs` has the wildcard in its base. -/
theorem leading_wildcard_lost :
    (¬ ∀ text names, Path.split text = wildcardSegment :: names → names ≠ [] →
        (∀ name ∈ names, wildcard ∉ name.toList) →
          parse? text = none ∨ parse? text = some ⟨"", some (Path.join names)⟩) ∧
      parse? "/*/Prefabs" = some ⟨"Prefabs", none⟩ ∧
      parse? "*/Prefabs" = some ⟨"*/Prefabs", none⟩ := by
  have hread : parse? "/*/Prefabs" = some ⟨"Prefabs", none⟩ := by decide +kernel
  refine ⟨fun h => ?_, hread, by decide +kernel⟩
  have hsplit : Path.split "/*/Prefabs" = [wildcardSegment, "Prefabs"] := by decide +kernel
  rcases h _ _ hsplit (List.cons_ne_nil _ _) (by decide) with hnone | hsome
  · rw [hread] at hnone
    cases hnone
  · rw [hread] at hsome
    exact absurd hsome (by decide)

end Formula
end AssetAudit
