import AssetAudit.Proofs.FormulaText

/-!
# Formulas by their segments

An author thinks of a formula as a list of names with one wildcard among them, and may write any
slashes between, before and behind these names.  `Formula.parse?` reads a text, and takes different
turns for a marker at the end, a marker with nothing but slashes behind it, and doubled slashes.
Here all of them are seen to name the same folders.

* `exists_of_only_wildcard`: where the wildcard stands in the text.  The slash in front of it
  completes the marker, and what stands on either side are texts without wildcards that have the
  names before it and behind it.
* `exists_parse?_of_only_wildcard`: whichever turn the reading takes, the base is made of the names
  before the wildcard, and in every subfolder the names behind it are looked for.
* `length_groups_add_count`: markers use up wildcards, so there is one group more than there are
  wildcards outside of the groups.  Conversely, therefore, a suffix is only ever read off a text
  with one wildcard.
-/

namespace AssetAudit

open AssetAudit.Path (IsSegment)

namespace Formula

/-! ## The text around a wildcard -/

/-- A character other than a slash that is in the text is in one of the names. -/
theorem exists_mem_split_of_mem {text : String} {c : Char} (hc : c ∈ text.toList)
    (hkept : Path.isSeparator c = false) : ∃ name ∈ Path.split text, c ∈ name.toList := by
  have hmem : c ∈ (Path.split text).flatMap String.toList := by
    rw [Path.flatMap_toList_split, List.mem_filter]
    exact ⟨hc, by simp [hkept]⟩
  exact List.mem_flatMap.mp hmem

/-- A text whose names hold no wildcard holds none. -/
theorem wildcard_notMem_of_split {text : String}
    (h : ∀ name ∈ Path.split text, wildcard ∉ name.toList) :
    wildcard ∉ text.toList := by
  intro hmem
  obtain ⟨name, hname, hwildcard⟩ := exists_mem_split_of_mem hmem rfl
  exact h name hname hwildcard

/-- Canonical text holds a wildcard only if the text does. -/
theorem wildcard_notMem_normalize {text : String} (h : wildcard ∉ text.toList) :
    wildcard ∉ (Path.normalize text).toList := by
  refine wildcard_notMem_join fun name hname =>
    ⟨Path.isSegment_of_mem_split hname, fun hmem => h ?_⟩
  have hall : wildcard ∈ (Path.split text).flatMap String.toList :=
    List.mem_flatMap_of_mem hname hmem
  rw [Path.flatMap_toList_split] at hall
  exact (List.mem_filter.mp hall).1

/-- A separator behind a path does not count. -/
theorem split_append_separator (front : List Char) :
    Path.split (String.ofList (front ++ ['/'])) = Path.split (String.ofList front) := by
  have htext : String.ofList (front ++ ['/']) = String.ofList front ++ "/" ++ "" := by
    rw [String.append_empty, String.ofList_append]
  rw [htext, Path.split_append_slash, Path.split_empty, List.append_nil]

/-- **Where the only wildcard stands.**  A slash stands in front of it, and behind it another slash
or nothing at all. -/
theorem exists_of_only_wildcard {text : String} {base suffix : List String}
    (hsplit : Path.split text = base ++ wildcardSegment :: suffix) (hbase : base ≠ [])
    (hliteral : ∀ name ∈ base ++ suffix, wildcard ∉ name.toList) :
    ∃ front back, withForwardSlashes text = front ++ '/' :: wildcard :: back ∧
      (∀ c ∈ back.head?, c = '/') ∧ wildcard ∉ front ∧ wildcard ∉ back ∧
      Path.split (String.ofList front) = base ∧ Path.split (String.ofList back) = suffix := by
  rw [← split_withForwardSlashes] at hsplit
  obtain ⟨front, back, htext, hlast, hhead, hfront, hback⟩ :=
    Path.exists_of_split_eq_append_cons hsplit
  rw [String.toList_ofList] at htext
  have hslash {c : Char} (hc : c ∈ front ∨ c ∈ back) (hseparator : Path.isSeparator c = true) :
      c = '/' := by
    have hmem : c ∈ withForwardSlashes text := by
      rw [htext, List.mem_append, List.mem_append]
      exact hc.imp_right .inr
    exact eq_slash_of_mem_withForwardSlashes hmem hseparator
  have hnone {part : List Char}
      (h : ∀ name ∈ Path.split (String.ofList part), name ∈ base ++ suffix) :
      wildcard ∉ part := by
    rw [← String.toList_ofList (l := part)]
    exact wildcard_notMem_of_split fun name hname => hliteral name (h name hname)
  -- The base has names, so there is a character in front of the wildcard.
  have hne : front ≠ [] := by
    rintro rfl
    exact hbase hfront.symm
  obtain ⟨c, hend⟩ : ∃ c, front.getLast? = some c := ⟨_, List.getLast?_eq_some_getLast hne⟩
  obtain rfl : c = '/' := hslash (.inl (List.mem_of_getLast? hend)) (hlast c hend)
  obtain ⟨front, rfl⟩ := List.getLast?_eq_some_iff.mp hend
  rw [split_append_separator] at hfront
  refine ⟨front, back, ?_, fun c hc => hslash (.inr (List.mem_of_head? hc)) (hhead c hc), ?_, ?_,
    hfront, hback⟩
  · rw [htext, List.append_assoc]
    rfl
  · exact hnone fun name hname => List.mem_append_left _ (hfront ▸ hname)
  · exact hnone fun name hname => List.mem_append_right _ (hback ▸ hname)

/-! ## Reading it -/

/-- The folder that is named in a subfolder, by segments. -/
theorem normalize_target_some (base suffix subfolder : String) :
    Path.normalize ((Formula.mk base (some suffix)).target subfolder) =
      Path.join (Path.split subfolder ++ Path.split suffix) := by
  rw [target_some, Path.normalize, Path.split_append_slash]

/-- **A formula with one wildcard is read by its segments.** -/
theorem exists_parse?_of_only_wildcard {text : String} {base suffix : List String}
    (hsplit : Path.split text = base ++ wildcardSegment :: suffix) (hbase : base ≠ [])
    (hliteral : ∀ name ∈ base ++ suffix, wildcard ∉ name.toList) :
    ∃ f, parse? text = some f ∧ f.base = Path.join base ∧
      ∀ subfolder, Path.normalize (f.target subfolder) =
        Path.join (Path.split subfolder ++ suffix) := by
  obtain ⟨front, back, htext, hhead, hfree, hfree', rfl, rfl⟩ :=
    exists_of_only_wildcard hsplit hbase hliteral
  have hnone := not_marker_infix_of_notMem hfree
  have hfront : front ≠ [] := by
    rintro rfl
    exact hbase rfl
  -- Without a suffix, the folder is the subfolder itself.
  have hwhole (h : Path.split (String.ofList back) = []) (subfolder : String) :
      Path.normalize subfolder =
        Path.join (Path.split subfolder ++ Path.split (String.ofList back)) := by
    rw [h, List.append_nil]
    rfl
  cases back with
  | nil =>
    have hgroups : nonemptyGroups (withForwardSlashes text) = [front] := by
      rw [htext]
      exact nonemptyGroups_append_marker hnone hfront
    exact ⟨_, parse?_of_one_group hgroups, rfl, hwhole rfl⟩
  | cons c rest =>
    obtain rfl : c = '/' := hhead c rfl
    have hrest : Path.split (String.ofList ('/' :: rest)) = Path.split (String.ofList rest) :=
      Path.split_cons_of_isSeparator rfl rest
    have hgroups : nonemptyGroups (withForwardSlashes text) = front :: nonemptyGroups rest := by
      rw [htext]
      exact nonemptyGroups_append_marker_slash hnone hfront rest
    cases rest with
    | nil => exact ⟨_, parse?_of_one_group hgroups, rfl, hwhole hrest⟩
    | cons d rest =>
      have hfree' : wildcard ∉ d :: rest := fun hmem => hfree' (List.mem_cons_of_mem _ hmem)
      rw [nonemptyGroups_of_no_marker (not_marker_infix_of_notMem hfree') (List.cons_ne_nil _ _)]
        at hgroups
      have hcount : text.toList.count wildcard = 1 := by
        rw [← count_withForwardSlashes, htext, List.count_append,
          List.count_eq_zero_of_not_mem hfree, List.count_cons_of_ne (by decide),
          List.count_cons_self, List.count_cons_of_ne (by decide),
          List.count_eq_zero_of_not_mem hfree']
      refine ⟨_, parse?_of_two_groups hgroups (Nat.le_of_eq hcount), rfl, fun subfolder => ?_⟩
      rw [normalize_target_some, Path.split_normalize, hrest]

/-- **A formula without wildcards is a base.** -/
theorem parse?_of_no_wildcard {text : String} (hne : Path.split text ≠ [])
    (hliteral : ∀ name ∈ Path.split text, wildcard ∉ name.toList) :
    parse? text = some ⟨Path.normalize text, none⟩ := by
  have hnonempty : text ≠ "" := by
    rintro rfl
    exact hne Path.split_empty
  have hgroups : nonemptyGroups (withForwardSlashes text) = [withForwardSlashes text] :=
    nonemptyGroups_of_no_marker
      (not_marker_infix_withForwardSlashes (wildcard_notMem_of_split hliteral))
      (mt withForwardSlashes_eq_nil_iff.mp hnonempty)
  rw [parse?_of_one_group hgroups, normalize_withForwardSlashes]

/-! ## What a suffix says about the text -/

/-- **Markers use up wildcards.**  A text has as many wildcards as it has cuts and its groups have
wildcards. -/
theorem length_groups_add_count (text : List Char) :
    (groups text).length + (groups text).flatten.count wildcard = text.count wildcard + 1 := by
  fun_induction groups text with
  | case1 => rfl
  | case2 rest ih =>
    have hcount : ('/' :: '*' :: '/' :: rest).count wildcard = rest.count wildcard + 1 := by
      simp [wildcard]
    rw [hcount, List.length_cons, List.flatten_cons, List.nil_append]
    omega
  | case3 rest hrest ih =>
    have hcount : ('/' :: '*' :: rest).count wildcard = rest.count wildcard + 1 := by
      simp [wildcard]
    rw [hcount, List.length_cons, List.flatten_cons, List.nil_append]
    omega
  | case4 c rest _ _ ih =>
    obtain ⟨first, others, hgroups⟩ := List.exists_cons_of_ne_nil (groups_ne_nil rest)
    rw [hgroups] at ih ⊢
    rw [List.modifyHead_cons, List.flatten_cons, List.cons_append, List.length_cons,
      List.count_cons, List.count_cons]
    rw [List.flatten_cons, List.length_cons] at ih
    omega

/-- What is read off a text with a suffix. -/
theorem exists_groups_of_suffix {text base suffix : String}
    (h : parse? text = some ⟨base, some suffix⟩) :
    ∃ front back, nonemptyGroups (withForwardSlashes text) = [front, back] ∧
      text.toList.count wildcard ≤ 1 ∧ base = Path.normalize (String.ofList front) ∧
      suffix = Path.normalize (String.ofList back) := by
  rw [parse?] at h
  split at h
  · cases h
  · next front back hgroups =>
    split at h
    · next hcount =>
      cases h
      exact ⟨front, back, hgroups, hcount, rfl, rfl⟩
    · cases h
  · cases h

/-- **A suffix belongs to the only wildcard of the text.** -/
theorem wildcard_of_suffix {text base suffix : String}
    (h : parse? text = some ⟨base, some suffix⟩) :
    text.toList.count wildcard = 1 ∧ wildcard ∉ base.toList ∧ wildcard ∉ suffix.toList := by
  obtain ⟨front, back, hgroups, hcount, rfl, rfl⟩ := exists_groups_of_suffix h
  have htotal := length_groups_add_count (withForwardSlashes text)
  rw [count_withForwardSlashes] at htotal
  -- Two groups are left, so there was a marker, and it has used up the wildcard.
  have hsublist : [front, back].Sublist (groups (withForwardSlashes text)) := by
    rw [← hgroups]
    exact List.filter_sublist
  have hlength : 2 ≤ (groups (withForwardSlashes text)).length := hsublist.length_le
  have hfree : wildcard ∉ (groups (withForwardSlashes text)).flatten := by
    rw [← List.count_eq_zero]
    omega
  have hgroup {group : List Char} (hgroup : group ∈ [front, back]) :
      wildcard ∉ (Path.normalize (String.ofList group)).toList := by
    refine wildcard_notMem_normalize ?_
    rw [String.toList_ofList]
    exact fun hmem => hfree (List.mem_flatten_of_mem (hsublist.subset hgroup) hmem)
  exact ⟨by omega, hgroup (by simp), hgroup (by simp)⟩

/-! ## The reading of every formula -/

/-- **Formulas are read by their segments.**  Take any text, with slashes of either kind, repeated,
or at its ends.

* If its names are one or more names, the wildcard, and further names, and no name but the wildcard
  holds a wildcard, then the text is read; the base is made of the names before the wildcard, and
  the folder that is named in any subfolder has the names of the subfolder followed by those behind
  the wildcard.
* If it has names and none of them holds a wildcard, then it is read as the base with these names,
  and the folder that is named in a subfolder is the subfolder.
* Whenever a text is read with a suffix, it holds exactly one wildcard, and base and suffix are
  canonical texts without wildcards. -/
theorem parse?_by_segments (text : String) :
    (∀ base suffix, Path.split text = base ++ wildcardSegment :: suffix → base ≠ [] →
        (∀ name ∈ base ++ suffix, wildcard ∉ name.toList) →
          ∃ f, parse? text = some f ∧ f.base = Path.join base ∧
            ∀ subfolder, Path.normalize (f.target subfolder) =
              Path.join (Path.split subfolder ++ suffix)) ∧
      (Path.split text ≠ [] → (∀ name ∈ Path.split text, wildcard ∉ name.toList) →
        ∃ f, parse? text = some f ∧ f.base = Path.join (Path.split text) ∧
          ∀ subfolder, f.target subfolder = subfolder) ∧
      ∀ base suffix, parse? text = some ⟨base, some suffix⟩ →
        text.toList.count wildcard = 1 ∧ wildcard ∉ base.toList ∧ wildcard ∉ suffix.toList ∧
          Path.normalize base = base ∧ Path.normalize suffix = suffix := by
  refine ⟨fun base suffix => exists_parse?_of_only_wildcard, fun hne hliteral => ?_,
    fun base suffix h => ?_⟩
  · exact ⟨_, parse?_of_no_wildcard hne hliteral, rfl, fun _ => rfl⟩
  · obtain ⟨hcount, hbase, hsuffix⟩ := wildcard_of_suffix h
    obtain ⟨front, back, -, -, rfl, rfl⟩ := exists_groups_of_suffix h
    exact ⟨hcount, hbase, hsuffix, Path.normalize_normalize _, Path.normalize_normalize _⟩

/-- A formula with slashes of both kinds, several of them, and some at either end. -/
theorem parse?_by_segments_mixed_slashes :
    Path.split "\\Units//Elves\\*/\\Prefabs/" =
        ["Units", "Elves"] ++ wildcardSegment :: ["Prefabs"] ∧
      (∃ f, parse? "\\Units//Elves\\*/\\Prefabs/" = some f ∧ f.base = "Units/Elves" ∧
        Path.normalize (f.target "Assets\\Units/Elves/Dale") = "Assets/Units/Elves/Dale/Prefabs") ∧
      (∃ f, parse? "\\Units//Elves\\" = some f ∧ f.base = "Units/Elves" ∧
        f.target "Assets\\Units" = "Assets\\Units") ∧
      parse? "Units/*abc" = some ⟨"Units", some "abc"⟩ ∧
      "Units/*abc".toList.count wildcard = 1 := by
  have hsplit : Path.split "\\Units//Elves\\*/\\Prefabs/" =
      ["Units", "Elves"] ++ wildcardSegment :: ["Prefabs"] := by decide +kernel
  have hsplit' : Path.split "\\Units//Elves\\" = ["Units", "Elves"] := by decide +kernel
  have hsuffix : parse? "Units/*abc" = some ⟨"Units", some "abc"⟩ := by decide +kernel
  have hsubfolder :
      Path.split "Assets\\Units/Elves/Dale" = ["Assets", "Units", "Elves", "Dale"] := by
    decide +kernel
  obtain ⟨f, hf, hbase, htarget⟩ :=
    (parse?_by_segments _).1 _ _ hsplit (by decide) (by decide +kernel)
  obtain ⟨g, hg, hbase', htarget'⟩ :=
    (parse?_by_segments "\\Units//Elves\\").2.1 (by rw [hsplit']; decide)
      (by rw [hsplit']; decide +kernel)
  rw [hsplit'] at hbase'
  refine ⟨hsplit, ⟨f, hf, hbase, ?_⟩, ⟨g, hg, hbase', htarget' _⟩, hsuffix,
    ((parse?_by_segments _).2.2 _ _ hsuffix).1⟩
  rw [htarget, hsubfolder]
  rfl

end Formula
end AssetAudit
