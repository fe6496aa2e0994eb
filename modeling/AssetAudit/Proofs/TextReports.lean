import AssetAudit.Proofs.FirstOccurrences
import AssetAudit.Proofs.PrintedText
import Mathlib.Algebra.Ring.Nat
import Mathlib.Data.List.Nodup

/-!
# What a text report shows

A text report goes through the groups of a log, and for each of them through the whole log again, to
print what belongs to the group.  So it rests on two passes that know nothing of each other: one
finds the groups and counts, the other selects.

* `tally` counts in one pass, with a list of the entries met so far and their counts.
  `tally_eq` says what it arrives at, whatever the order of the entries, and
  `ViolationLog.groupCounts_eq_tally` that the counts of a log are such a tally.
* `perm_flatMap_filter`: what is selected for each of different keys makes up the list, if every
  entry has one of these keys.  So the sections of a log divide its entries
  (`ViolationLog.perm_sections`), and their sizes add up to the number of entries.
* `TextReport.printed_eq` is the whole text that is printed: the header, the texts of the sections
  one after the other, and the verdict.
-/

namespace AssetAudit

/-! ## Counting in one pass -/

section Tally

variable {α β : Type} [DecidableEq α]

/-- The counts with one more `a`.  Its count goes up where it stands; if it has none yet, it comes
last. -/
def countOne (a : α) : List (α × Nat) → List (α × Nat)
  | [] => [(a, 1)]
  | (b, n) :: rest => if b = a then (b, n + 1) :: rest else (b, n) :: countOne a rest

/-- How often each entry of a list occurs. -/
def tally (l : List α) : List (α × Nat) := l.foldl (fun counts a => countOne a counts) []

/-- An entry without a count comes last. -/
theorem countOne_map_of_notMem {a : α} {keys : List α} (ha : a ∉ keys) (f : α → Nat) :
    countOne a (keys.map fun b => (b, f b)) = keys.map (fun b => (b, f b)) ++ [(a, 1)] := by
  induction keys with
  | nil => rfl
  | cons b keys ih =>
    rw [List.mem_cons, not_or] at ha
    obtain ⟨hb, hkeys⟩ := ha
    rw [List.map_cons, countOne, if_neg (Ne.symm hb), ih hkeys, List.cons_append]

/-- The count of an entry goes up, and those of the others stay. -/
theorem countOne_map_of_mem {a : α} {keys : List α} (hkeys : keys.Nodup) (ha : a ∈ keys)
    (f : α → Nat) :
    countOne a (keys.map fun b => (b, f b)) =
      keys.map fun b => (b, f b + if b = a then 1 else 0) := by
  induction keys with
  | nil => cases ha
  | cons b keys ih =>
    obtain ⟨hb, hrest⟩ := List.nodup_cons.mp hkeys
    rw [List.map_cons, List.map_cons, countOne]
    by_cases hba : b = a
    · -- Behind the entry itself nothing changes, since it does not occur again.
      have hsame : keys.map (fun c => (c, f c)) =
          keys.map fun c => (c, f c + if c = a then 1 else 0) := by
        refine List.map_congr_left fun c hc => ?_
        have hca : c ≠ a := by
          rintro rfl
          exact hb (hba ▸ hc)
        rw [if_neg hca, Nat.add_zero]
      rw [if_pos hba, if_pos hba, hsame]
    · have hmem : a ∈ keys := (List.mem_cons.mp ha).resolve_left (Ne.symm hba)
      rw [if_neg hba, if_neg hba, Nat.add_zero, ih hrest hmem]

/-- **What counting in one pass arrives at**: the first occurrences in order, each with its
count. -/
theorem tally_eq (l : List α) : tally l = l.eraseDups.map fun a => (a, l.count a) := by
  induction l using List.reverseRecOn with
  | nil => simp [tally]
  | append_singleton l a ih =>
    have hstep : tally (l ++ [a]) = countOne a (tally l) := by
      rw [tally, List.foldl_append]
      rfl
    have hcount (b : α) : (l ++ [a]).count b = l.count b + if b = a then 1 else 0 := by
      rw [List.count_append, List.count_singleton]
      simp only [beq_iff_eq, eq_comm (a := a)]
    rw [hstep, ih, eraseDups_concat]
    simp only [hcount]
    by_cases ha : a ∈ l
    · rw [if_pos ha, countOne_map_of_mem (nodup_eraseDups l) (List.mem_eraseDups.mpr ha)]
    · have hnew : a ∉ l.eraseDups := mt List.mem_eraseDups.mp ha
      have hsame : l.eraseDups.map (fun b => (b, l.count b)) =
          l.eraseDups.map fun b => (b, l.count b + if b = a then 1 else 0) := by
        refine List.map_congr_left fun b hb => ?_
        have hba : b ≠ a := by
          rintro rfl
          exact hnew hb
        rw [if_neg hba, Nat.add_zero]
      rw [if_neg ha, countOne_map_of_notMem hnew, List.map_append, ← hsame, List.map_singleton,
        List.count_eq_zero_of_not_mem ha, if_pos rfl]

/-! ## Selecting by keys -/

/-- **What is selected for each key makes up the list**, if the keys are different and every entry
has one of them. -/
theorem perm_flatMap_filter {key : β → α} {keys : List α} {l : List β} (hkeys : keys.Nodup)
    (h : ∀ b ∈ l, key b ∈ keys) : (keys.flatMap fun a => l.filter (key · == a)).Perm l := by
  induction l with
  | nil => simp
  | cons b l ih =>
    have hl := ih fun c hc => h c (List.mem_cons_of_mem b hc)
    obtain ⟨before, after, hsplit⟩ := List.append_of_mem (h b List.mem_cons_self)
    rw [hsplit, List.nodup_append, List.nodup_cons] at hkeys
    obtain ⟨-, ⟨hafter, -⟩, hbefore⟩ := hkeys
    -- Only the selection for the key of `b` has one entry more than before, and it is `b`.
    have hother {part : List α} (hpart : key b ∉ part) :
        (part.flatMap fun a => (b :: l).filter (key · == a)) =
          part.flatMap fun a => l.filter (key · == a) := by
      refine List.flatMap_congr fun a ha => List.filter_cons_of_neg ?_
      rw [beq_iff_eq]
      rintro rfl
      exact hpart ha
    have hown : (b :: l).filter (key · == key b) = b :: l.filter (key · == key b) :=
      List.filter_cons_of_pos (beq_self_eq_true (key b))
    have hnotMem : key b ∉ before := fun hmem => hbefore _ hmem _ List.mem_cons_self rfl
    rw [hsplit, List.flatMap_append, List.flatMap_cons] at hl
    rw [hsplit, List.flatMap_append, List.flatMap_cons, hother hnotMem, hother hafter, hown,
      List.cons_append]
    exact List.perm_middle.trans (hl.cons b)

end Tally

/-! ## The sections of a log -/

namespace ViolationLog

variable (log : ViolationLog)

/-- The groups of a log, in the order of their first entries. -/
def groups : List ViolationGroup := (log.entries.map Violation.group).eraseDups

/-- The entries of a group, in the order in which they were recorded. -/
def entriesOf (g : ViolationGroup) : List Violation := log.entries.filter (·.group == g)

/-- **The counts of a log** are those of one pass over it. -/
theorem groupCounts_eq_tally : log.groupCounts = tally (log.entries.map Violation.group) := by
  rw [tally_eq]
  rfl

/-- There are as many violations of a group as are selected for it. -/
theorem count_group (g : ViolationGroup) :
    (log.entries.map Violation.group).count g = (log.entriesOf g).length := by
  rw [List.count_eq_length_filter, List.filter_map, List.length_map]
  rfl

theorem groupCounts_eq :
    log.groupCounts = log.groups.map fun g => (g, (log.entriesOf g).length) :=
  List.map_congr_left fun g _ => by rw [count_group]

theorem sections_eq :
    log.sections = log.groups.map fun g => ⟨g, (log.entriesOf g).length, log.entriesOf g⟩ := by
  rw [sections, groupCounts_eq, List.map_map]
  rfl

theorem nodup_groups : log.groups.Nodup := nodup_eraseDups _

/-- Every recorded violation has a section for its group. -/
theorem group_mem_groups {v : Violation} (h : v ∈ log.entries) : v.group ∈ log.groups :=
  List.mem_eraseDups.mpr (List.mem_map_of_mem h)

/-- A group has a section only if a violation of it is recorded. -/
theorem entriesOf_ne_nil {g : ViolationGroup} (h : g ∈ log.groups) : log.entriesOf g ≠ [] := by
  obtain ⟨v, hv, rfl⟩ := List.mem_map.mp (List.mem_eraseDups.mp h)
  exact List.ne_nil_of_mem (List.mem_filter.mpr ⟨hv, beq_self_eq_true v.group⟩)

/-- **The sections divide the entries.** -/
theorem perm_sections : (log.sections.flatMap ReportSection.entries).Perm log.entries := by
  rw [sections_eq, List.flatMap_map]
  exact perm_flatMap_filter log.nodup_groups fun v hv => log.group_mem_groups hv

/-- Every group has one count. -/
theorem map_fst_groupCounts : log.groupCounts.map Prod.fst = log.groups := by
  rw [groupCounts_eq, List.map_map]
  exact List.map_id _

/-- **What is counted**: the groups of which there is a violation, with the number of their
violations. -/
theorem mem_groupCounts_iff {g : ViolationGroup} {n : Nat} :
    (g, n) ∈ log.groupCounts ↔ 0 < n ∧ n = (log.entriesOf g).length := by
  rw [groupCounts_eq, List.mem_map]
  constructor
  · rintro ⟨g', hg, heq⟩
    obtain ⟨rfl, rfl⟩ := Prod.mk.inj heq
    exact ⟨List.length_pos_iff.mpr (log.entriesOf_ne_nil hg), rfl⟩
  · rintro ⟨hpos, rfl⟩
    obtain ⟨v, hv⟩ := List.exists_mem_of_length_pos hpos
    obtain ⟨hmem, hgroup⟩ := List.mem_filter.mp hv
    rw [beq_iff_eq] at hgroup
    exact ⟨g, hgroup ▸ log.group_mem_groups hmem, rfl⟩

/-- The counts of the groups add up to the number of entries. -/
theorem sum_groupCounts : (log.groupCounts.map Prod.snd).sum = log.count := by
  have hlength := log.perm_sections.length_eq
  rw [sections_eq, List.flatMap_map, List.length_flatMap] at hlength
  rw [groupCounts_eq, List.map_map]
  exact hlength

/-- A section belongs to a group that occurs. -/
theorem mem_sections_iff {s : ReportSection} :
    s ∈ log.sections ↔ s.group ∈ log.groups ∧ s.count = (log.entriesOf s.group).length ∧
      s.entries = log.entriesOf s.group := by
  rw [sections_eq, List.mem_map]
  constructor
  · rintro ⟨g, hg, rfl⟩
    exact ⟨hg, rfl, rfl⟩
  · rintro ⟨hg, hcount, hentries⟩
    refine ⟨s.group, hg, ?_⟩
    rw [← hcount, ← hentries]

/-- **A recorded violation stands in one section**, and there once. -/
theorem exists_section {v : Violation} (h : v ∈ log.entries) :
    ∃ s ∈ log.sections, s.group = v.group ∧ s.entries.count v = 1 ∧
      ∀ s' ∈ log.sections, v ∈ s'.entries → s' = s := by
  have hown : v ∈ log.entriesOf v.group := List.mem_filter.mpr ⟨h, beq_self_eq_true v.group⟩
  have honce : (log.entriesOf v.group).count v = 1 :=
    List.count_eq_one_of_mem (log.distinct.filter _) hown
  refine ⟨⟨v.group, (log.entriesOf v.group).length, log.entriesOf v.group⟩,
    log.mem_sections_iff.mpr ⟨log.group_mem_groups h, rfl, rfl⟩, rfl, honce, fun s' hs' hv => ?_⟩
  obtain ⟨-, hcount, hentries⟩ := log.mem_sections_iff.mp hs'
  rw [hentries] at hv
  have hgroup : v.group = s'.group := beq_iff_eq.mp (List.mem_filter.mp hv).2
  obtain ⟨g, n, vs⟩ := s'
  obtain rfl : v.group = g := hgroup
  rw [ReportSection.mk.injEq]
  exact ⟨rfl, hcount, hentries⟩

end ViolationLog

/-! ## The printed report -/

namespace TextReport

/-- Whoever has passed has no sections. -/
theorem sections_eq_nil_of_hasPassed {log : ViolationLog} (h : log.hasPassed = true) :
    log.sections = [] := by
  rw [ViolationLog.hasPassed, Bool.and_eq_true] at h
  have hnone : log.entries = [] := List.isEmpty_iff.mp h.1
  rw [log.sections_eq, ViolationLog.groups, hnone]
  rfl

/-- **What is printed**: the header, the sections, and the verdict behind a blank line. -/
theorem printed_eq (colour : Bool) (project : String) (log : ViolationLog) (milliseconds : Nat) :
    Line.renderAll colour (lines project log milliseconds) =
      headerText colour project ++ String.join (log.sections.map (sectionText colour)) ++ "\n" ++
        if log.hasPassed then passedText colour milliseconds
        else failedText colour log milliseconds := by
  rw [renderAll_lines]
  split
  · next hpassed =>
    rw [sections_eq_nil_of_hasPassed hpassed, List.map_nil, String.join_nil, String.append_empty,
      String.append_assoc]
  · simp only [String.append_assoc]

/-- **A text report shows every violation once.**  Take any log, with its entries in any order.

* The counts of the groups are what one pass over the log arrives at.  They name every group once,
  in the order of the first entries, each with the number of its entries, which is not zero; and
  they add up to the number of all entries.
* What is printed is the header, the texts of the sections one after the other, and the verdict.
  There is one section for each count, in this order.  Its text is a heading with the name of the
  group and the count, and below it the texts of the entries of the group, in recorded order; there
  are as many of them as the heading says.
* All sections together have the entries of the log, each entry in one section and there once, and
  that is the section of its group. -/
theorem lists_every_violation_once (project : String) (log : ViolationLog) (milliseconds : Nat) :
    let groups := log.entries.map Violation.group
    (log.groupCounts = tally groups ∧
      (log.groupCounts.map Prod.fst).Nodup ∧
      (log.groupCounts.map Prod.fst).Pairwise (fun g g' => groups.idxOf g < groups.idxOf g') ∧
      (∀ g n, (g, n) ∈ log.groupCounts ↔ 0 < n ∧ n = log.entries.countP (·.group == g)) ∧
      (log.groupCounts.map Prod.snd).sum = log.count) ∧
    (∀ colour, Line.renderAll colour (lines project log milliseconds) =
        headerText colour project ++
          String.join (log.sections.map fun s =>
            "\n" ++
              styled colour "1;31" (s.group.label ++ " (" ++ toString s.count ++ ")") ++ "\n" ++
              String.join (s.entries.map (violationText colour))) ++ "\n" ++
          if log.hasPassed then passedText colour milliseconds
          else failedText colour log milliseconds) ∧
    (log.sections.map (fun s => (s.group, s.count)) = log.groupCounts ∧
      ∀ s ∈ log.sections,
        s.entries = log.entries.filter (·.group == s.group) ∧ s.entries.length = s.count) ∧
    (log.sections.flatMap ReportSection.entries).Perm log.entries ∧
    ∀ v ∈ log.entries, ∃ s ∈ log.sections, s.group = v.group ∧ s.entries.count v = 1 ∧
      ∀ s' ∈ log.sections, v ∈ s'.entries → s' = s := by
  intro groups
  refine ⟨⟨log.groupCounts_eq_tally, ?_, ?_, fun g n => ?_, log.sum_groupCounts⟩,
    fun colour => printed_eq colour project log milliseconds, ⟨?_, fun s hs => ?_⟩,
    log.perm_sections, fun v hv => log.exists_section hv⟩
  · rw [log.map_fst_groupCounts]
    exact log.nodup_groups
  · rw [log.map_fst_groupCounts]
    exact pairwise_idxOf_eraseDups groups
  · rw [List.countP_eq_length_filter]
    exact log.mem_groupCounts_iff
  · rw [log.sections_eq, log.groupCounts_eq, List.map_map]
    rfl
  · obtain ⟨-, hcount, hentries⟩ := log.mem_sections_iff.mp hs
    exact ⟨hentries, by rw [hcount, hentries]⟩

/-- Three violations of two groups.  The second is of another group than the first and the third,
which stand below one heading. -/
theorem lists_every_violation_once_interleaved :
    let axe : Violation := ⟨.prefabName, .prefab, "axe.prefab", "Assets/Prefabs", "Axe"⟩
    let shield : Violation := ⟨.prefabLocation, .prefab, "Shield.prefab", "Assets/Weapons", ""⟩
    let bow : Violation := ⟨.prefabName, .prefab, "bow.prefab", "Assets/Prefabs", "Bow"⟩
    let log := (ViolationLog.empty 3).addAll [axe, shield, bow]
    log.groupCounts = [(.wrongName, 2), (.wrongLocation, 1)] ∧
      Line.renderAll false (lines "Game" log 0) =
        "Scanning: Game\n" ++
          "\nWRONG NAME (2)\n" ++
          "  x [Prefab] Assets/Prefabs/axe.prefab\n" ++ "      expected: Axe\n" ++
          "  x [Prefab] Assets/Prefabs/bow.prefab\n" ++ "      expected: Bow\n" ++
          "\nWRONG LOCATION (1)\n" ++
          "  x [Prefab] Assets/Weapons/Shield.prefab\n" ++
          "\nFAILED 3 violation(s) in 0 ms, limit reached\n" ∧
      ∃ s ∈ log.sections, s.group = .wrongLocation ∧ s.entries.count shield = 1 ∧
        ∀ s' ∈ log.sections, shield ∈ s'.entries → s' = s := by
  intro axe shield bow log
  have hsections : log.sections =
      [⟨.wrongName, 2, [axe, bow]⟩, ⟨.wrongLocation, 1, [shield]⟩] := by decide
  have hshield : shield ∈ log.entries := by decide
  have hverdict : log.hasPassed = false := by decide
  obtain ⟨-, hprinted, ⟨hcounts, -⟩, -, honce⟩ := lists_every_violation_once "Game" log 0
  have hprinted := hprinted false
  rw [hsections, hverdict] at hprinted
  rw [hsections] at hcounts
  refine ⟨hcounts.symm, hprinted.trans (by decide +kernel), honce shield hshield⟩

end TextReport
end AssetAudit
