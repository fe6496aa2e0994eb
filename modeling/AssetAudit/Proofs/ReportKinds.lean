import AssetAudit.Scan.Complete
import Mathlib.Data.List.Nodup

/-!
# Which check a report comes from

Every check has kinds of violations of its own, so the part that one check has in the reports of a
scan can be found again by looking at the kinds.

* `ViolationKind.fileCategory?` is the category whose assets a kind is about; it belongs to a
  location or a naming error of that category and to nothing else
  (`ViolationKind.fileCategory?_eq_some_iff`).
* `Scan.kind_of_mem_specialFolderReports` and its neighbours give the kinds of each part.
* `Scan.mem_reports_iff_of_group` says where reports on names and places come from, and
  `Scan.filter_reports_of_kind` what a selection of kinds leaves of each part.
* `Scan.filter_reports_eq_specialFolderReports`, `Scan.filter_reports_eq_folderReports` and
  `Scan.filter_reports_eq_assetReports`: the reports of a check are those of its kinds, in their
  order.
-/

namespace AssetAudit

namespace ViolationKind

/-- The category whose assets violations of this kind are about, if it is about assets. -/
def fileCategory? : ViolationKind → Option FileCategory
  | .folderName | .specialFolderMissing | .folderWithoutAssets | .folderInvalid => none
  | .prefabName | .prefabLocation => some .prefab
  | .scriptName | .scriptLocation => some .script
  | .textureName | .textureLocation => some .texture
  | .sceneName | .sceneLocation => some .scene
  | .soundName | .soundLocation => some .sound
  | .modelName | .modelLocation => some .model
  | .materialName | .materialLocation => some .material
  | .animationName | .animationLocation => some .animation

@[simp] theorem fileCategory?_location (c : FileCategory) :
    (location c).fileCategory? = some c := by
  cases c <;> rfl

@[simp] theorem fileCategory?_naming (c : FileCategory) :
    (naming c.toCategory).fileCategory? = some c := by
  cases c <;> rfl

/-- A location error is no naming error. -/
theorem location_ne_naming (c : FileCategory) : location c ≠ naming c.toCategory := by
  cases c <;> decide

/-- **The kinds of a category** are its location error and its naming error. -/
theorem fileCategory?_eq_some_iff {k : ViolationKind} {c : FileCategory} :
    k.fileCategory? = some c ↔ k = location c ∨ k = naming c.toCategory := by
  cases k <;> cases c <;> decide

end ViolationKind

/-- If only one member of a list contributes to a selection, the selection is made from it alone. -/
theorem filter_flatMap_of_unique {α β : Type} {l : List α} (hnodup : l.Nodup) {a : α} (ha : a ∈ l)
    {f : α → List β} {p : β → Bool} (hother : ∀ b, b ≠ a → (f b).filter p = []) :
    (l.flatMap f).filter p = (f a).filter p := by
  obtain ⟨before, after, rfl⟩ := List.append_of_mem ha
  obtain ⟨-, hcons, hdisjoint⟩ := List.nodup_append.mp hnodup
  have hbefore : before.flatMap (fun b => (f b).filter p) = [] :=
    List.flatMap_eq_nil_iff.mpr fun b hb => hother b (hdisjoint b hb a List.mem_cons_self)
  have hafter : after.flatMap (fun b => (f b).filter p) = [] := by
    refine List.flatMap_eq_nil_iff.mpr fun b hb => hother b ?_
    rintro rfl
    exact (List.nodup_cons.mp hcons).1 hb
  rw [List.filter_flatMap, List.flatMap_append, List.flatMap_cons, hbefore, hafter, List.nil_append,
    List.append_nil]

namespace Scan

variable {scan : Scan} {v : Violation}

/-! ## The kinds of each check -/

theorem kind_of_mem_specialFolderReports (h : v ∈ scan.specialFolderReports) :
    v.kind = .specialFolderMissing := by
  unfold specialFolderReports at h
  split at h
  · obtain ⟨row, -, hv⟩ := List.mem_flatMap.mp h
    simp only [reportOnSpecialFolder] at hv
    split at hv
    · simp at hv
    · rw [List.mem_singleton.mp hv]
  · simp at h

theorem kind_of_mem_folderReports (h : v ∈ scan.folderReports) : v.kind = .folderName := by
  unfold folderReports at h
  split at h
  · obtain ⟨folder, -, hv⟩ := List.mem_flatMap.mp h
    simp only [reportOnFolder] at hv
    split at hv
    · simp at hv
    · rw [List.mem_singleton.mp hv]
  · simp at h

/-- What a rule reports is a missing folder or a folder without assets. -/
theorem kind_of_violated_mem_findings {inventory : Inventory} {c : FileCategory} {position : Nat}
    {rule : ConditionRule} (h : .violated v ∈ rule.findings inventory c position) :
    v.kind = .folderInvalid ∨ v.kind = .folderWithoutAssets := by
  have hinspect {folder : String}
      (hv : .violated v = ConditionRule.inspect inventory c folder) :
      v.kind = .folderInvalid ∨ v.kind = .folderWithoutAssets := by
    unfold ConditionRule.inspect at hv
    split at hv
    · exact .inr (by rw [ConditionFinding.violated.inj hv]; rfl)
    · exact absurd hv nofun
  have hinvalid {folder : String}
      (hv : .violated v = ConditionFinding.violated (rule.invalidFolder position folder)) :
      v.kind = .folderInvalid ∨ v.kind = .folderWithoutAssets :=
    .inl (by rw [ConditionFinding.violated.inj hv]; rfl)
  unfold ConditionRule.findings at h
  split at h
  · split at h
    · simp at h
    · next formula _ =>
      simp only at h
      split at h
      · split at h
        · exact hinspect (List.mem_singleton.mp h)
        · obtain ⟨subfolder, -, hv⟩ := List.mem_map.mp h
          split at hv
          · exact hinspect hv.symm
          · exact hinvalid hv.symm
      · exact hinvalid (List.mem_singleton.mp h)
  · simp at h

theorem kind_of_mem_conditionReports {c : FileCategory} (h : v ∈ scan.conditionReports c) :
    v.kind = .folderInvalid ∨ v.kind = .folderWithoutAssets := by
  obtain ⟨finding, hfinding, hv⟩ := List.mem_filterMap.mp h
  cases finding with
  | allowed folder => exact absurd hv nofun
  | violated w =>
    obtain rfl : w = v := Option.some.inj hv
    unfold conditionFindings at hfinding
    split at hfinding
    · obtain ⟨⟨rule, position⟩, -, hfinding⟩ := List.mem_flatMap.mp hfinding
      exact kind_of_violated_mem_findings hfinding
    · simp at hfinding

theorem kind_of_mem_assetReports {c : FileCategory} (h : v ∈ scan.assetReports c) :
    v.kind = .location c ∨ v.kind = .naming c.toCategory := by
  obtain ⟨asset, -, hv⟩ := List.mem_flatMap.mp h
  simp only [reportOnAsset] at hv
  split at hv
  · simp at hv
  · rcases List.mem_append.mp hv with hv | hv
    · split at hv
      · simp at hv
      · exact .inl (by rw [List.mem_singleton.mp hv])
    · split at hv
      · simp at hv
      · exact .inr (by rw [List.mem_singleton.mp hv])

/-! ## Names and places -/

/-- **Reports on names and places** come from the names of folders and from the assets. -/
theorem mem_reports_iff_of_group (hgroup : v.group = .wrongName ∨ v.group = .wrongLocation) :
    v ∈ scan.reports ↔ v ∈ scan.folderReports ∨ ∃ c ∈ scan.categories, v ∈ scan.assetReports c := by
  rw [reports, List.mem_append, List.mem_append, List.mem_flatMap]
  constructor
  · intro h
    obtain (h | h) | ⟨c, hc, h⟩ := h
    · rw [Violation.group, kind_of_mem_specialFolderReports h] at hgroup
      simp [ViolationKind.group] at hgroup
    · exact .inl h
    · rcases List.mem_append.mp h with h | h
      · rcases kind_of_mem_conditionReports h with hkind | hkind <;>
          simp [Violation.group, hkind, ViolationKind.group] at hgroup
      · exact .inr ⟨c, hc, h⟩
  · intro h
    obtain h | ⟨c, hc, h⟩ := h
    · exact .inl (.inr h)
    · exact .inr ⟨c, hc, List.mem_append_right _ h⟩

/-- **Selecting kinds.**  The special folders and the names of folders are selected as a whole or
not at all. -/
theorem filter_reports_of_kind (scan : Scan) (selected : ViolationKind → Bool) :
    scan.reports.filter (fun v => selected v.kind) =
      (if selected .specialFolderMissing then scan.specialFolderReports else []) ++
        (if selected .folderName then scan.folderReports else []) ++
        scan.categories.flatMap fun c =>
          (scan.conditionReports c).filter (fun v => selected v.kind) ++
            (scan.assetReports c).filter fun v => selected v.kind := by
  have hwhole {l : List Violation} {k : ViolationKind} (hkind : ∀ v ∈ l, v.kind = k) :
      l.filter (fun v => selected v.kind) = if selected k then l else [] := by
    split
    · next hk => exact List.filter_eq_self.mpr fun v hv => by rw [hkind v hv, hk]
    · next hk => exact List.filter_eq_nil_iff.mpr fun v hv => by rwa [hkind v hv]
  rw [reports, List.filter_append, List.filter_append, List.filter_flatMap,
    hwhole fun _ => kind_of_mem_specialFolderReports, hwhole fun _ => kind_of_mem_folderReports]
  simp only [List.filter_append]

/-- **The kinds of the first two checks** select nothing else. -/
theorem filter_reports_of_folderKind (scan : Scan) {selected : ViolationKind → Bool}
    (h : ∀ k, selected k = true → k = .specialFolderMissing ∨ k = .folderName) :
    scan.reports.filter (fun v => selected v.kind) =
      (if selected .specialFolderMissing then scan.specialFolderReports else []) ++
        (if selected .folderName then scan.folderReports else []) := by
  have hcategory (c : FileCategory) :
      (scan.conditionReports c).filter (fun v => selected v.kind) ++
        (scan.assetReports c).filter (fun v => selected v.kind) = [] := by
    rw [List.append_eq_nil_iff, List.filter_eq_nil_iff, List.filter_eq_nil_iff]
    refine ⟨fun v hv hselected => ?_, fun v hv hselected => ?_⟩
    · rcases kind_of_mem_conditionReports hv with hkind | hkind <;>
        simpa [hkind] using h _ hselected
    · have hasset := ViolationKind.fileCategory?_eq_some_iff.mpr (kind_of_mem_assetReports hv)
      rcases h _ hselected with hkind | hkind <;>
        simp [hkind, ViolationKind.fileCategory?] at hasset
  rw [filter_reports_of_kind, List.flatMap_eq_nil_iff.mpr fun c _ => hcategory c, List.append_nil]

/-- The reports on special folders are those of their kind. -/
theorem filter_reports_eq_specialFolderReports (scan : Scan) :
    scan.reports.filter (fun v => v.kind = .specialFolderMissing) = scan.specialFolderReports := by
  have hselected (k : ViolationKind) (hk : decide (k = .specialFolderMissing) = true) :
      k = .specialFolderMissing ∨ k = .folderName := .inl (of_decide_eq_true hk)
  exact (filter_reports_of_folderKind scan hselected).trans (List.append_nil _)

/-- The reports on the names of folders are those of their kind. -/
theorem filter_reports_eq_folderReports (scan : Scan) :
    scan.reports.filter (fun v => v.kind = .folderName) = scan.folderReports := by
  have hselected (k : ViolationKind) (hk : decide (k = .folderName) = true) :
      k = .specialFolderMissing ∨ k = .folderName := .inr (of_decide_eq_true hk)
  exact filter_reports_of_folderKind scan hselected

/-- **Reports on names** are those on folders and some of those on the assets. -/
theorem filter_reports_wrongName (scan : Scan) :
    scan.reports.filter (fun v => v.group = .wrongName) =
      scan.folderReports ++
        scan.categories.flatMap fun c =>
          (scan.assetReports c).filter fun v => v.group = .wrongName := by
  have hcondition (c : FileCategory) :
      (scan.conditionReports c).filter (fun v => v.group = .wrongName) = [] := by
    refine List.filter_eq_nil_iff.mpr fun v hv => ?_
    rcases kind_of_mem_conditionReports hv with hkind | hkind <;>
      simp [Violation.group, hkind, ViolationKind.group]
  refine (filter_reports_of_kind scan fun k => k.group = .wrongName).trans ?_
  refine congrArg (scan.folderReports ++ ·) (List.flatMap_congr fun c _ => ?_)
  exact congrArg (· ++ _) (hcondition c)

/-! ## Finding the part of a check again -/

theorem nodup_categories (scan : Scan) : scan.categories.Nodup :=
  List.Nodup.filter _ (by decide : categoryOrder.Nodup)

/-- An enabled category is checked. -/
theorem mem_categories {c : FileCategory} (h : scan.settings.filter.isEnabled c = true) :
    c ∈ scan.categories :=
  List.mem_filter.mpr ⟨by cases c <;> decide, h⟩

/-- **The asset reports of an enabled category** are the reports of its kinds. -/
theorem filter_reports_eq_assetReports {c : FileCategory} (h : c ∈ scan.categories) :
    scan.reports.filter (fun v => v.kind.fileCategory? == some c) = scan.assetReports c := by
  have hcondition (d : FileCategory) :
      (scan.conditionReports d).filter (fun v => v.kind.fileCategory? == some c) = [] := by
    refine List.filter_eq_nil_iff.mpr fun v hv => ?_
    rcases kind_of_mem_conditionReports hv with hkind | hkind <;>
      simp [hkind, ViolationKind.fileCategory?]
  have hkind {d : FileCategory} {v : Violation} (hv : v ∈ scan.assetReports d) :
      v.kind.fileCategory? = some d :=
    ViolationKind.fileCategory?_eq_some_iff.mpr (kind_of_mem_assetReports hv)
  have hselected : scan.reports.filter (fun v => v.kind.fileCategory? == some c) =
      (scan.categories.flatMap scan.assetReports).filter
        (fun v => v.kind.fileCategory? == some c) := by
    refine (filter_reports_of_kind scan fun k => k.fileCategory? == some c).trans ?_
    rw [List.filter_flatMap]
    exact List.flatMap_congr fun d _ => congrArg (· ++ _) (hcondition d)
  rw [hselected, filter_flatMap_of_unique scan.nodup_categories h]
  · exact List.filter_eq_self.mpr fun v hv => by simp [hkind hv]
  · intro d hd
    exact List.filter_eq_nil_iff.mpr fun v hv => by simp [hkind hv, hd]

end Scan
end AssetAudit
