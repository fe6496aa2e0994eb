import AssetAudit.Proofs.Segments
import AssetAudit.Report.Csv

/-!
# Reading a table of violations

A table is written without any quoting, so whether it can be read depends on what its fields hold.
It is read in the way that its form suggests: it is cut into lines at the line breaks, and each line
into four cells at its first three commas.

* `Csv.cutAt_intercalate`: cutting a text at its first separators gives back the cells between which
  they were written, if no cell but the last holds one.  So only the last cell may hold what it
  likes.
* `Csv.IsReadable` is what a violation has to satisfy.  The group and the category do without a
  condition, because no label and no name of a category holds a comma or a line break
  (`Csv.fitsCell_label`, `Csv.fitsCell_categoryName`).
* `Csv.linesOf_text`, `Csv.cells_row` and `Csv.read_text`: the lines of a table, the cells of a
  line, and both together.
-/

namespace AssetAudit

namespace Csv

/-! ## Cutting -/

/-- The parts of a text between the first occurrences of a separator.  It is cut at so many of them
at most, and the last part is the rest. -/
def cutAt (separator : Char) : Nat → List Char → List (List Char)
  | 0, text => [text]
  | n + 1, text =>
      match text.dropWhile (· != separator) with
      | [] => [text]
      | _ :: rest => text.takeWhile (· != separator) :: cutAt separator n rest

/-- The first cut is at the first separator. -/
theorem cutAt_append {separator : Char} {cell : List Char} (h : separator ∉ cell) (n : Nat)
    (rest : List Char) :
    cutAt separator (n + 1) (cell ++ separator :: rest) = cell :: cutAt separator n rest := by
  rw [cutAt, dropWhile_ne_append_cons h, takeWhile_ne_append_cons h]

/-- **Cutting gives back the cells**, if none but the last holds a separator. -/
theorem cutAt_intercalate {separator : Char} {cells : List (List Char)}
    (h : ∀ cell ∈ cells, separator ∉ cell) (last : List Char) :
    cutAt separator cells.length ([separator].intercalate (cells ++ [last])) = cells ++ [last] := by
  induction cells with
  | nil => simp [cutAt]
  | cons cell cells ih =>
    have hne : cells ++ [last] ≠ [] := by simp
    rw [List.cons_append, List.intercalate_cons_of_ne_nil hne, List.length_cons, List.append_assoc,
      List.singleton_append, cutAt_append (h cell List.mem_cons_self),
      ih fun other hother => h other (List.mem_cons_of_mem _ hother)]

/-! ## Tables -/

/-- The text has neither a comma nor a line break. -/
def FitsCell (text : String) : Prop := ',' ∉ text.toList ∧ '\n' ∉ text.toList

instance (text : String) : Decidable (FitsCell text) := inferInstanceAs (Decidable (_ ∧ _))

theorem fitsCell_label (g : ViolationGroup) : FitsCell g.label := by
  cases g <;> decide

theorem fitsCell_categoryName (c : Category) : FitsCell c.name := by
  cases c <;> decide

/-- The lines of a text, with what stands behind the last line break. -/
def linesOf (text : String) : List String := (text.toList.splitOn '\n').map String.ofList

/-- The cells of a line. -/
def cells (line : String) : List String := (cutAt ',' 3 line.toList).map String.ofList

/-- The cells of the lines of a table, without those of its header. -/
def read (text : String) : List (List String) := (linesOf text).tail.dropLast.map cells

/-- What a table says about a violation. -/
def fields (v : Violation) : List String := [v.group.label, v.category.name, v.name, v.folder]

/-- A violation whose line can be read: its name holds no comma and no line break, and its folder no
line break. -/
structure IsReadable (v : Violation) : Prop where
  fitsCell_name : FitsCell v.name
  newline_notMem_folder : '\n' ∉ v.folder.toList

instance (v : Violation) : Decidable (IsReadable v) :=
  decidable_of_iff (FitsCell v.name ∧ '\n' ∉ v.folder.toList)
    ⟨fun h => ⟨h.1, h.2⟩, fun h => ⟨h.1, h.2⟩⟩

/-- The characters of a line. -/
theorem toList_row (v : Violation) :
    (row v).toList = [','].intercalate
      ([v.group.label.toList, v.category.name.toList, v.name.toList] ++ [v.folder.toList]) :=
  String.toList_intercalate

/-- A line without line breaks. -/
theorem IsReadable.newline_notMem_row {v : Violation} (h : IsReadable v) :
    '\n' ∉ (row v).toList := by
  have hlabel := (fitsCell_label v.group).2
  have hcategory := (fitsCell_categoryName v.category).2
  have hname := h.fitsCell_name.2
  have hfolder := h.newline_notMem_folder
  rw [toList_row]
  simp [List.intercalate_cons_of_ne_nil, hlabel, hcategory, hname, hfolder]

/-- **The cells of a line** are the fields of its violation. -/
theorem cells_row {v : Violation} (h : IsReadable v) : cells (row v) = fields v := by
  have hcomma : ∀ cell ∈ [v.group.label.toList, v.category.name.toList, v.name.toList],
      ',' ∉ cell := by
    simp [(fitsCell_label v.group).1, (fitsCell_categoryName v.category).1,
      h.fitsCell_name.1]
  have hcut : cutAt ',' 3 (row v).toList =
      [v.group.label.toList, v.category.name.toList, v.name.toList] ++ [v.folder.toList] := by
    rw [toList_row]
    exact cutAt_intercalate hcomma v.folder.toList
  rw [cells, hcut]
  simp [fields]

/-- The characters of a table: line breaks between its lines, and behind the last one nothing. -/
theorem toList_text (vs : List Violation) :
    (text vs).toList = ['\n'].intercalate ((lines vs ++ [""]).map String.toList) := by
  rw [text, String.toList_join]
  induction lines vs with
  | nil => simp
  | cons line rest ih =>
    have hne : (rest ++ [""]).map String.toList ≠ [] := by simp
    rw [List.map_cons, List.flatMap_cons, ih, List.cons_append, List.map_cons,
      List.intercalate_cons_of_ne_nil hne, String.toList_append]
    rfl

/-- **The lines of a table**: its header, one line for each violation, and nothing behind them. -/
theorem linesOf_text {vs : List Violation} (h : ∀ v ∈ vs, IsReadable v) :
    linesOf (text vs) = header :: vs.map row ++ [""] := by
  have hlines : ∀ line ∈ (lines vs ++ [""]).map String.toList, '\n' ∉ line := by
    intro line hline
    obtain ⟨line, hmem, rfl⟩ := List.mem_map.mp hline
    rcases List.mem_append.mp hmem with hmem | hmem
    · rcases List.mem_cons.mp hmem with rfl | hmem
      · decide
      · obtain ⟨v, hv, rfl⟩ := List.mem_map.mp hmem
        exact (h v hv).newline_notMem_row
    · rw [List.mem_singleton.mp hmem]
      decide
  rw [linesOf, toList_text, List.splitOn_intercalate '\n' hlines (by simp), List.map_map]
  simp [Function.comp_def, lines]

/-- **A table is read back** as the fields of its violations. -/
theorem read_text {vs : List Violation} (h : ∀ v ∈ vs, IsReadable v) :
    read (text vs) = vs.map fields := by
  rw [read, linesOf_text h, List.cons_append, List.tail_cons, List.dropLast_concat, List.map_map]
  exact List.map_congr_left fun v hv => cells_row (h v hv)

/-- **Tables can be read.**  Take any list of violations whose names hold neither commas nor line
breaks and whose folders hold no line breaks.

* Cut at its line breaks, the table of the list consists of the header, one line for each violation
  in order, and an empty rest.
* Cut at its first three commas, a line consists of the group, the category, the name and the folder
  of its violation.
* A second list of this kind with the same table agrees in these four fields, line by line. -/
theorem table_can_be_read (vs : List Violation) (h : ∀ v ∈ vs, IsReadable v) :
    linesOf (text vs) = header :: vs.map row ++ [""] ∧
      (∀ v ∈ vs, cells (row v) = [v.group.label, v.category.name, v.name, v.folder]) ∧
      ∀ others : List Violation, (∀ v ∈ others, IsReadable v) → text vs = text others →
        vs.map fields = others.map fields := by
  refine ⟨linesOf_text h, fun v hv => cells_row (h v hv), fun others hothers htext => ?_⟩
  rw [← read_text h, ← read_text hothers, htext]

/-- A folder with commas in its name, and a name with blanks and a quote. -/
theorem table_can_be_read_comma_folder :
    let bow : Violation :=
      ⟨.prefabName, .prefab, "long \"bow\".prefab", "Assets/Bows, Arrows", "Bow"⟩
    let axe : Violation := ⟨.prefabLocation, .prefab, "Axe.prefab", "", ""⟩
    (∀ v ∈ [bow, axe], IsReadable v) ∧
      linesOf (text [bow, axe]) = ["ERROR NAME, ASSET TYPE, ASSET NAME, ASSET PATH",
        "WRONG NAME,Prefab,long \"bow\".prefab,Assets/Bows, Arrows",
        "WRONG LOCATION,Prefab,Axe.prefab,", ""] ∧
      cells (row bow) = ["WRONG NAME", "Prefab", "long \"bow\".prefab", "Assets/Bows, Arrows"] ∧
      fields bow = fields { bow with hint := "" } := by
  intro bow axe
  have hreadable : ∀ v ∈ [bow, axe], IsReadable v := by decide
  have hunhinted : ∀ v ∈ [{ bow with hint := "" }, axe], IsReadable v := by decide
  have htable := table_can_be_read [bow, axe] hreadable
  have hsame := htable.2.2 [{ bow with hint := "" }, axe] hunhinted rfl
  exact ⟨hreadable, htable.1, htable.2.1 bow List.mem_cons_self, (List.cons.inj hsame).1⟩

end Csv
end AssetAudit
