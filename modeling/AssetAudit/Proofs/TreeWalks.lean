import AssetAudit.Proofs.TreePaths
import Mathlib.Algebra.Order.BigOperators.Group.List
import Mathlib.Algebra.Order.Ring.Nat

/-!
# The length of path texts

A search goes by path texts, and a system follows texts up to a certain length only.  How long a
text is, is read off the names in it: `sizeBelow_le_of_sublist` says that fewer names give a shorter
text, so what is reached with more names is reached with fewer.  This holds for names that are no
text as well, of which the bytes count and not what is shown for them
(`FileName.size_le_utf8ByteSize_shown`).

Other than by its length, a text below a root fails only because of the names in it.
`FileTree.resolve_pathBelow_of_isFolderAt` puts the two together for texts that are to lead to a
folder.

`FileTree.isListed_iff` says what a search needs of the folders between its start and an entry.
-/

namespace AssetAudit

open AssetAudit.Path (IsSegment)

/-! ## The characters and the length of a path text -/

namespace Path

/-- Apart from the slashes, the characters of a text are those of its names. -/
theorem mem_toList_join_iff {segments : List String} {c : Char} (hc : c ≠ '/') :
    c ∈ (join segments).toList ↔ ∃ name ∈ segments, c ∈ name.toList := by
  induction segments with
  | nil => simp
  | cons name rest ih =>
    by_cases hnil : rest = []
    · subst hnil
      simp
    · have hslash : c ∉ "/".toList := by simpa using hc
      rw [join_cons_of_ne_nil name hnil, String.toList_append, String.toList_append,
        List.mem_append, List.mem_append, ih, or_iff_left hslash, List.exists_mem_cons_iff]

/-- A text has the bytes of its names and one for each slash between them. -/
theorem utf8ByteSize_join (segments : List String) :
    (join segments).utf8ByteSize =
      (segments.map String.utf8ByteSize).sum + (segments.length - 1) := by
  induction segments with
  | nil => rfl
  | cons name rest ih =>
    by_cases hnil : rest = []
    · subst hnil
      simp
    · have hpos : 0 < rest.length := List.length_pos_iff.mpr hnil
      have hslash : "/".utf8ByteSize = 1 := rfl
      rw [join_cons_of_ne_nil name hnil, String.utf8ByteSize_append, String.utf8ByteSize_append, ih,
        hslash, List.map_cons, List.sum_cons, List.length_cons]
      omega

/-- A legal name without a backslash is a segment of a path. -/
theorem isSegment_of_isLegal {name : String} (hlegal : (FileName.text name).isLegal = true)
    (hbackslash : '\\' ∉ name.toList) : IsSegment name := by
  have hplain := FileName.isPlain_of_isLegal hlegal
  rw [FileName.isLegal, Bool.and_eq_true, Bool.not_eq_true', FileName.holdsEnd,
    Bool.or_eq_false_iff] at hlegal
  refine ⟨?_, fun c hc => ?_⟩
  · rintro rfl
    exact absurd hplain (by decide)
  · rw [isSeparator, Bool.or_eq_false_iff, beq_eq_false_iff_ne, beq_eq_false_iff_ne]
    constructor
    · rintro rfl
      simp [hc] at hlegal
    · rintro rfl
      exact hbackslash hc

end Path

/-! ## The length of what is shown -/

namespace Utf8

theorem brokenLength_le (bytes : List UInt8) : brokenLength bytes ≤ 3 := by
  unfold brokenLength
  repeat' split
  all_goals omega

/-- **What is decoded is not shorter than the bytes**, if it is written as bytes again. -/
theorem length_le_size_utf8Encode_decode (bytes : List UInt8) :
    bytes.length ≤ (decode 0 bytes).utf8Encode.size := by
  induction hlength : bytes.length using Nat.strongRecOn generalizing bytes with
  | ind length ih =>
    cases bytes with
    | nil => exact Nat.le_of_eq hlength.symm
    | cons byte rest =>
      -- Each character takes at least the bytes that it stands for.
      have hstep (c : Char) (taken : Nat) (htaken : taken ≤ c.utf8Size) :
          length ≤ (c :: decode (taken - 1) rest).utf8Encode.size := by
        have hpos := Char.utf8Size_pos c
        have hrest := ih (rest.drop (taken - 1)).length (by
          rw [← hlength, List.length_cons, List.length_drop]
          omega) _ rfl
        rw [List.length_drop] at hrest
        rw [decode_eq_decode_drop, List.utf8Encode_cons, List.utf8Encode_singleton,
          ByteArray.size_append, List.size_toByteArray, String.length_utf8EncodeChar, ← hlength,
          List.length_cons]
        omega
      rw [decode]
      split
      · next c hchar => exact hstep c _ (Nat.le_refl _)
      · exact hstep replacement _ (brokenLength_le _)

end Utf8

namespace FileName

/-- Legal names hold no NUL. -/
theorem nul_notMem_of_isLegal {name : String} (h : (text name).isLegal = true) :
    '\x00' ∉ name.toList := by
  intro hmem
  rw [isLegal, holdsEnd] at h
  simp [hmem] at h

/-- **What is shown for a name is not shorter than the name.** -/
theorem size_le_utf8ByteSize_shown (name : FileName) : name.size ≤ name.shown.utf8ByteSize := by
  cases name with
  | text name => exact Nat.le_refl _
  | raw bytes hbytes => exact Utf8.length_le_size_utf8Encode_decode bytes

end FileName

/-! ## The length of paths below a text -/

/-- The bytes of a text below another one are those of both and of the slash, if there is one. -/
theorem utf8ByteSize_joinPath (parent child : String) :
    (joinPath parent child).utf8ByteSize =
      (joinPath parent "").utf8ByteSize + child.utf8ByteSize := by
  have hnone : "".utf8ByteSize = 0 := rfl
  rw [joinPath, joinPath]
  split <;> simp only [String.utf8ByteSize_append, hnone] <;> omega

theorem le_utf8ByteSize_joinPath (root : String) :
    root.utf8ByteSize ≤ (joinPath root "").utf8ByteSize ∧
      (joinPath root "").utf8ByteSize ≤ root.utf8ByteSize + 1 := by
  have hnone : "".utf8ByteSize = 0 := rfl
  have hslash : "/".utf8ByteSize = 1 := rfl
  rw [joinPath]
  split <;> simp only [String.utf8ByteSize_append, hnone, hslash] <;> omega

@[simp] theorem sizeBelow_nil (root : String) : sizeBelow root [] = root.utf8ByteSize := rfl

theorem sizeBelow_of_ne_nil (root : String) {names : List FileName} (h : names ≠ []) :
    sizeBelow root names =
      (joinPath root "").utf8ByteSize + (names.map FileName.size).sum + (names.length - 1) := by
  rw [sizeBelow, if_neg (by simpa using h), List.sum, List.foldr_map]

/-- For names that are texts it is the length of their path text. -/
theorem sizeBelow_map_text (root : String) (names : List String) :
    sizeBelow root (names.map .text) = (pathBelow root names).utf8ByteSize := by
  by_cases hnil : names = []
  · rw [hnil]
    rfl
  · have hsizes : FileName.size ∘ FileName.text = String.utf8ByteSize := rfl
    rw [sizeBelow_of_ne_nil root (by simpa using hnil), pathBelow_of_ne_nil root hnil,
      utf8ByteSize_joinPath root (Path.join names), Path.utf8ByteSize_join, List.map_map, hsizes,
      List.length_map, Nat.add_assoc]

/-- **Fewer names, a shorter path.** -/
theorem sizeBelow_le_of_sublist (root : String) {P Q : List FileName} (h : P.Sublist Q) :
    sizeBelow root P ≤ sizeBelow root Q := by
  have hroot := (le_utf8ByteSize_joinPath root).1
  by_cases hQ : Q = []
  · subst hQ
    rw [List.sublist_nil.mp h]
  · rw [sizeBelow_of_ne_nil root hQ]
    by_cases hP : P = []
    · rw [hP, sizeBelow_nil]
      omega
    · have hsum := (h.map FileName.size).sum_le_sum fun _ _ => Nat.zero_le _
      have hlength := h.length_le
      rw [sizeBelow_of_ne_nil root hP]
      omega

/-- What is reached with more names is reached with fewer. -/
theorem utf8ByteSize_pathBelow_le_of_sublist (root : String) {P Q : List String}
    (h : P.Sublist Q) : (pathBelow root P).utf8ByteSize ≤ (pathBelow root Q).utf8ByteSize := by
  rw [← sizeBelow_map_text, ← sizeBelow_map_text]
  exact sizeBelow_le_of_sublist root (h.map FileName.text)

/-- Going down in two steps is going down in one, from the start of a search too. -/
theorem sizeBelow_pathBelow (root : String) {P : List String} (hP : ∀ name ∈ P, IsSegment name)
    (Q : List FileName) : sizeBelow (pathBelow root P) Q = sizeBelow root (P.map .text ++ Q) := by
  by_cases hP' : P = []
  · rw [hP', pathBelow_nil]
    rfl
  · by_cases hQ : Q = []
    · rw [hQ, List.append_nil, sizeBelow_map_text, sizeBelow_nil]
    · -- The text in between is not empty and does not end in a slash.
      have hfront : (pathBelow root P).isEmpty = false := by
        rw [← Bool.not_eq_true, String.isEmpty_iff]
        exact pathBelow_ne_empty root hP hP'
      have hslash : ¬ ((pathBelow root P).toList.getLast? == some '/') = true := by
        rw [beq_iff_eq, getLast?_pathBelow root hP hP']
        exact Path.getLast?_join_ne_slash hP
      have hjoin : (joinPath (pathBelow root P) "").utf8ByteSize =
          (pathBelow root P).utf8ByteSize + 1 := by
        rw [joinPath, hfront, Bool.false_or, if_neg hslash, String.append_empty,
          String.utf8ByteSize_append]
        rfl
      have hpos := List.length_pos_iff.mpr hP'
      have hpos' := List.length_pos_iff.mpr hQ
      rw [sizeBelow_of_ne_nil _ hQ, hjoin, ← sizeBelow_map_text,
        sizeBelow_of_ne_nil root (by simpa using hP'),
        sizeBelow_of_ne_nil root (List.append_ne_nil_of_right_ne_nil _ hQ), List.map_append,
        List.sum_append, List.length_append, List.length_map]
      omega

/-- Apart from the slashes, the characters of a text below another one are those of that text and of
the names. -/
theorem mem_toList_pathBelow_iff {root : String} {names : List String} {c : Char} (hc : c ≠ '/') :
    c ∈ (pathBelow root names).toList ↔ c ∈ root.toList ∨ ∃ name ∈ names, c ∈ name.toList := by
  by_cases hnil : names = []
  · subst hnil
    simp
  · have hslash : c ∉ "/".toList := by simpa using hc
    rw [pathBelow_of_ne_nil root hnil, ← Path.mem_toList_join_iff hc, joinPath]
    split
    · rw [String.toList_append, List.mem_append]
    · rw [String.toList_append, String.toList_append, List.mem_append, List.mem_append,
        or_iff_left hslash]

namespace FileTree

variable {tree : FileTree}

/-! ## Texts that lead to folders -/

/-- **A text leads to a folder** if its names do and it is not too long. -/
theorem resolve_pathBelow_of_isFolderAt {root : String} {query : List String}
    (hquery : ∀ name ∈ query, IsSegment name) {goal : List FileName}
    (hnul : '\x00' ∉ (pathBelow root query).toList)
    (hsize : (pathBelow root query).utf8ByteSize ≤ Location.maxBytes)
    (hne : pathBelow root query ≠ "") (hleads : tree.QueryLeads root query goal)
    (hfolder : tree.isFolderAt goal = true) :
    tree.resolve (pathBelow root query) = .ok goal := by
  obtain ⟨rights, hnode⟩ := isFolderAt_iff.mp hfolder
  exact resolve_eq_ok_iff.mpr ⟨_, _, Location.ofText_eq_ok_iff.mpr ⟨hnul, hsize, hne, rfl⟩,
    (queryLeads_pathBelow_iff hquery).mpr hleads, hnode, fun _ => rfl⟩

/-- A folder lies in folders. -/
theorem isFolderAt_of_append {P Q : List FileName} (h : tree.isFolderAt (P ++ Q) = true) :
    tree.isFolderAt P = true := by
  by_cases hQ : Q = []
  · rwa [hQ, List.append_nil] at h
  · obtain ⟨rights, hnode⟩ := isFolderAt_iff.mp h
    exact isFolderAt_above
      (mem_of_node?_eq_some (List.append_ne_nil_of_right_ne_nil _ hQ) hnode) hQ

/-- The way to a folder is straight. -/
theorem isStraight_of_isFolderAt {P Q : List FileName} (h : tree.isFolderAt (P ++ Q) = true) :
    tree.IsStraight P Q := by
  by_cases hQ : Q = []
  · rw [hQ]
    trivial
  · obtain ⟨rights, hnode⟩ := isFolderAt_iff.mp h
    exact isStraight_of_mem
      (mem_of_node?_eq_some (List.append_ne_nil_of_right_ne_nil _ hQ) hnode) rfl

/-- **Listing an entry.**  All folders on the way are read, and all but the last are entered. -/
theorem isListed_iff {folder path : List FileName} (hlegal : ∀ name ∈ path, name.isLegal = true) :
    tree.isListed folder path = true ↔
      (∀ front, front <+: path → front ≠ path → (tree.rightsAt (folder ++ front)).read = true) ∧
        tree.LetsPass folder path.dropLast := by
  induction path generalizing folder with
  | nil =>
    refine iff_of_true rfl ⟨fun front hfront hne => ?_, trivial⟩
    exact absurd (List.prefix_nil.mp hfront) hne
  | cons name rest ih =>
    have hrest := @ih (folder ++ [name]) fun other hother =>
      hlegal other (List.mem_cons_of_mem name hother)
    have hsize := FileName.size_le_of_isLegal (hlegal name List.mem_cons_self)
    have hfronts : (∀ front, front <+: name :: rest → front ≠ name :: rest →
        (tree.rightsAt (folder ++ front)).read = true) ↔
          (tree.rightsAt folder).read = true ∧ ∀ front, front <+: rest → front ≠ rest →
            (tree.rightsAt (folder ++ [name] ++ front)).read = true := by
      constructor
      · intro h
        refine ⟨?_, fun front hfront hne => ?_⟩
        · have hstart := h [] List.nil_prefix (List.cons_ne_nil _ _).symm
          rwa [List.append_nil] at hstart
        · rw [List.append_assoc]
          exact h (name :: front) (List.cons_prefix_cons.mpr ⟨rfl, hfront⟩)
            fun hsame => hne (List.cons.inj hsame).2
      · rintro ⟨hstart, h⟩ front hfront hne
        cases front with
        | nil => rwa [List.append_nil]
        | cons other front =>
          obtain ⟨rfl, hbegins⟩ := List.cons_prefix_cons.mp hfront
          have hdeeper := h front hbegins fun hsame => hne (by rw [hsame])
          rwa [List.append_assoc] at hdeeper
    rw [isListed, Bool.and_eq_true, Bool.and_eq_true, hrest, hfronts, and_assoc, and_assoc]
    refine and_congr_right fun _ => ?_
    by_cases hnil : rest = []
    · simp [hnil, LetsPass]
    · have hempty : rest.isEmpty = false := by simpa using hnil
      rw [hempty, Bool.false_or, List.dropLast_cons_of_ne_nil hnil, LetsPass]
      tauto

end FileTree
end AssetAudit
