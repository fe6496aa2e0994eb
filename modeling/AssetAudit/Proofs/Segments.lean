import AssetAudit.Path

/-!
# Texts of paths and their segments

A path text is cut at its separators, and its segments are joined again.  Everything that is
compared as a text elsewhere is meant to be compared by segments, so this file carries the two
across each other.

* `split_append_cons` is the one fact about cutting: a separator between two texts cuts them apart.
* `split_join` and `isSegment_of_mem_split`: cutting undoes joining, and what is cut off is fit to
  be joined; hence `normalize` chooses one text for each list of segments (`split_normalize`,
  `normalize_eq_iff`).
* `exists_of_split_eq_cons` and `exists_of_split_eq_append_cons`: where in a text its first segment
  stands, and where any other.
* `slash_prefix_join_iff`: on canonical texts, to continue a text with a slash is to continue its
  list of segments.  This is where a folder `Prefabs` is told from its neighbour `PrefabsOld`.
-/

namespace AssetAudit

/-- A text with a last character is that character behind some text. -/
theorem exists_eq_append_of_getLast? {text : String} {c : Char}
    (h : text.toList.getLast? = some c) : ∃ front, text = front ++ String.ofList [c] := by
  obtain ⟨chars, hchars⟩ := List.getLast?_eq_some_iff.mp h
  refine ⟨String.ofList chars, ?_⟩
  rw [← String.toList_inj, hchars]
  simp

/-- A list is cut where a condition first fails. -/
theorem exists_cut {α : Type} (p : α → Bool) (l : List α) :
    ∃ front rest, l = front ++ rest ∧ (∀ a ∈ front, p a = true) ∧
      ∀ a ∈ rest.head?, p a = false := by
  refine ⟨l.takeWhile p, l.dropWhile p, List.takeWhile_append_dropWhile.symm, ?_, ?_⟩
  · exact List.all_eq_true.mp List.all_takeWhile
  · intro a ha
    have hhead := List.head?_dropWhile_not p l
    rwa [Option.mem_def.mp ha] at hhead

/-- What stands before the first occurrence of an entry. -/
theorem takeWhile_ne_append_cons {α : Type} [DecidableEq α] {a : α} {front : List α} (h : a ∉ front)
    (rest : List α) : (front ++ a :: rest).takeWhile (· != a) = front := by
  have hfront : ∀ b ∈ front, (b != a) = true := fun b hb => bne_iff_ne.mpr fun heq => h (heq ▸ hb)
  rw [List.takeWhile_append_of_pos hfront, List.takeWhile_cons, bne_self_eq_false]
  exact List.append_nil front

/-- What is left from the first occurrence of an entry on. -/
theorem dropWhile_ne_append_cons {α : Type} [DecidableEq α] {a : α} {front : List α} (h : a ∉ front)
    (rest : List α) : (front ++ a :: rest).dropWhile (· != a) = a :: rest := by
  have hfront : ∀ b ∈ front, (b != a) = true := fun b hb => bne_iff_ne.mpr fun heq => h (heq ▸ hb)
  rw [List.dropWhile_append_of_pos hfront, List.dropWhile_cons, bne_self_eq_false]
  rfl

namespace Path

/-- A name that can stand between separators. -/
def IsSegment (name : String) : Prop :=
  name ≠ "" ∧ ∀ c ∈ name.toList, isSeparator c = false

instance (name : String) : Decidable (IsSegment name) :=
  decidable_of_iff (name ≠ "" ∧ name.toList.all (fun c => !isSeparator c) = true)
    (by simp [IsSegment])

theorem toList_ne_nil_of_isSegment {name : String} (h : IsSegment name) : name.toList ≠ [] :=
  fun hnil => h.1 (String.toList_eq_nil_iff.mp hnil)

/-! ## Cutting -/

/-- **A separator cuts.**  The segments around it are those of the two texts. -/
theorem split_append_cons {c : Char} (hc : isSeparator c = true) (front back : List Char) :
    split (String.ofList (front ++ c :: back)) =
      split (String.ofList front) ++ split (String.ofList back) := by
  simp only [split, String.toList_ofList]
  rw [List.splitOnP_append_cons _ _ hc, List.filter_append, List.map_append]

/-- A slash cuts. -/
theorem split_append_slash (a b : String) : split (a ++ "/" ++ b) = split a ++ split b := by
  have htext : a ++ "/" ++ b = String.ofList (a.toList ++ '/' :: b.toList) := by
    rw [← String.toList_inj]
    simp
  rw [htext, split_append_cons (by decide), String.ofList_toList, String.ofList_toList]

/-- A name is its only segment. -/
theorem split_of_isSegment {name : String} (h : IsSegment name) : split name = [name] := by
  have hne : name.toList.isEmpty = false := by simpa using toList_ne_nil_of_isSegment h
  rw [split, List.splitOnP_eq_singleton h.2, List.filter_cons_of_pos (by simp [hne])]
  simp

/-- The pieces of a list make up the list without what it is cut at. -/
theorem flatten_splitOnP {α : Type} (p : α → Bool) (l : List α) :
    (l.splitOnP p).flatten = l.filter fun a => !p a := by
  induction l with
  | nil => rfl
  | cons a l ih =>
    rw [List.splitOnP_cons_eq_if_modifyHead]
    cases ha : p a with
    | true => simp [ha, ih]
    | false =>
      obtain ⟨first, rest, hsplit⟩ := List.exists_cons_of_ne_nil (List.splitOnP_ne_nil p l)
      rw [hsplit, List.flatten_cons] at ih
      simp [ha, hsplit, ih]

/-- A piece holds elements of the list, and not what the list is cut at. -/
theorem mem_of_mem_splitOnP {α : Type} {p : α → Bool} {l piece : List α} {a : α}
    (hpiece : piece ∈ l.splitOnP p) (ha : a ∈ piece) : a ∈ l ∧ p a = false := by
  have hmem : a ∈ (l.splitOnP p).flatten := List.mem_flatten_of_mem hpiece ha
  rw [flatten_splitOnP, List.mem_filter, Bool.not_eq_true'] at hmem
  exact hmem

/-- What is cut off is a segment. -/
theorem isSegment_of_mem_split {path name : String} (h : name ∈ split path) : IsSegment name := by
  obtain ⟨chars, hchars, rfl⟩ := List.mem_map.mp h
  obtain ⟨hmem, hne⟩ := List.mem_filter.mp hchars
  refine ⟨by simpa using hne, fun c hc => ?_⟩
  rw [String.toList_ofList] at hc
  exact (mem_of_mem_splitOnP hmem hc).2

/-- The segments hold the characters that do not separate. -/
theorem flatMap_toList_split (path : String) :
    (split path).flatMap String.toList = path.toList.filter fun c => !isSeparator c := by
  rw [← flatten_splitOnP, ← List.flatten_filter_not_isEmpty, split, List.flatMap_map]
  simp [List.flatMap_def]

/-! ## Joining -/

theorem join_cons_of_ne_nil (name : String) {rest : List String} (h : rest ≠ []) :
    join (name :: rest) = name ++ "/" ++ join rest :=
  String.intercalate_cons_of_ne_nil h

theorem join_append_of_ne_nil {P Q : List String} (hP : P ≠ []) (hQ : Q ≠ []) :
    join (P ++ Q) = join P ++ "/" ++ join Q :=
  String.intercalate_append_of_ne_nil hP hQ

/-- **Cutting undoes joining.** -/
theorem split_join {segments : List String} (h : ∀ name ∈ segments, IsSegment name) :
    split (join segments) = segments := by
  induction segments with
  | nil => rfl
  | cons name rest ih =>
    have hname := split_of_isSegment (h name List.mem_cons_self)
    have hrest := ih fun other hother => h other (List.mem_cons_of_mem _ hother)
    by_cases hnil : rest = []
    · rw [hnil, join_singleton, hname]
    · rw [join_cons_of_ne_nil name hnil, split_append_slash, hname, hrest, List.singleton_append]

/-- Lists of segments are determined by their texts. -/
theorem join_inj {P Q : List String} (hP : ∀ name ∈ P, IsSegment name)
    (hQ : ∀ name ∈ Q, IsSegment name) : join P = join Q ↔ P = Q := by
  constructor
  · intro h
    rw [← split_join hP, h, split_join hQ]
  · rintro rfl
    rfl

/-- Only the empty list has the empty text. -/
theorem join_eq_empty_iff {P : List String} (hP : ∀ name ∈ P, IsSegment name) :
    join P = "" ↔ P = [] := by
  rw [← join_nil]
  exact join_inj hP (by simp)

/-! ## The canonical text -/

@[simp] theorem split_normalize (path : String) : split (normalize path) = split path :=
  split_join fun _ => isSegment_of_mem_split

@[simp] theorem normalize_normalize (path : String) :
    normalize (normalize path) = normalize path := by
  rw [normalize, split_normalize, ← normalize]

/-- Two texts have the same canonical text exactly if they have the same segments. -/
theorem normalize_eq_iff {p q : String} : normalize p = normalize q ↔ split p = split q :=
  join_inj (fun _ => isSegment_of_mem_split) (fun _ => isSegment_of_mem_split)

theorem isSegment_assetsRoot : IsSegment assetsRoot := by decide

@[simp] theorem split_underAssets (relative : String) :
    split (underAssets relative) = assetsRoot :: split relative := by
  refine split_join fun name hname => ?_
  rcases List.mem_cons.mp hname with rfl | hname
  · exact isSegment_assetsRoot
  · exact isSegment_of_mem_split hname

/-! ## Reading the first name -/

/-- A separator in front of a path does not count. -/
theorem split_cons_of_isSeparator {c : Char} (hc : isSeparator c = true) (rest : List Char) :
    split (String.ofList (c :: rest)) = split (String.ofList rest) := by
  rw [split, String.toList_ofList, List.splitOnP_cons_eq_if_modifyHead, if_pos hc, split,
    String.toList_ofList]
  rfl

/-- Nor do several of them. -/
theorem split_append_of_isSeparator {slashes : List Char} (h : ∀ c ∈ slashes, isSeparator c = true)
    (rest : List Char) : split (String.ofList (slashes ++ rest)) = split (String.ofList rest) := by
  induction slashes with
  | nil => rfl
  | cons c slashes ih =>
    rw [List.cons_append, split_cons_of_isSeparator (h c List.mem_cons_self),
      ih fun d hd => h d (List.mem_cons_of_mem c hd)]

/-- A name ends at the first separator behind it. -/
theorem split_append_of_head? {name rest : List Char} (hname : IsSegment (String.ofList name))
    (hrest : ∀ c ∈ rest.head?, isSeparator c = true) :
    split (String.ofList (name ++ rest)) = String.ofList name :: split (String.ofList rest) := by
  cases rest with
  | nil => rw [List.append_nil, split_of_isSegment hname]; rfl
  | cons c rest =>
    have hc : isSeparator c = true := hrest c rfl
    rw [split_append_cons hc, split_of_isSegment hname, split_cons_of_isSeparator hc]
    rfl

/-- **The first name of a path** stands behind separators only and ends at a separator. -/
theorem exists_of_split_eq_cons {path name : String} {names : List String}
    (h : split path = name :: names) :
    ∃ slashes rest : List Char, path.toList = slashes ++ (name.toList ++ rest) ∧
      (∀ c ∈ slashes, isSeparator c = true) ∧ (∀ c ∈ rest.head?, isSeparator c = true) ∧
      split (String.ofList rest) = names := by
  obtain ⟨slashes, body, hpath, hslashes, hbody⟩ := exists_cut isSeparator path.toList
  obtain ⟨chars, rest, rfl, hchars, hrest⟩ := exists_cut (fun c => !isSeparator c) body
  simp only [Bool.not_eq_true', Bool.not_eq_false'] at hchars hrest
  have hpath' : path = String.ofList (slashes ++ (chars ++ rest)) := by
    rw [← hpath, String.ofList_toList]
  have hne : chars ≠ [] := by
    rintro rfl
    cases rest with
    | nil =>
      rw [hpath', split_append_of_isSeparator hslashes] at h
      cases h
    | cons c rest =>
      have hc := hrest c rfl
      rw [hbody c rfl] at hc
      cases hc
  have hsegment : IsSegment (String.ofList chars) := by
    refine ⟨by simpa using hne, ?_⟩
    rwa [String.toList_ofList]
  rw [hpath', split_append_of_isSeparator hslashes, split_append_of_head? hsegment hrest,
    List.cons.injEq] at h
  obtain ⟨rfl, hnames⟩ := h
  exact ⟨slashes, rest, by rw [hpath, String.toList_ofList], hslashes, hrest, hnames⟩

/-- **A name inside a path** stands between separators.  The text in front of it has the names
before it, and the text behind it those after it. -/
theorem exists_of_split_eq_append_cons {path name : String} {before after : List String}
    (h : split path = before ++ name :: after) :
    ∃ front back : List Char, path.toList = front ++ (name.toList ++ back) ∧
      (∀ c ∈ front.getLast?, isSeparator c = true) ∧ (∀ c ∈ back.head?, isSeparator c = true) ∧
      split (String.ofList front) = before ∧ split (String.ofList back) = after := by
  induction before generalizing path with
  | nil =>
    obtain ⟨slashes, back, hpath, hslashes, hback, hafter⟩ := exists_of_split_eq_cons h
    have hnone := split_append_of_isSeparator hslashes []
    rw [List.append_nil] at hnone
    exact ⟨slashes, back, hpath, fun c hc => hslashes c (List.mem_of_getLast? hc), hback, hnone,
      hafter⟩
  | cons first before ih =>
    rw [List.cons_append] at h
    obtain ⟨slashes, rest, hpath, hslashes, hhead, hrest⟩ := exists_of_split_eq_cons h
    obtain ⟨front, back, htext, hlast, hback, hbefore, hafter⟩ := ih hrest
    rw [String.toList_ofList] at htext
    have hsegment (other : String) (hother : other ∈ first :: (before ++ name :: after)) :
        IsSegment other := isSegment_of_mem_split (h ▸ hother)
    have hname : IsSegment name := hsegment name (by simp)
    have hfirst : IsSegment first := hsegment first List.mem_cons_self
    -- The first name ends at a separator, which belongs to what stands between the two names.
    have hfront : front ≠ [] := by
      rintro rfl
      obtain ⟨c, chars, hchars⟩ := List.exists_cons_of_ne_nil (toList_ne_nil_of_isSegment hname)
      have hseparator : isSeparator c = true := hhead c (by rw [htext, hchars]; rfl)
      rw [hname.2 c (hchars ▸ List.mem_cons_self)] at hseparator
      cases hseparator
    have hstart : ∀ c ∈ front.head?, isSeparator c = true := fun c hc =>
      hhead c (by rw [htext, List.head?_append, Option.mem_def.mp hc]; rfl)
    have hend : (slashes ++ (first.toList ++ front)).getLast? = front.getLast? := by
      rw [List.getLast?_append, List.getLast?_append, List.getLast?_eq_some_getLast hfront]
      rfl
    refine ⟨slashes ++ (first.toList ++ front), back, ?_, ?_, hback, ?_, hafter⟩
    · rw [hpath, htext]
      simp only [List.append_assoc]
    · rwa [hend]
    · rw [split_append_of_isSeparator hslashes,
        split_append_of_head? (by rwa [String.ofList_toList]) hstart, String.ofList_toList, hbefore]

/-! ## Continuing a path -/

/-- **To continue a canonical text with a slash is to continue its segments.** -/
theorem slash_prefix_join_iff {P Q : List String} (hP : ∀ name ∈ P, IsSegment name)
    (hQ : ∀ name ∈ Q, IsSegment name) (hne : P ≠ []) :
    (join P).toList ++ ['/'] <+: (join Q).toList ↔ ∃ R, R ≠ [] ∧ Q = P ++ R := by
  constructor
  · rintro ⟨rest, hrest⟩
    have htext : join Q = join P ++ "/" ++ String.ofList rest := by
      apply String.toList_inj.mp
      rw [← hrest]
      simp
    have hsplit : Q = P ++ split (String.ofList rest) := by
      rw [← split_join hQ, htext, split_append_slash, split_join hP]
    refine ⟨_, ?_, hsplit⟩
    -- Without further segments both texts would be equal, and one is longer than the other.
    intro hnil
    rw [hnil, List.append_nil] at hsplit
    have hlength := congrArg List.length hrest
    rw [hsplit] at hlength
    simp at hlength
  · rintro ⟨R, hR, rfl⟩
    refine ⟨(join R).toList, ?_⟩
    rw [join_append_of_ne_nil hne hR]
    simp

end Path
end AssetAudit
