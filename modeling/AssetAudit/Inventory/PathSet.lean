/-!
# Sorted sets of path texts

A finite set of texts as its strictly ascending list, in the order of code points.  Two path sets
with the same members are equal (`PathSet.ext_mem`), so whatever a set is built from, in whatever
order, its listing depends on the members only.
-/

namespace AssetAudit

/-- A finite set of texts, listed in ascending order. -/
structure PathSet where
  toList : List String
  ascending : toList.Pairwise (· < ·)

namespace PathSet

/-- The set without members. -/
def empty : PathSet := ⟨[], List.Pairwise.nil⟩

/-- Is the text a member? -/
def contains (s : PathSet) (text : String) : Bool := s.toList.contains text

/-- The number of members. -/
def size (s : PathSet) : Nat := s.toList.length

/-- Puts a text into an ascending list, unless it is there. -/
def insertInto (text : String) : List String → List String
  | [] => [text]
  | other :: rest =>
      if text < other then text :: other :: rest
      else if text = other then other :: rest
      else other :: insertInto text rest

theorem mem_insertInto {text x : String} {l : List String} :
    x ∈ insertInto text l ↔ x = text ∨ x ∈ l := by
  induction l with
  | nil => simp [insertInto]
  | cons other rest ih =>
    unfold insertInto
    split
    · simp
    · split
      · next h => subst h; simp
      · simp only [List.mem_cons, ih]
        constructor
        · rintro (rfl | rfl | h)
          · exact .inr (.inl rfl)
          · exact .inl rfl
          · exact .inr (.inr h)
        · rintro (rfl | rfl | h)
          · exact .inr (.inl rfl)
          · exact .inl rfl
          · exact .inr (.inr h)

private theorem lt_of_not_lt_of_ne {a b : String} (hlt : ¬a < b) (hne : a ≠ b) : b < a := by
  rcases Std.lt_trichotomy a b with h | h | h
  · exact absurd h hlt
  · exact absurd h hne
  · exact h

theorem pairwise_insertInto {text : String} {l : List String} (h : l.Pairwise (· < ·)) :
    (insertInto text l).Pairwise (· < ·) := by
  induction l with
  | nil => simp [insertInto]
  | cons other rest ih =>
    obtain ⟨hother, hrest⟩ := List.pairwise_cons.1 h
    unfold insertInto
    split
    · next hlt =>
      refine List.pairwise_cons.2 ⟨?_, h⟩
      intro x hx
      rcases List.mem_cons.1 hx with rfl | hx
      · exact hlt
      · exact String.lt_trans hlt (hother x hx)
    · next hlt =>
      split
      · exact h
      · next hne =>
        refine List.pairwise_cons.2 ⟨?_, ih hrest⟩
        intro x hx
        rcases mem_insertInto.1 hx with rfl | hx
        · exact lt_of_not_lt_of_ne hlt hne
        · exact hother x hx

/-- The set with one more member. -/
def insert (s : PathSet) (text : String) : PathSet :=
  ⟨insertInto text s.toList, pairwise_insertInto s.ascending⟩

@[simp] theorem mem_insert {s : PathSet} {text x : String} :
    x ∈ (s.insert text).toList ↔ x = text ∨ x ∈ s.toList := mem_insertInto

theorem contains_iff {s : PathSet} {text : String} :
    s.contains text = true ↔ text ∈ s.toList := by
  simp [contains]

/-- An ascending list lists nothing twice. -/
theorem nodup_of_ascending {l : List String} (h : l.Pairwise (· < ·)) : l.Nodup :=
  h.imp fun {a b} (hlt : a < b) => by
    rintro rfl
    exact String.lt_irrefl a hlt

/-- An ascending list is determined by its members. -/
private theorem eq_of_ascending {l l' : List String} (hl : l.Pairwise (· < ·))
    (hl' : l'.Pairwise (· < ·)) (h : ∀ x, x ∈ l ↔ x ∈ l') : l = l' := by
  have hperm : l.Perm l' :=
    (List.perm_ext_iff_of_nodup (nodup_of_ascending hl) (nodup_of_ascending hl')).mpr h
  refine List.Perm.eq_of_pairwise (fun a b _ _ hab hba => ?_) hl hl' hperm
  exact absurd (String.lt_trans hab hba) (String.lt_irrefl a)

/-- **Path sets are sets**: the members determine the listing. -/
theorem ext_mem {s t : PathSet} (h : ∀ x, x ∈ s.toList ↔ x ∈ t.toList) : s = t := by
  obtain ⟨l, hl⟩ := s
  obtain ⟨l', hl'⟩ := t
  have hll : l = l' := eq_of_ascending hl hl' h
  subst hll
  rfl

end PathSet

end AssetAudit
