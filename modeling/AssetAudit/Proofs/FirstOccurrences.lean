import Mathlib.Data.List.Induction

/-!
# First occurrences

A violation log and an allow-list both keep of every entry its first occurrence, which on lists is
`List.eraseDups`.  What they are built from arrives one entry at a time at the end of a list, so
everything here is read off one equation, `eraseDups_concat`: an entry at the end counts exactly if
it has not occurred before.

* `eraseDups_eq_self` and `nodup_eraseDups`: the lists of first occurrences are those without
  repetitions.
* `filter_eraseDups`: looking only at some entries and dropping repetitions can be done in any
  order.
* `map_eraseDups_map`: distinguishable descriptions of things can be compared instead of the things.
* `take_eraseDups_append`: what comes later never changes the first occurrences found so far.
* `eraseDups_append_of_nodup`: behind a list without repetitions, what it does not hold is new.
* `pairwise_idxOf_eraseDups`: first occurrences stand in the order of their positions.
-/

namespace AssetAudit

variable {α : Type} [BEq α] [LawfulBEq α]

/-- **One more entry.**  It is a first occurrence exactly if it is not there yet. -/
theorem eraseDups_concat [DecidableEq α] (l : List α) (a : α) :
    (l ++ [a]).eraseDups = if a ∈ l then l.eraseDups else l.eraseDups ++ [a] := by
  rw [List.eraseDups_append]
  by_cases h : a ∈ l <;> simp [List.removeAll, h, List.eraseDups_cons]

/-- A list without repetitions consists of first occurrences. -/
theorem eraseDups_eq_self {l : List α} (h : l.Nodup) : l.eraseDups = l := by
  classical
  induction l using List.reverseRecOn with
  | nil => simp
  | append_singleton l a ih =>
    obtain ⟨hl, -, hdisjoint⟩ := List.nodup_append.mp h
    have ha : a ∉ l := fun hmem => hdisjoint a hmem a (by simp) rfl
    rw [eraseDups_concat, if_neg ha, ih hl]

/-- First occurrences do not repeat. -/
theorem nodup_eraseDups (l : List α) : l.eraseDups.Nodup := by
  classical
  induction l using List.reverseRecOn with
  | nil => simp
  | append_singleton l a ih =>
    rw [eraseDups_concat]
    split
    · exact ih
    · next ha =>
      refine List.nodup_append.mpr ⟨ih, by simp, ?_⟩
      rintro b hb c hc rfl
      exact ha (List.mem_eraseDups.mp (List.mem_singleton.mp hc ▸ hb))

/-- Selecting entries and dropping repetitions commute. -/
theorem filter_eraseDups (p : α → Bool) (l : List α) :
    l.eraseDups.filter p = (l.filter p).eraseDups := by
  classical
  induction l using List.reverseRecOn with
  | nil => simp
  | append_singleton l a ih =>
    by_cases hp : p a = true
    · have hsplit : (l ++ [a]).filter p = l.filter p ++ [a] := by simp [hp]
      rw [hsplit, eraseDups_concat, eraseDups_concat]
      by_cases ha : a ∈ l
      · rw [if_pos ha, if_pos (List.mem_filter.mpr ⟨ha, hp⟩), ih]
      · have ha' : a ∉ l.filter p := fun hmem => ha (List.mem_filter.mp hmem).1
        rw [if_neg ha, if_neg ha', List.filter_append, ih]
        simp [hp]
    · have hsplit : (l ++ [a]).filter p = l.filter p := by simp [hp]
      rw [hsplit, eraseDups_concat, ← ih]
      split
      · rfl
      · simp [hp]

/-- Dropping repetitions among images that can be led back is dropping them among what they are
images of. -/
theorem map_eraseDups_map {β : Type} [BEq β] [LawfulBEq β] {f : α → β} {g : β → α} {l : List α}
    (h : ∀ a ∈ l, g (f a) = a) : (l.map f).eraseDups.map g = l.eraseDups := by
  classical
  induction l using List.reverseRecOn with
  | nil => simp
  | append_singleton l a ih =>
    have hl : ∀ b ∈ l, g (f b) = b := fun b hb => h b (List.mem_append_left _ hb)
    have ha : g (f a) = a := h a (by simp)
    have hmem : f a ∈ l.map f ↔ a ∈ l := by
      refine ⟨fun hfa => ?_, List.mem_map_of_mem⟩
      obtain ⟨b, hb, hfb⟩ := List.mem_map.mp hfa
      rwa [← ha, ← hfb, hl b hb]
    rw [List.map_append, List.map_singleton, eraseDups_concat, eraseDups_concat]
    by_cases hold : a ∈ l
    · rw [if_pos hold, if_pos (hmem.mpr hold), ih hl]
    · rw [if_neg hold, if_neg (mt hmem.mp hold), List.map_append, List.map_singleton, ih hl, ha]

/-- As many first occurrences as a list has are settled by that list. -/
theorem take_eraseDups_append {l : List α} {n : Nat} (h : n ≤ l.eraseDups.length) (later : List α) :
    (l ++ later).eraseDups.take n = l.eraseDups.take n := by
  rw [List.eraseDups_append, List.take_append_of_le_length h]

/-- Behind a list without repetitions stand the first occurrences of what it does not hold. -/
theorem eraseDups_append_of_nodup [DecidableEq α] {l : List α} (h : l.Nodup) (later : List α) :
    (l ++ later).eraseDups = l ++ (later.filter (· ∉ l)).eraseDups := by
  have hlater : later.removeAll l = later.filter (· ∉ l) := by simp [List.removeAll]
  rw [List.eraseDups_append, eraseDups_eq_self h, hlater]

/-- The positions of first occurrences go up. -/
theorem pairwise_idxOf_eraseDups (l : List α) :
    l.eraseDups.Pairwise fun a b => l.idxOf a < l.idxOf b := by
  classical
  induction l using List.reverseRecOn with
  | nil => simp
  | append_singleton l a ih =>
    -- What comes later does not move what has been found.
    have hsame {b : α} (hb : b ∈ l.eraseDups) : (l ++ [a]).idxOf b = l.idxOf b := by
      rw [List.idxOf_append, if_pos (List.mem_eraseDups.mp hb)]
    have hl : l.eraseDups.Pairwise fun b c => (l ++ [a]).idxOf b < (l ++ [a]).idxOf c :=
      ih.imp_of_mem fun hb hc hlt => by rwa [hsame hb, hsame hc]
    rw [eraseDups_concat]
    split
    · exact hl
    · next ha =>
      refine List.pairwise_append.mpr ⟨hl, List.pairwise_singleton _ _, fun b hb c hc => ?_⟩
      rw [List.mem_singleton.mp hc, hsame hb, List.idxOf_append, if_neg ha]
      exact Nat.lt_add_left _ (List.idxOf_lt_length_iff.mpr (List.mem_eraseDups.mp hb))

end AssetAudit
