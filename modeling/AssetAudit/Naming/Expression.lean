/-!
# Regular expressions over names

The naming conventions of this library are regular expressions, so that a convention can be shown to
a user as a pattern text, tested against a name, and reasoned about as a language.
`Expression.Matches` is that language, defined without any algorithm; `Expression.pattern` is the
usual text.

Testing reads a name once, from left to right, and keeps the expressions that the rest of the name
may still match: the *residues* of the expression after one character.  An expression of the size of
a naming convention has a handful of residues however long the name is, so a test takes time in
proportion to the name.  The main statement, `Expression.accepts_iff`, says that the test decides
the language.
-/

namespace AssetAudit
namespace Naming

/-! ## Classes of characters -/

/-- A set of characters, given as closed ranges. -/
structure CharClass where
  ranges : List (Char × Char)
  deriving DecidableEq, Repr

namespace CharClass

/-- The class that holds one character. -/
def single (c : Char) : CharClass := ⟨[(c, c)]⟩

/-- The capital letters `A` to `Z`. -/
def upper : CharClass := ⟨[('A', 'Z')]⟩

/-- The small letters `a` to `z`. -/
def lower : CharClass := ⟨[('a', 'z')]⟩

/-- The digits `0` to `9`. -/
def digit : CharClass := ⟨[('0', '9')]⟩

/-- The characters of either class, listed in this order. -/
def union (k l : CharClass) : CharClass := ⟨k.ranges ++ l.ranges⟩

/-- Does the class hold the character? -/
def contains (k : CharClass) (c : Char) : Bool :=
  k.ranges.any fun (first, last) => decide (first ≤ c) && decide (c ≤ last)

@[simp] theorem contains_union (k l : CharClass) (c : Char) :
    (k.union l).contains c = (k.contains c || l.contains c) := by
  simp [union, contains]

/-- The class between brackets, a range of one character as that character. -/
def pattern (k : CharClass) : String :=
  let body := k.ranges.map fun (first, last) =>
    if first = last then first.toString else first.toString ++ "-" ++ last.toString
  "[" ++ String.join body ++ "]"

end CharClass

/-! ## Expressions and their language -/

/-- Regular expressions, in the forms that naming conventions use. -/
inductive Expression where
  /-- The empty text. -/
  | empty
  /-- One given character. -/
  | literal (c : Char)
  /-- One character of a class. -/
  | one (k : CharClass)
  /-- One expression, then another. -/
  | seq (first second : Expression)
  /-- Either of two expressions. -/
  | either (left right : Expression)
  /-- At least `least` and, if there is a bound, at most `most` copies of an expression. -/
  | repeated (body : Expression) (least : Nat) (most : Option Nat)
  deriving DecidableEq, Repr

namespace Expression

/-- The given characters, one after the other. -/
def text : List Char → Expression
  | [] => .empty
  | [c] => .literal c
  | c :: cs => .seq (.literal c) (text cs)

/-- Any number of copies. -/
def many (e : Expression) : Expression := .repeated e 0 none

/-- One copy or more. -/
def oneOrMore (e : Expression) : Expression := .repeated e 1 none

/-- One copy or none. -/
def optional (e : Expression) : Expression := .repeated e 0 (some 1)

/-- Between `least` and `most` copies. -/
def between (e : Expression) (least most : Nat) : Expression := .repeated e least (some most)

/-- The texts that an expression describes. -/
def Matches : Expression → List Char → Prop
  | .empty, w => w = []
  | .literal c, w => w = [c]
  | .one k, w => ∃ c, k.contains c = true ∧ w = [c]
  | .seq e f, w => ∃ u v, w = u ++ v ∧ e.Matches u ∧ f.Matches v
  | .either e f, w => e.Matches w ∨ f.Matches w
  | .repeated e least most, w =>
      ∃ parts : List (List Char), least ≤ parts.length ∧ (∀ n, most = some n → parts.length ≤ n) ∧
        (∀ u ∈ parts, e.Matches u) ∧ w = parts.flatten

/-! ## Testing a text -/

/-- Does the expression describe the empty text? -/
def nullable : Expression → Bool
  | .empty => true
  | .literal _ => false
  | .one _ => false
  | .seq e f => e.nullable && f.nullable
  | .either e f => e.nullable || f.nullable
  | .repeated e least most => most.all (least ≤ ·) && (least == 0 || e.nullable)

/-- One expression after another, where a leading empty text is left away. -/
def followedBy (e f : Expression) : Expression :=
  if e = .empty then f else .seq e f

/-- What may follow a first character: expressions that together describe the rest of every text
that starts with `c` and that `e` describes. -/
def residues (c : Char) : Expression → List Expression
  | .empty => []
  | .literal d => if c = d then [.empty] else []
  | .one k => if k.contains c then [.empty] else []
  | .seq e f =>
      (e.residues c).map (·.followedBy f) ++ (if e.nullable then f.residues c else [])
  | .either e f => e.residues c ++ f.residues c
  | .repeated e least most =>
      if most = some 0 then []
      else (e.residues c).map (·.followedBy (.repeated e (least - 1) (most.map (· - 1))))

/-- One step of the test: all residues of the expressions that are still pending, each kept once. -/
def advance (pending : List Expression) (c : Char) : List Expression :=
  (pending.flatMap (residues c)).eraseDups

/-- Does the expression describe the whole text? -/
def accepts (e : Expression) (w : List Char) : Bool :=
  (w.foldl advance [e]).any nullable

/-! ## The pattern text -/

/-- The characters that have a meaning of their own in a pattern. -/
def isSpecial (c : Char) : Bool :=
  "\\.+*?()|[]\x7b\x7d^$".toList.contains c

/-- How often an expression may be repeated. -/
def quantifier : Nat → Option Nat → String
  | 0, none => "*"
  | 1, none => "+"
  | 0, some 1 => "?"
  | least, none => "\x7b" ++ toString least ++ ",\x7d"
  | least, some most => "\x7b" ++ toString least ++ "," ++ toString most ++ "\x7d"

/-- A part of a sequence needs parentheses when it is an alternative. -/
def isChoice : Expression → Bool
  | .either _ _ => true
  | _ => false

/-- What a quantifier can follow without parentheses. -/
def isSingle : Expression → Bool
  | .literal _ => true
  | .one _ => true
  | _ => false

/-- A text, in parentheses if they are needed. -/
def parenthesized (needed : Bool) (pattern : String) : String :=
  if needed then "(" ++ pattern ++ ")" else pattern

/-- The expression as a pattern text. -/
def pattern : Expression → String
  | .empty => ""
  | .literal c => if isSpecial c then "\\" ++ c.toString else c.toString
  | .one k => k.pattern
  | .seq e f => parenthesized e.isChoice e.pattern ++ parenthesized f.isChoice f.pattern
  | .either e f => e.pattern ++ "|" ++ f.pattern
  | .repeated e least most => parenthesized (!e.isSingle) e.pattern ++ quantifier least most

/-! ## The test decides the language -/

/-- The empty text is described exactly by the nullable expressions. -/
theorem nullable_iff (e : Expression) : e.nullable = true ↔ e.Matches [] := by
  induction e with
  | empty => simp [nullable, Matches]
  | literal c => simp [nullable, Matches]
  | one k => simp [nullable, Matches]
  | seq e f he hf =>
    simp only [nullable, Matches, Bool.and_eq_true, he, hf]
    constructor
    · rintro ⟨hu, hv⟩
      exact ⟨[], [], rfl, hu, hv⟩
    · rintro ⟨u, v, huv, hu, hv⟩
      obtain ⟨rfl, rfl⟩ := List.append_eq_nil_iff.1 huv.symm
      exact ⟨hu, hv⟩
  | either e f he hf => simp [nullable, Matches, he, hf]
  | repeated e least most he =>
    simp only [nullable, Matches, Bool.and_eq_true, Bool.or_eq_true, beq_iff_eq, he]
    constructor
    · rintro ⟨hmost, hleast⟩
      refine ⟨List.replicate least [], by simp, ?_, ?_, by simp⟩
      · rintro n rfl
        simpa using hmost
      · intro u hu
        obtain ⟨hne, rfl⟩ := List.mem_replicate.1 hu
        exact hleast.resolve_left hne
    · rintro ⟨parts, hleast, hmost, hparts, hflat⟩
      constructor
      · cases most with
        | none => rfl
        | some n => simpa using Nat.le_trans hleast (hmost n rfl)
      · cases parts with
        | nil => exact .inl (by simpa using hleast)
        | cons u us =>
          have hu : u = [] := by
            have := hflat.symm
            simp only [List.flatten_cons, List.append_eq_nil_iff] at this
            exact this.1
          exact .inr (hu ▸ hparts u (by simp))

theorem matches_followedBy (e f : Expression) (w : List Char) :
    (e.followedBy f).Matches w ↔ (Expression.seq e f).Matches w := by
  unfold followedBy
  split
  · next h =>
    subst h
    constructor
    · intro hw
      exact ⟨[], w, rfl, rfl, hw⟩
    · rintro ⟨u, v, rfl, hu, hv⟩
      simp only [Matches] at hu
      simpa [hu] using hv
  · exact Iff.rfl

/-- The first part that is not empty starts with the first character of the whole. -/
private theorem exists_of_flatten_eq_cons {c : Char} {w : List Char} {parts : List (List Char)}
    (h : c :: w = parts.flatten) :
    ∃ skipped u rest, parts = skipped ++ (c :: u) :: rest ∧ skipped.flatten = [] ∧
      w = u ++ rest.flatten := by
  induction parts with
  | nil => simp at h
  | cons p ps ih =>
    cases p with
    | nil =>
      obtain ⟨skipped, u, rest, rfl, hs, rfl⟩ := ih (by simpa using h)
      exact ⟨[] :: skipped, u, rest, by simp, by simpa using hs, rfl⟩
    | cons d u =>
      simp only [List.flatten_cons, List.cons_append, List.cons.injEq] at h
      obtain ⟨rfl, rfl⟩ := h
      exact ⟨[], u, ps, by simp, rfl, rfl⟩

/-- A repetition starts with a character exactly when one of its copies does; copies of the empty
text that stand before it can be counted behind it. -/
private theorem matches_repeated_cons (e : Expression) (least : Nat) (most : Option Nat) (c : Char)
    (w : List Char) :
    (Expression.repeated e least most).Matches (c :: w) ↔
      most ≠ some 0 ∧ ∃ u v, w = u ++ v ∧ e.Matches (c :: u) ∧
        (Expression.repeated e (least - 1) (most.map (· - 1))).Matches v := by
  constructor
  · rintro ⟨parts, hleast, hmost, hparts, hflat⟩
    obtain ⟨skipped, u, rest, rfl, hskipped, rfl⟩ := exists_of_flatten_eq_cons hflat
    refine ⟨?_, u, rest.flatten, rfl, hparts _ (by simp), skipped ++ rest, ?_, ?_, ?_, ?_⟩
    · rintro rfl
      have := hmost 0 rfl
      simp at this
    · simp only [List.length_append, List.length_cons] at hleast ⊢
      omega
    · intro n hn
      obtain ⟨m, hm, rfl⟩ := Option.map_eq_some_iff.1 hn
      have := hmost m hm
      simp only [List.length_append, List.length_cons] at this ⊢
      omega
    · intro x hx
      rcases List.mem_append.1 hx with hx | hx
      · exact hparts x (List.mem_append.2 (.inl hx))
      · exact hparts x (List.mem_append.2 (.inr (List.mem_cons_of_mem _ hx)))
    · rw [List.flatten_append, hskipped, List.nil_append]
  · rintro ⟨hne, u, v, rfl, hu, parts, hleast, hmost, hparts, rfl⟩
    refine ⟨(c :: u) :: parts, ?_, ?_, ?_, by simp⟩
    · simp only [List.length_cons]
      omega
    · intro n hn
      have hpos : n ≠ 0 := fun h => hne (h ▸ hn)
      have := hmost (n - 1) (Option.map_eq_some_iff.2 ⟨n, hn, rfl⟩)
      simp only [List.length_cons]
      omega
    · intro x hx
      rcases List.mem_cons.1 hx with rfl | hx
      · exact hu
      · exact hparts x hx

/-- The residues after `c` describe exactly what may follow `c`. -/
theorem exists_mem_residues_iff (c : Char) (e : Expression) (w : List Char) :
    (∃ r ∈ e.residues c, r.Matches w) ↔ e.Matches (c :: w) := by
  induction e generalizing w with
  | empty => simp [residues, Matches]
  | literal d =>
    by_cases h : c = d <;> simp [residues, Matches, h]
  | one k =>
    by_cases h : k.contains c = true
    · simp only [residues, h, if_true, List.mem_singleton, exists_eq_left, Matches]
      constructor
      · rintro rfl
        exact ⟨c, h, rfl⟩
      · rintro ⟨d, -, hd⟩
        simp only [List.cons.injEq] at hd
        exact hd.2
    · simp only [residues, h, Matches]
      constructor
      · simp
      · rintro ⟨d, hd, hcw⟩
        simp only [List.cons.injEq] at hcw
        exact absurd (hcw.1 ▸ hd) h
  | seq e f he hf =>
    constructor
    · rintro ⟨r, hr, hw⟩
      simp only [residues, List.mem_append, List.mem_map] at hr
      rcases hr with ⟨s, hs, rfl⟩ | hr
      · obtain ⟨u, v, rfl, hu, hv⟩ := (matches_followedBy s f w).1 hw
        exact ⟨c :: u, v, rfl, (he u).1 ⟨s, hs, hu⟩, hv⟩
      · by_cases hn : e.nullable = true
        · rw [if_pos hn] at hr
          exact ⟨[], c :: w, rfl, (nullable_iff e).1 hn, (hf w).1 ⟨r, hr, hw⟩⟩
        · rw [if_neg hn] at hr
          simp at hr
    · rintro ⟨u, v, huv, hu, hv⟩
      cases u with
      | nil =>
        simp only [List.nil_append] at huv
        subst huv
        obtain ⟨r, hr, hw⟩ := (hf w).2 hv
        refine ⟨r, ?_, hw⟩
        simp only [residues, List.mem_append]
        exact .inr (by rw [if_pos ((nullable_iff e).2 hu)]; exact hr)
      | cons d u =>
        simp only [List.cons_append, List.cons.injEq] at huv
        obtain ⟨rfl, rfl⟩ := huv
        obtain ⟨s, hs, hu⟩ := (he u).2 hu
        refine ⟨s.followedBy f, ?_, (matches_followedBy s f _).2 ⟨u, v, rfl, hu, hv⟩⟩
        simp only [residues, List.mem_append, List.mem_map]
        exact .inl ⟨s, hs, rfl⟩
  | either e f he hf =>
    simp only [residues, List.mem_append, Matches, ← he, ← hf]
    constructor
    · rintro ⟨r, hr | hr, hw⟩
      · exact .inl ⟨r, hr, hw⟩
      · exact .inr ⟨r, hr, hw⟩
    · rintro (⟨r, hr, hw⟩ | ⟨r, hr, hw⟩)
      · exact ⟨r, .inl hr, hw⟩
      · exact ⟨r, .inr hr, hw⟩
  | repeated e least most he =>
    rw [matches_repeated_cons]
    by_cases hmost : most = some 0
    · simp [residues, hmost]
    · simp only [residues, if_neg hmost, List.mem_map]
      constructor
      · rintro ⟨r, ⟨s, hs, rfl⟩, hw⟩
        obtain ⟨u, v, rfl, hu, hv⟩ := (matches_followedBy s _ w).1 hw
        exact ⟨hmost, u, v, rfl, (he u).1 ⟨s, hs, hu⟩, hv⟩
      · rintro ⟨-, u, v, rfl, hu, hv⟩
        obtain ⟨s, hs, hu⟩ := (he u).2 hu
        exact ⟨_, ⟨s, hs, rfl⟩, (matches_followedBy s _ _).2 ⟨u, v, rfl, hu, hv⟩⟩

private theorem exists_mem_advance_iff (pending : List Expression) (c : Char) (w : List Char) :
    (∃ r ∈ advance pending c, r.Matches w) ↔ ∃ e ∈ pending, e.Matches (c :: w) := by
  simp only [advance, List.mem_eraseDups, List.mem_flatMap, ← exists_mem_residues_iff]
  constructor
  · rintro ⟨r, ⟨e, he, hr⟩, hw⟩
    exact ⟨e, he, r, hr, hw⟩
  · rintro ⟨e, he, r, hr, hw⟩
    exact ⟨r, ⟨e, he, hr⟩, hw⟩

private theorem any_nullable_foldl_advance (pending : List Expression) (w : List Char) :
    (w.foldl advance pending).any nullable = true ↔ ∃ e ∈ pending, e.Matches w := by
  induction w generalizing pending with
  | nil => simp [nullable_iff]
  | cons c w ih => rw [List.foldl_cons, ih, exists_mem_advance_iff]

/-- **The test decides the language**: a text is accepted exactly when the expression describes
it. -/
theorem accepts_iff (e : Expression) (w : List Char) : e.accepts w = true ↔ e.Matches w := by
  simp only [accepts, any_nullable_foldl_advance, List.mem_singleton, exists_eq_left]

end Expression

end Naming
end AssetAudit
