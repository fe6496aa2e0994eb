import AssetAudit.Proofs.FileNames

/-!
# What the names of a style look like

The grammar of a style says how a name is put together from words.  A reader of a name looks at its
characters instead: which may stand first, which may stand behind, and what has to follow an
underscore or a capital.  `Style.Shape` says so for each style, and here the two descriptions are
shown to agree.

## Characters and what follows them

`Everywhere ok w` says that a condition `ok` holds at every character of `w`; the condition is told
the character and everything behind it.  Each grammar continues a first letter by characters of a
word and then by groups, and a group starts where a character of a word does not do.
`matches_many_groups_iff` is the common argument: if every group meets the condition, takes further
characters of a word at its end, and starts wherever the condition lets something else than a
character of a word stand, then these are exactly the texts in which the condition holds everywhere.

## The five styles

The condition is about one character for the styles without separators (`matches_words_iff`), about
a character and the next for those with one separator (`matches_separated_iff`), and looks two
characters ahead behind the underscore of the last style (`matches_pascalUnderscore_iff`).  Put
together they are `Pattern.accepts_folder_iff_shape`.
-/

namespace AssetAudit
namespace Naming

open CharClass

/-! ## The classes as sets of characters -/

namespace CharClass

/-- The capitals are an interval. -/
theorem isUpper_iff {c : Char} : c.isUpper = true ↔ 'A'.val ≤ c.val ∧ c.val ≤ 'Z'.val :=
  decide_eq_true_iff

/-- The small letters are an interval. -/
theorem isLower_iff {c : Char} : c.isLower = true ↔ 'a'.val ≤ c.val ∧ c.val ≤ 'z'.val := by
  have hdef : c.isLower = (decide ('a'.val ≤ c.val) && decide (c.val ≤ 'z'.val)) := rfl
  rw [hdef, Bool.and_eq_true, decide_eq_true_iff, decide_eq_true_iff]

@[simp] theorem contains_upper (c : Char) : upper.contains c = c.isUpper := by
  rw [Bool.eq_iff_iff, isUpper_iff]
  simp [contains, upper, Char.le_def]

@[simp] theorem contains_lower (c : Char) : lower.contains c = c.isLower := by
  rw [Bool.eq_iff_iff, isLower_iff]
  simp [contains, lower, Char.le_def]

@[simp] theorem contains_digit (c : Char) : digit.contains c = c.isDigit := by
  simp [contains, digit, Char.isDigit, Char.le_def]

@[simp] theorem contains_single (s c : Char) : (single s).contains c = (c == s) := by
  rw [Bool.eq_iff_iff, beq_iff_eq]
  simp only [contains, single, List.any_cons, List.any_nil, Bool.or_false, Bool.and_eq_true,
    decide_eq_true_eq]
  constructor
  · rintro ⟨hle, hge⟩
    exact Char.le_antisymm hge hle
  · rintro rfl
    exact ⟨Char.le_refl c, Char.le_refl c⟩

end CharClass

/-! ## Shapes -/

/-- A character that continues a word: a small letter or a digit. -/
def IsWordChar (c : Char) : Prop := c.isLower = true ∨ c.isDigit = true

instance (c : Char) : Decidable (IsWordChar c) := inferInstanceAs (Decidable (_ ∨ _))

theorem not_isWordChar_of_isUpper {c : Char} (h : c.isUpper = true) : ¬ IsWordChar c := by
  rw [CharClass.isUpper_iff] at h
  simp only [IsWordChar, CharClass.isLower_iff, Char.isDigit, Bool.and_eq_true, decide_eq_true_eq,
    UInt32.le_iff_toNat_le, ge_iff_le, not_or] at h ⊢
  have hnine : '9'.val.toNat < 'A'.val.toNat := by decide
  have hz : 'Z'.val.toNat < 'a'.val.toNat := by decide
  omega

theorem isAlphanum_iff {c : Char} : c.isAlphanum = true ↔ c.isUpper = true ∨ IsWordChar c := by
  have hdef : c.isAlphanum = (c.isUpper || c.isLower || c.isDigit) := rfl
  simp [IsWordChar, hdef, or_assoc]

/-- Words of small letters and digits behind a small letter.  No two separators stand side by side,
and none stands at the end. -/
structure IsSeparated (separator : Char) (name : List Char) : Prop where
  first : ∃ c rest, name = c :: rest ∧ c.isLower = true
  allowed : ∀ c ∈ name, IsWordChar c ∨ c = separator
  apart : ¬ [separator, separator] <:+: name
  last : name.getLast? ≠ some separator

/-- Words that start with a capital, some of them behind an underscore.  An underscore is followed
by a capital or a digit and a further character of that word, and only the first word may be a
capital alone. -/
structure IsCapitalised (name : List Char) : Prop where
  first : ∃ c rest, name = c :: rest ∧ c.isUpper = true
  allowed : ∀ c ∈ name, c.isAlphanum = true ∨ c = '_'
  underscore : ∀ front rest, name = front ++ '_' :: rest →
    ∃ c d more, rest = c :: d :: more ∧ (c.isUpper = true ∨ c.isDigit = true) ∧ IsWordChar d
  capital : ∀ front c rest, name = front ++ c :: rest → front ≠ [] → c.isUpper = true →
    ∃ d more, rest = d :: more ∧ IsWordChar d

/-- **What a name of the style looks like**, character by character. -/
def Style.Shape : Style → List Char → Prop
  | .pascalCase, name =>
      ∃ c rest, name = c :: rest ∧ c.isUpper = true ∧ ∀ d ∈ rest, d.isAlphanum = true
  | .camelCase, name =>
      ∃ c rest, name = c :: rest ∧ c.isLower = true ∧ ∀ d ∈ rest, d.isAlphanum = true
  | .snakeCase, name => IsSeparated '_' name
  | .kebabCase, name => IsSeparated '-' name
  | .pascalUnderscore, name => IsCapitalised name

/-! ## Conditions on every character -/

/-- Does the condition hold at every character of the text?  It is told the character and what
follows it. -/
def Everywhere (ok : Char → List Char → Prop) : List Char → Prop
  | [] => True
  | c :: rest => ok c rest ∧ Everywhere ok rest

section Everywhere

variable {ok : Char → List Char → Prop}

theorem Everywhere.of_append {u v : List Char} (h : Everywhere ok (u ++ v)) : Everywhere ok v := by
  induction u with
  | nil => exact h
  | cons c u ih => exact ih h.2

/-- The condition holds wherever the text is cut. -/
theorem everywhere_iff {w : List Char} :
    Everywhere ok w ↔ ∀ front c rest, w = front ++ c :: rest → ok c rest := by
  constructor
  · rintro h front c rest rfl
    exact h.of_append.1
  · intro h
    induction w with
    | nil => trivial
    | cons c w ih =>
      exact ⟨h [] c w rfl, ih fun front d rest hcut => h (c :: front) d rest (by rw [hcut]; rfl)⟩

/-- A condition that more text does not break holds in two texts one after the other. -/
theorem Everywhere.append (hmore : ∀ c rest more, ok c rest → ok c (rest ++ more)) {u v : List Char}
    (hu : Everywhere ok u) (hv : Everywhere ok v) : Everywhere ok (u ++ v) := by
  induction u with
  | nil => exact hv
  | cons c u ih => exact ⟨hmore c u v hu.1, ih hu.2⟩

theorem everywhere_of_forall {w : List Char} (h : ∀ c ∈ w, ∀ rest, ok c rest) : Everywhere ok w :=
  everywhere_iff.mpr fun _ c rest hcut => h c (hcut ▸ by simp) rest

end Everywhere

/-! ## Words and groups -/

namespace Expression

theorem matches_seq_assoc {e f g : Expression} {w : List Char} :
    (Expression.seq (.seq e f) g).Matches w ↔ (Expression.seq e (.seq f g)).Matches w := by
  constructor
  · rintro ⟨_, x, rfl, ⟨u, v, rfl, hu, hv⟩, hx⟩
    exact ⟨u, v ++ x, by rw [List.append_assoc], hu, v, x, rfl, hv, hx⟩
  · rintro ⟨u, _, rfl, hu, v, x, rfl, hv, hx⟩
    exact ⟨u ++ v, x, by rw [List.append_assoc], ⟨u, v, rfl, hu, hv⟩, hx⟩

/-- A character of a class stands in front. -/
theorem matches_one_seq_iff {k : CharClass} {f : Expression} {w : List Char} :
    (Expression.seq (.one k) f).Matches w ↔
      ∃ c rest, w = c :: rest ∧ k.contains c = true ∧ f.Matches rest := by
  constructor
  · rintro ⟨_, rest, rfl, ⟨c, hc, rfl⟩, hrest⟩
    exact ⟨c, rest, rfl, hc, hrest⟩
  · rintro ⟨c, rest, rfl, hc, hrest⟩
    exact ⟨[c], rest, rfl, ⟨c, hc, rfl⟩, hrest⟩

theorem matches_optional_one_iff {k : CharClass} {w : List Char} :
    (optional (.one k)).Matches w ↔ w = [] ∨ ∃ c, k.contains c = true ∧ w = [c] := by
  rw [optional, matches_repeated_one_iff]
  constructor
  · rintro ⟨-, hmost, hw⟩
    rcases w with _ | ⟨c, _ | ⟨d, rest⟩⟩
    · exact .inl rfl
    · exact .inr ⟨c, hw c List.mem_cons_self, rfl⟩
    · simpa using hmost 1 rfl
  · rintro (rfl | ⟨c, hc, rfl⟩) <;> simp [*]

/-- The characters of a word. -/
theorem contains_wordRest_iff {c : Char} : Style.wordRest.contains c = true ↔ IsWordChar c := by
  simp [Style.wordRest, IsWordChar]

/-- A word ends in at least so many of its characters. -/
theorem matches_wordRest_iff {least : Nat} {w : List Char} :
    (Expression.repeated (.one Style.wordRest) least none).Matches w ↔
      least ≤ w.length ∧ ∀ c ∈ w, IsWordChar c := by
  simp [matches_repeated_one_iff, contains_wordRest_iff]

/-- What ends in characters of a word can end in more of them. -/
theorem matches_seq_wordRest_append {e : Expression} {least : Nat} {x u : List Char}
    (hx : (Expression.seq e (.repeated (.one Style.wordRest) least none)).Matches x)
    (hu : ∀ c ∈ u, IsWordChar c) :
    (Expression.seq e (.repeated (.one Style.wordRest) least none)).Matches (x ++ u) := by
  obtain ⟨a, b, rfl, ha, hb⟩ := hx
  obtain ⟨hleast, hword⟩ := matches_wordRest_iff.mp hb
  refine ⟨a, b ++ u, by rw [List.append_assoc], ha, matches_wordRest_iff.mpr ⟨?_, ?_⟩⟩
  · rw [List.length_append]
    omega
  · intro c hc
    exact (List.mem_append.mp hc).elim (hword c) (hu c)

/-- **Groups and conditions.**  Characters of a word are always in order, every group is in order,
can take further characters of a word, and stands wherever something else than a character of a word
is in order.  Then characters of a word with groups behind them are the texts that are in order
everywhere. -/
theorem matches_many_groups_iff {group : Expression} {ok : Char → List Char → Prop}
    (hmore : ∀ c rest more, ok c rest → ok c (rest ++ more))
    (hword : ∀ c rest, IsWordChar c → ok c rest)
    (hgroup : ∀ x, group.Matches x → Everywhere ok x)
    (hextend : ∀ x u, group.Matches x → (∀ c ∈ u, IsWordChar c) → group.Matches (x ++ u))
    (hstart : ∀ c rest, ok c rest → ¬ IsWordChar c →
      ∃ x more, c :: rest = x ++ more ∧ x ≠ [] ∧ group.Matches x) {w : List Char} :
    (Expression.seq (many (.one Style.wordRest)) (many group)).Matches w ↔ Everywhere ok w := by
  constructor
  · rintro ⟨u, _, rfl, hu, parts, -, -, hparts, rfl⟩
    have hfront : Everywhere ok u :=
      everywhere_of_forall fun c hc rest => hword c rest ((matches_wordRest_iff.mp hu).2 c hc)
    refine hfront.append hmore ?_
    clear hu hfront
    induction parts with
    | nil => trivial
    | cons x parts ih =>
      rw [List.flatten_cons]
      exact (hgroup x (hparts x List.mem_cons_self)).append hmore
        (ih fun y hy => hparts y (List.mem_cons_of_mem _ hy))
  · -- A group is cut off as short as it starts, and takes the characters of a word that follow.
    induction hn : w.length using Nat.strongRecOn generalizing w with
    | ind n ih =>
      intro hw
      have hnone : (many group).Matches [] := ⟨[], by simp, by simp, by simp, rfl⟩
      cases w with
      | nil => exact ⟨[], [], rfl, matches_wordRest_iff.mpr (by simp), hnone⟩
      | cons c rest =>
        by_cases hc : IsWordChar c
        · obtain ⟨u, v, rfl, hu, hv⟩ := ih rest.length (by simp [← hn]) rfl hw.2
          refine ⟨c :: u, v, rfl, matches_wordRest_iff.mpr ⟨Nat.zero_le _, ?_⟩, hv⟩
          exact List.forall_mem_cons.mpr ⟨hc, (matches_wordRest_iff.mp hu).2⟩
        · obtain ⟨x, more, hcut, hx, hgroup⟩ := hstart c rest hw.1 hc
          rw [hcut] at hn hw ⊢
          have hshorter : more.length < n := by
            have := List.length_pos_iff.mpr hx
            rw [List.length_append] at hn
            omega
          obtain ⟨u, v, rfl, hu, parts, -, -, hparts, rfl⟩ :=
            ih more.length hshorter rfl hw.of_append
          refine ⟨[], x ++ (u ++ parts.flatten), rfl, matches_wordRest_iff.mpr (by simp),
            (x ++ u) :: parts, Nat.zero_le _, by simp, ?_, by simp⟩
          exact List.forall_mem_cons.mpr
            ⟨hextend x u hgroup (matches_wordRest_iff.mp hu).2, hparts⟩

end Expression

open Expression (matches_seq_assoc matches_one_seq_iff matches_optional_one_iff matches_wordRest_iff
  matches_seq_wordRest_append matches_many_groups_iff)

/-! ## The grammars -/

namespace Style

/-- Characters of a word with capitalised words behind them are letters and digits in any order. -/
theorem matches_words_iff {w : List Char} :
    (Expression.seq (.many (.one wordRest)) (.many capitalised)).Matches w ↔
      ∀ c ∈ w, c.isAlphanum = true := by
  have hword (c : Char) (h : IsWordChar c) : c.isAlphanum = true := isAlphanum_iff.mpr (.inr h)
  have hgroups : (Expression.seq (.many (.one wordRest)) (.many capitalised)).Matches w ↔
      Everywhere (fun c _ => c.isAlphanum = true) w := by
    refine matches_many_groups_iff (fun _ _ _ h => h) (fun c _ => hword c) ?_
      (fun _ _ hx hu => matches_seq_wordRest_append hx hu) ?_
    · intro x hx
      obtain ⟨c, rest, rfl, hc, hrest⟩ := matches_one_seq_iff.mp hx
      rw [contains_upper] at hc
      refine ⟨isAlphanum_iff.mpr (.inl hc), everywhere_of_forall fun d hd _ => ?_⟩
      exact hword d ((matches_wordRest_iff.mp hrest).2 d hd)
    · intro c rest hc hnot
      have hupper : upper.contains c = true := by
        simpa using (isAlphanum_iff.mp hc).resolve_right hnot
      exact ⟨[c], rest, rfl, List.cons_ne_nil c [],
        matches_one_seq_iff.mpr ⟨c, [], rfl, hupper, matches_wordRest_iff.mpr (by simp)⟩⟩
  rw [hgroups, everywhere_iff]
  constructor
  · intro h c hc
    obtain ⟨front, rest, hcut⟩ := List.append_of_mem hc
    exact h front c rest hcut
  · rintro h front c rest rfl
    exact h c (by simp)

/-- What follows a character in a text whose words stand behind single separators. -/
def SeparatorEnds (separator c : Char) (rest : List Char) : Prop :=
  IsWordChar c ∨ c = separator ∧ ∃ d more, rest = d :: more ∧ IsWordChar d

/-- Characters of a word with separated words behind them: behind each separator stands a character
of a word. -/
theorem matches_separated_iff {separator : Char} {w : List Char} :
    (Expression.seq (.many (.one wordRest)) (.many (.seq (.optional (.one (single separator)))
      (.oneOrMore (.one wordRest))))).Matches w ↔ Everywhere (SeparatorEnds separator) w := by
  refine matches_many_groups_iff ?_ (fun _ _ h => .inl h) ?_
    (fun _ _ hx hu => matches_seq_wordRest_append hx hu) ?_
  · rintro c rest more (hc | ⟨rfl, d, after, rfl, hd⟩)
    · exact .inl hc
    · exact .inr ⟨rfl, d, after ++ more, rfl, hd⟩
  · rintro _ ⟨a, b, rfl, ha, hb⟩
    obtain ⟨hlength, hword⟩ := matches_wordRest_iff.mp hb
    obtain ⟨d, more, rfl⟩ := List.exists_cons_of_length_pos hlength
    have hb : Everywhere (SeparatorEnds separator) (d :: more) :=
      everywhere_of_forall fun c hc _ => .inl (hword c hc)
    rcases matches_optional_one_iff.mp ha with rfl | ⟨c, hc, rfl⟩
    · exact hb
    · rw [contains_single, beq_iff_eq] at hc
      exact ⟨.inr ⟨hc, d, more, rfl, hword d List.mem_cons_self⟩, hb⟩
  · rintro c rest (hc | ⟨rfl, d, more, rfl, hd⟩) hnot
    · exact absurd hc hnot
    · refine ⟨[c, d], more, rfl, List.cons_ne_nil c [d], [c], [d], rfl, ?_, ?_⟩
      · exact matches_optional_one_iff.mpr (.inr ⟨c, by simp, rfl⟩)
      · exact matches_wordRest_iff.mpr ⟨Nat.le_refl 1, by simpa using hd⟩

/-- What follows a character in a text of capitalised words, some behind an underscore. -/
def CapitalEnds (c : Char) (rest : List Char) : Prop :=
  IsWordChar c ∨ (c.isUpper = true ∧ ∃ d more, rest = d :: more ∧ IsWordChar d) ∨
    c = '_' ∧ ∃ d e more, rest = d :: e :: more ∧ (d.isUpper = true ∨ d.isDigit = true) ∧
      IsWordChar e

/-- Characters of a word with capitalised words behind them, some of which stand behind an
underscore. -/
theorem matches_pascalUnderscore_iff {w : List Char} :
    (Expression.seq (.many (.one wordRest)) (.many (.seq (.optional (.one (single '_')))
      (.seq (.one (upper.union digit)) (.oneOrMore (.one wordRest)))))).Matches w ↔
        Everywhere CapitalEnds w := by
  have hstarts (c : Char) : (upper.union digit).contains c = true ↔
      c.isUpper = true ∨ c.isDigit = true := by simp
  refine matches_many_groups_iff ?_ (fun _ _ h => .inl h) ?_ ?_ ?_
  · rintro c rest more (hc | ⟨hc, d, after, rfl, hd⟩ | ⟨rfl, d, e, after, rfl, hd⟩)
    · exact .inl hc
    · exact .inr (.inl ⟨hc, d, after ++ more, rfl, hd⟩)
    · exact .inr (.inr ⟨rfl, d, e, after ++ more, rfl, hd⟩)
  · rintro _ ⟨a, y, rfl, ha, hy⟩
    obtain ⟨c, b, rfl, hc, hb⟩ := matches_one_seq_iff.mp hy
    obtain ⟨hlength, hword⟩ := matches_wordRest_iff.mp hb
    obtain ⟨d, more, rfl⟩ := List.exists_cons_of_length_pos hlength
    have hd := hword d List.mem_cons_self
    have hcapital : Everywhere CapitalEnds (c :: d :: more) := by
      refine ⟨?_, everywhere_of_forall fun e he _ => .inl (hword e he)⟩
      rcases (hstarts c).mp hc with hupper | hdigit
      · exact .inr (.inl ⟨hupper, d, more, rfl, hd⟩)
      · exact .inl (.inr hdigit)
    rcases matches_optional_one_iff.mp ha with rfl | ⟨s, hs, rfl⟩
    · exact hcapital
    · rw [contains_single, beq_iff_eq] at hs
      exact ⟨.inr (.inr ⟨hs, c, d, more, rfl, (hstarts c).mp hc, hd⟩), hcapital⟩
  · rintro _ u ⟨a, y, rfl, ha, hy⟩ hu
    exact ⟨a, y ++ u, by rw [List.append_assoc], ha, matches_seq_wordRest_append hy hu⟩
  · rintro c rest (hc | ⟨hc, d, more, rfl, hd⟩ | ⟨rfl, d, e, more, rfl, hd, he⟩) hnot
    · exact absurd hc hnot
    · refine ⟨[c, d], more, rfl, List.cons_ne_nil c [d], [], [c, d], rfl, ?_, ?_⟩
      · exact matches_optional_one_iff.mpr (.inl rfl)
      · exact matches_one_seq_iff.mpr ⟨c, [d], rfl, (hstarts c).mpr (.inl hc),
          matches_wordRest_iff.mpr ⟨Nat.le_refl 1, by simpa using hd⟩⟩
    · refine ⟨['_', d, e], more, rfl, List.cons_ne_nil '_' [d, e], ['_'], [d, e], rfl, ?_, ?_⟩
      · exact matches_optional_one_iff.mpr (.inr ⟨'_', by simp, rfl⟩)
      · exact matches_one_seq_iff.mpr ⟨d, [e], rfl, (hstarts d).mpr hd,
          matches_wordRest_iff.mpr ⟨Nat.le_refl 1, by simpa using he⟩⟩

/-! ## From conditions to shapes -/

/-- Single separators stand apart and not at the end. -/
theorem isSeparated_cons_iff {separator first : Char} {rest : List Char}
    (hseparator : ¬ IsWordChar separator) :
    IsSeparated separator (first :: rest) ↔
      first.isLower = true ∧ Everywhere (SeparatorEnds separator) rest := by
  have hfirst {c : Char} (hc : c.isLower = true) : c ≠ separator := by
    rintro rfl
    exact hseparator (.inl hc)
  constructor
  · rintro ⟨⟨_, _, hname, hlower⟩, hallowed, hapart, hlast⟩
    obtain ⟨rfl, rfl⟩ := List.cons.inj hname
    refine ⟨hlower, everywhere_iff.mpr ?_⟩
    rintro front c more rfl
    rcases hallowed c (by simp) with hc | rfl
    · exact .inl hc
    -- A separator is neither the last character nor does it stand before another one.
    · cases more with
      | nil =>
        refine absurd ?_ hlast
        rw [← List.cons_append, List.getLast?_concat]
      | cons d more =>
        refine .inr ⟨rfl, d, more, rfl, (hallowed d (by simp)).resolve_right ?_⟩
        rintro rfl
        exact hapart ⟨first :: front, more, by simp⟩
  · rintro ⟨hlower, hends⟩
    rw [everywhere_iff] at hends
    refine ⟨⟨first, rest, rfl, hlower⟩, ?_, ?_, ?_⟩
    · refine List.forall_mem_cons.mpr ⟨.inl (.inl hlower), fun c hc => ?_⟩
      obtain ⟨front, more, hcut⟩ := List.append_of_mem hc
      exact (hends front c more hcut).imp_right And.left
    · rintro ⟨front, more, hcut⟩
      cases front with
      | nil => exact hfirst hlower (List.cons.inj hcut).1.symm
      | cons _ front =>
        have hrest : rest = front ++ separator :: separator :: more := by
          simpa using (List.cons.inj hcut).2.symm
        rcases hends front separator _ hrest with hword | ⟨-, d, after, hafter, hd⟩
        · exact hseparator hword
        · exact hseparator ((List.cons.inj hafter).1 ▸ hd)
    · intro hlast
      obtain ⟨front, hcut⟩ := List.getLast?_eq_some_iff.mp hlast
      cases front with
      | nil => exact hfirst hlower (List.cons.inj hcut).1
      | cons _ front =>
        rcases hends front separator [] (List.cons.inj hcut).2 with hword | ⟨-, d, after, hafter, -⟩
        · exact hseparator hword
        · cases hafter

/-- Behind the first capital, capitals and underscores are followed by what they need. -/
theorem isCapitalised_cons_iff {first : Char} {rest : List Char} :
    IsCapitalised (first :: rest) ↔ first.isUpper = true ∧ Everywhere CapitalEnds rest := by
  have hunderscore : ¬ IsWordChar '_' := by decide
  constructor
  · rintro ⟨⟨_, _, hname, hupper⟩, hallowed, hbehind, hcapital⟩
    obtain ⟨rfl, rfl⟩ := List.cons.inj hname
    refine ⟨hupper, everywhere_iff.mpr ?_⟩
    rintro front c more rfl
    rcases hallowed c (by simp) with hc | rfl
    · rcases isAlphanum_iff.mp hc with hc | hc
      · exact .inr (.inl ⟨hc, hcapital (first :: front) c more rfl (List.cons_ne_nil _ _) hc⟩)
      · exact .inl hc
    · exact .inr (.inr ⟨rfl, hbehind (first :: front) more rfl⟩)
  · rintro ⟨hupper, hends⟩
    rw [everywhere_iff] at hends
    refine ⟨⟨first, rest, rfl, hupper⟩, ?_, ?_, ?_⟩
    · refine List.forall_mem_cons.mpr ⟨.inl (isAlphanum_iff.mpr (.inl hupper)), fun c hc => ?_⟩
      obtain ⟨front, more, hcut⟩ := List.append_of_mem hc
      rcases hends front c more hcut with hc | ⟨hc, -⟩ | ⟨rfl, -⟩
      · exact .inl (isAlphanum_iff.mpr (.inr hc))
      · exact .inl (isAlphanum_iff.mpr (.inl hc))
      · exact .inr rfl
    · intro front more hcut
      cases front with
      | nil =>
        rw [(List.cons.inj hcut).1] at hupper
        cases hupper
      | cons _ front =>
        rcases hends front '_' more (List.cons.inj hcut).2 with hc | ⟨hc, -⟩ | ⟨-, hafter⟩
        · exact absurd hc hunderscore
        · cases hc
        · exact hafter
    · intro front c more hcut hfront hc
      cases front with
      | nil => exact absurd rfl hfront
      | cons _ front =>
        rcases hends front c more (List.cons.inj hcut).2 with hword | ⟨-, hafter⟩ | ⟨rfl, -⟩
        · exact absurd hword (not_isWordChar_of_isUpper hc)
        · exact hafter
        · cases hc

/-- **The grammar of a style describes its shape.** -/
theorem matches_grammar_iff {style : Style} {w : List Char} :
    style.grammar.Matches w ↔ style.Shape w := by
  have hfirst {k : CharClass} {tail : Expression} :
      (Expression.seq (.seq (.one k) (.many (.one wordRest))) tail).Matches w ↔
        ∃ c rest, w = c :: rest ∧ k.contains c = true ∧
          (Expression.seq (.many (.one wordRest)) tail).Matches rest := by
    rw [matches_seq_assoc, matches_one_seq_iff]
  have hseparated {separator : Char} (hseparator : ¬ IsWordChar separator) :
      (separated separator).Matches w ↔ IsSeparated separator w := by
    rw [separated, uncapitalised, hfirst]
    simp only [contains_lower, matches_separated_iff]
    constructor
    · rintro ⟨c, rest, rfl, h⟩
      exact (isSeparated_cons_iff hseparator).mpr h
    · intro h
      obtain ⟨c, rest, rfl, -⟩ := h.first
      exact ⟨c, rest, rfl, (isSeparated_cons_iff hseparator).mp h⟩
  cases style with
  | pascalCase =>
    rw [grammar, capitalised, hfirst, ← capitalised]
    simp only [contains_upper, matches_words_iff, Shape]
  | camelCase =>
    rw [grammar, uncapitalised, hfirst]
    simp only [contains_lower, matches_words_iff, Shape]
  | snakeCase => exact hseparated (by decide)
  | kebabCase => exact hseparated (by decide)
  | pascalUnderscore =>
    rw [grammar, capitalised, hfirst]
    simp only [contains_upper, matches_pascalUnderscore_iff]
    constructor
    · rintro ⟨c, rest, rfl, h⟩
      exact isCapitalised_cons_iff.mpr h
    · intro h
      obtain ⟨c, rest, rfl, -⟩ := IsCapitalised.first h
      exact ⟨c, rest, rfl, isCapitalised_cons_iff.mp h⟩

end Style

/-- **The names of a style.**  A folder name is accepted exactly if it has the shape of the style:
in the order of the selectors,

* a capital, and behind it letters and digits;
* a small letter, and behind it letters and digits;
* a small letter, and behind it small letters, digits and underscores, no two underscores side by
  side and none at the end;
* the same with hyphens;
* a capital, and behind it letters, digits and underscores, each underscore before a capital or a
  digit with a small letter or a digit behind that, and each further capital before a small letter
  or a digit. -/
theorem Pattern.accepts_folder_iff_shape (style : Style) (name : String) :
    (Pattern.mk style .folder).accepts name = true ↔ style.Shape name.toList := by
  rw [accepts_folder_iff, Style.matches_grammar_iff]

end Naming
end AssetAudit
