import AssetAudit.SmallLetters

/-!
# Small letters beyond ASCII

Extensions, and the names of checks, are made small with all that Unicode knows before they are
looked up.  Making small the ASCII letters alone would have the same outcome, because no word of the
program holds a `k`.

* `eq_of_mem_smallForms` is the fact about the table: it says what a small form of a character
  beyond ASCII looks like.  Such a form has a character beyond ASCII itself, or it is the `k` that
  belongs to the Kelvin sign (`exists_mem_of_mem_smallForms`).
* `LowersTo` puts the small forms of characters together to the small forms of a text, whichever
  form each sigma takes.  `lowersTo_lowercase`: the form that the program computes is one of them.
* `LowersTo.eq_iff`: a text has an ASCII word without `k` as its small form exactly if it is the
  word after its ASCII letters have been made small.
* `LowersTo.map_toLower`: in a small form there are no capital ASCII letters left, so comparing it
  without regard to them is comparing it.
-/

namespace AssetAudit

/-! ## The small forms of characters -/

/-- What `LowersTo.eq_iff` needs of a range.  Its small letters are characters beyond ASCII, or its
only capital letter is the Kelvin sign. -/
def CapitalRange.StaysBeyondAscii (r : CapitalRange) : Prop :=
  (r.small + (r.last - r.first) < 0xD800 ∨
      0xDFFF < r.small ∧ r.small + (r.last - r.first) < 0x110000) ∧
    (0x80 ≤ r.small ∨ r.small = 'k'.toNat ∧ r.last = r.first)

instance (r : CapitalRange) : Decidable r.StaysBeyondAscii := inferInstanceAs (Decidable (_ ∧ _))

theorem staysBeyondAscii_of_mem : ∀ r ∈ capitalRanges, r.StaysBeyondAscii := by
  decide +kernel

/-- The small letter of a character stands where the range says. -/
theorem CapitalRange.StaysBeyondAscii.smallLetter {r : CapitalRange} (h : r.StaysBeyondAscii)
    {c : Char} (hc : r.covers c = true) :
    0x80 ≤ (r.smallLetter c).toNat ∨ r.smallLetter c = 'k' := by
  obtain ⟨hvalid, hsmall⟩ := h
  simp only [covers, Bool.and_eq_true, decide_eq_true_eq] at hc
  obtain ⟨⟨hfirst, hlast⟩, -⟩ := hc
  have hcode : (r.small + (c.toNat - r.first)).isValidChar := by
    rw [Nat.isValidChar]
    omega
  have htoNat : (r.smallLetter c).toNat = r.small + (c.toNat - r.first) := by
    rw [CapitalRange.smallLetter, Char.ofNat, dif_pos hcode]
    rfl
  rcases hsmall with hsmall | ⟨hsmall, hsingle⟩
  · left
    rw [htoNat]
    omega
  · right
    have hzero : c.toNat - r.first = 0 := by omega
    rw [CapitalRange.smallLetter, hzero, hsmall]
    rfl

theorem toLower_eq_self {c : Char} (hc : 0x80 ≤ c.toNat) : c.toLower = c := by
  have hval : 0x80 ≤ c.val.toNat := hc
  have hsmall : ¬(c.val ≥ 'A'.val ∧ c.val ≤ 'Z'.val) := by
    rintro ⟨-, hle⟩
    have hle' : c.val.toNat ≤ 90 := UInt32.le_iff_toNat_le.mp hle
    omega
  exact dif_neg hsmall

/-- A small letter stays as it is. -/
theorem toLower_toLower (c : Char) : c.toLower.toLower = c.toLower := by
  by_cases h : c.val ≥ 'A'.val ∧ c.val ≤ 'Z'.val
  · have hval : c.toLower.val = c.val + ('a'.val - 'A'.val) := congrArg Char.val (dif_pos h)
    have hfirst : 65 ≤ c.val.toNat := UInt32.le_iff_toNat_le.mp h.1
    have hlast : c.val.toNat ≤ 90 := UInt32.le_iff_toNat_le.mp h.2
    have hdistance : ('a'.val - 'A'.val).toNat = 32 := rfl
    have hcode : c.toLower.val.toNat = c.val.toNat + 32 := by
      rw [hval, UInt32.toNat_add, hdistance]
      exact Nat.mod_eq_of_lt (by omega)
    refine dif_neg ?_
    rintro ⟨-, hle⟩
    have hle' : c.toLower.val.toNat ≤ 90 := UInt32.le_iff_toNat_le.mp hle
    omega
  · have hself : c.toLower = c := dif_neg h
    rw [hself, hself]

/-- Among ASCII, capital letters have their small letters and nothing else changes. -/
theorem smallForms_of_ascii {c : Char} (hc : c.toNat < 0x80) : smallForms c = [[c.toLower]] :=
  if_pos hc

/-- **The small forms of a character beyond ASCII.**  The dotted `I` has two characters in its small
form.  All others have one, which is beyond ASCII too, or the `k` of the Kelvin sign. -/
theorem eq_of_mem_smallForms {c : Char} (hc : 0x80 ≤ c.toNat) {form : List Char}
    (h : form ∈ smallForms c) :
    form = ['i', Char.ofNat 0x307] ∨ ∃ d, form = [d] ∧ (0x80 ≤ d.toNat ∨ d = 'k') := by
  rw [smallForms, if_neg (Nat.not_lt.mpr hc)] at h
  split at h
  · exact .inl (List.mem_singleton.mp h)
  · right
    split at h
    · simp only [List.mem_cons, List.not_mem_nil, or_false] at h
      rcases h with rfl | rfl
      · exact ⟨_, rfl, by decide⟩
      · exact ⟨_, rfl, by decide⟩
    · split at h
      · next r hr =>
        have hstays := staysBeyondAscii_of_mem r (List.mem_of_find?_eq_some hr)
        have hcovers : r.covers c = true := by simpa using List.find?_some hr
        exact ⟨_, List.mem_singleton.mp h, hstays.smallLetter hcovers⟩
      · exact ⟨c, List.mem_singleton.mp h, .inl hc⟩

/-- **No small form of a character beyond ASCII is ASCII**, apart from the `k` of the Kelvin
sign. -/
theorem exists_mem_of_mem_smallForms {c : Char} (hc : 0x80 ≤ c.toNat) {form : List Char}
    (h : form ∈ smallForms c) : ∃ d ∈ form, 0x80 ≤ d.toNat ∨ d = 'k' := by
  rcases eq_of_mem_smallForms hc h with rfl | ⟨d, rfl, hd⟩
  · exact ⟨Char.ofNat 0x307, by simp, by decide⟩
  · exact ⟨d, List.mem_cons_self, hd⟩

/-- No small form has a capital ASCII letter in it. -/
theorem toLower_of_mem_smallForms {c d : Char} {form : List Char} (hform : form ∈ smallForms c)
    (hd : d ∈ form) : d.toLower = d := by
  rcases Nat.lt_or_ge c.toNat 0x80 with hc | hc
  · rw [smallForms_of_ascii hc, List.mem_singleton] at hform
    rw [hform, List.mem_singleton] at hd
    rw [hd, toLower_toLower]
  · rcases eq_of_mem_smallForms hc hform with rfl | ⟨e, rfl, he⟩
    · simp only [List.mem_cons, List.not_mem_nil, or_false] at hd
      rcases hd with rfl | rfl
      · decide
      · decide
    · rw [List.mem_singleton.mp hd]
      rcases he with he | rfl
      · exact toLower_eq_self he
      · decide

/-- Every character has a small form. -/
theorem headD_mem_smallForms (c : Char) : (smallForms c).headD [c] ∈ smallForms c := by
  unfold smallForms
  repeat' split
  all_goals exact List.mem_cons_self

/-- The Kelvin sign is where Unicode and ASCII differ about a letter of the alphabet. -/
example : smallForms (Char.ofNat 0x212A) = [['k']] ∧ (Char.ofNat 0x212A).toLower ≠ 'k' := by
  decide +kernel

/-! ## The small forms of texts -/

/-- The second text consists of small forms of the characters of the first. -/
inductive LowersTo : List Char → List Char → Prop where
  | nil : LowersTo [] []
  | cons {c : Char} {form text lowered : List Char} (hform : form ∈ smallForms c)
      (hrest : LowersTo text lowered) : LowersTo (c :: text) (form ++ lowered)

/-- **What the program computes is a small form.** -/
theorem lowersTo_lowercase (text : String) : LowersTo text.toList (lowercase text).toList := by
  rw [lowercase, String.toList_ofList]
  induction text.toList with
  | nil => exact .nil
  | cons c text ih =>
    rw [List.flatMap_cons]
    exact .cons (headD_mem_smallForms c) ih

/-- An ASCII text has its small ASCII letters as a small form. -/
theorem lowersTo_map_toLower {text : List Char} (h : ∀ c ∈ text, c.toNat < 0x80) :
    LowersTo text (text.map Char.toLower) := by
  induction text with
  | nil => exact .nil
  | cons c text ih =>
    have hform : [c.toLower] ∈ smallForms c := by
      rw [smallForms_of_ascii (h c List.mem_cons_self)]
      exact List.mem_cons_self
    exact .cons hform (ih fun d hd => h d (List.mem_cons_of_mem c hd))

/-- A word that is compared with small forms: it is ASCII, without a `k`. -/
def IsAsciiWithoutK (word : List Char) : Prop := ∀ d ∈ word, d.toNat < 0x80 ∧ d ≠ 'k'

instance (word : List Char) : Decidable (IsAsciiWithoutK word) :=
  decidable_of_iff (word.all (fun d => decide (d.toNat < 0x80) && d != 'k') = true)
    (by simp [IsAsciiWithoutK])

/-- **Small letters beyond ASCII make no difference** when a text is compared with an
ASCII word without `k`. -/
theorem LowersTo.eq_iff {text lowered word : List Char} (h : LowersTo text lowered)
    (hword : IsAsciiWithoutK word) : lowered = word ↔ text.map Char.toLower = word := by
  induction h generalizing word with
  | nil => rfl
  | @cons c form text lowered hform hrest ih =>
    rcases Nat.lt_or_ge c.toNat 0x80 with hc | hc
    · rw [smallForms_of_ascii hc, List.mem_singleton] at hform
      rw [hform, List.singleton_append, List.map_cons]
      cases word with
      | nil => simp
      | cons d word =>
        have hrestWord : IsAsciiWithoutK word := fun e he => hword e (List.mem_cons_of_mem d he)
        rw [List.cons.injEq, List.cons.injEq, ih hrestWord]
    · -- Neither side can be the word: both hold a character that it does not hold.
      obtain ⟨d, hd, hbeyond⟩ := exists_mem_of_mem_smallForms hc hform
      constructor
      · rintro rfl
        obtain ⟨hascii, hk⟩ := hword d (List.mem_append_left _ hd)
        rcases hbeyond with hbeyond | rfl
        · exact absurd hascii (Nat.not_lt.mpr hbeyond)
        · exact absurd rfl hk
      · rintro rfl
        rw [List.map_cons, toLower_eq_self hc] at hword
        exact absurd (hword c List.mem_cons_self).1 (Nat.not_lt.mpr hc)

/-- A small form stays as it is when its ASCII letters are made small. -/
theorem LowersTo.map_toLower {text lowered : List Char} (h : LowersTo text lowered) :
    lowered.map Char.toLower = lowered := by
  induction h with
  | nil => rfl
  | cons hform hrest ih =>
    rw [List.map_append, ih, List.map_congr_left fun d hd => toLower_of_mem_smallForms hform hd,
      List.map_id']

end AssetAudit
