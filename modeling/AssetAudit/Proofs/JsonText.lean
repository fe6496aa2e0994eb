import AssetAudit.Json.Printer
import AssetAudit.Proofs.JsonTokens
import Mathlib.Tactic.SplitIfs
import Mathlib.Tactic.ByContra

/-!
# Written values are read back

The printer writes a value without blanks or over several lines, and the reader takes the text one
character at a time.  This file follows the reader through what the printer writes, from the inside
outwards.

* `Number.ofText?_toList_print`: a number is read back from its digits, decimals and power of ten.
* `Token.Reader.foldlM_step_printLiteral`: inside a string every character is read as one unit,
  itself or an escape by number (`unitOf`), and these units denote the text.
* `Token.Writes cs ts` says that a reader between tokens takes the text `cs` and has then read the
  tokens `ts`.  A word at the end has not ended yet, so texts are put together where something
  follows that ends a word (`Writes.append`).
* `writes_compact` and `writes_prettyAt`: what is printed for a value writes the tokens of the
  value, in either form and at every depth.

Together with `ofTokens?_tokens` this gives `parse?_compact` and `parse?_pretty`: every value is
read back from its text.
-/

namespace AssetAudit
namespace Json

/-! ## Numbers -/

namespace Number

/-- The digits of a natural number. -/
theorem toList_toString (n : Nat) : (toString n).toList = Nat.toDigits 10 n := by
  rw [Nat.toString_eq_ofList_toDigits, String.toList_ofList]

theorem isDigit_of_mem_toDigits {n : Nat} {c : Char} (h : c ∈ Nat.toDigits 10 n) :
    c.isDigit = true :=
  Nat.isDigit_of_mem_toDigits (by decide) (by decide) h

@[simp] theorem digit_digitChar (d : Fin 10) : digit (Nat.digitChar d.val) = d := by
  revert d
  decide

/-- The value of a digit without the bound. -/
theorem digit_val {c : Char} (h : c.isDigit = true) : (digit c).val = c.toNat - '0'.toNat := by
  have hc := Char.isDigit_iff_toNat.mp h
  have hzero : '0'.toNat = 48 := rfl
  have hnine : '9'.toNat = 57 := rfl
  exact Nat.mod_eq_of_lt (by omega)

/-- A number is what its digits denote. -/
theorem ofDigits_toDigits (n : Nat) : ofDigits (Nat.toDigits 10 n) = n := by
  have hfold : ∀ (ds : List Char) (m : Nat), (∀ c ∈ ds, c.isDigit = true) →
      ds.foldl (fun n c => 10 * n + (digit c).val) m = Nat.ofDigitChars 10 ds m := by
    intro ds
    induction ds with
    | nil => exact fun _ _ => rfl
    | cons c ds ih =>
      intro m h
      rw [List.foldl_cons, digit_val (h c List.mem_cons_self),
        ih _ fun d hd => h d (List.mem_cons_of_mem _ hd), Nat.ofDigitChars_eq_foldl,
        Nat.ofDigitChars_eq_foldl, List.foldl_cons]
  rw [ofDigits, hfold _ _ fun _ => isDigit_of_mem_toDigits, Nat.ofDigitChars_ten_toDigits]

/-- Only zero is written with a zero in front. -/
theorem head?_toDigits_ne (n : Nat) (h : n ≠ 0) : (Nat.toDigits 10 n).head? ≠ some '0' := by
  induction n using Nat.strongRecOn with
  | ind n ih =>
    rw [Nat.toDigits_eq_if (by decide)]
    split
    · simpa [Nat.digitChar_eq_zero] using h
    · rw [List.head?_append, List.head?_eq_some_head Nat.toDigits_ne_nil, Option.some_or,
        ← List.head?_eq_some_head]
      exact ih (n / 10) (by omega) (by omega)

/-- The whole part is read back. -/
theorem whole?_toDigits (n : Nat) : whole? (Nat.toDigits 10 n) = some n := by
  have hvalue : whole? (Nat.toDigits 10 n) = some (ofDigits (Nat.toDigits 10 n)) := by
    by_cases hn : n = 0
    · subst hn
      rfl
    · have hhead := head?_toDigits_ne n hn
      rw [whole?.eq_def]
      split
      · rename_i hnil
        exact absurd hnil Nat.toDigits_ne_nil
      · rename_i hzero
        exact absurd (by rw [hzero, List.head?_cons]) hhead
      · rfl
  rw [hvalue, ofDigits_toDigits]

/-- Digits end where something else starts. -/
theorem takeWhile_isDigit_append {ds rest : List Char} (hds : ∀ c ∈ ds, c.isDigit = true)
    (hrest : ∀ c ∈ rest.head?, c.isDigit = false) :
    (ds ++ rest).takeWhile Char.isDigit = ds ∧ (ds ++ rest).dropWhile Char.isDigit = rest := by
  rw [List.takeWhile_append_of_pos hds, List.dropWhile_append_of_pos hds]
  cases rest with
  | nil => simp
  | cons c rest => simp [hrest c rfl]

/-- The text of a power of ten. -/
def exponentText : Option Int → List Char
  | none => []
  | some e => 'e' :: (toString e).toList

/-- The text of decimals. -/
def decimalsText : List (Fin 10) → List Char
  | [] => []
  | d :: ds => '.' :: (d :: ds).map fun d => Nat.digitChar d.val

/-- The characters of a number. -/
theorem toList_print (n : Number) :
    n.print.toList =
      (if n.negative then ['-'] else []) ++
        (Nat.toDigits 10 n.whole ++ (decimalsText n.decimals ++ exponentText n.exponent)) := by
  have hsign : (if n.negative then "-" else "").toList = if n.negative then ['-'] else [] := by
    cases n.negative <;> rfl
  have hdecimals : (if n.decimals.isEmpty then ""
      else "." ++ String.ofList (n.decimals.map fun d => Nat.digitChar d.val)).toList =
        decimalsText n.decimals := by
    cases n.decimals with
    | nil => rfl
    | cons d ds =>
      rw [List.isEmpty_cons, if_neg Bool.false_ne_true, String.toList_append, String.toList_ofList,
        String.toList_ofList, decimalsText, List.singleton_append]
  rw [print, String.toList_append, String.toList_append, String.toList_append, hsign,
    toList_toString, hdecimals, List.append_assoc, List.append_assoc]
  congr 3
  cases n.exponent with
  | none => rfl
  | some e => exact String.toList_append

/-- Digits without a sign are a power of ten. -/
theorem exponent?_of_digits {ds : List Char} (hne : ds ≠ [])
    (hds : ∀ c ∈ ds, c.isDigit = true) : exponent? ds = some (ofDigits ds : Int) := by
  have hall : ds.all Char.isDigit = true := List.all_eq_true.mpr hds
  have hempty : ds.isEmpty = false := by simpa using hne
  rw [exponent?]
  · simp [hall, hempty]
  · rintro rest rfl
    exact absurd (hds '-' List.mem_cons_self) (by decide)
  · rintro rest rfl
    exact absurd (hds '+' List.mem_cons_self) (by decide)

theorem toList_toString_ofNat (n : Nat) : (toString (Int.ofNat n)).toList = Nat.toDigits 10 n :=
  toList_toString n

theorem toList_toString_negSucc (n : Nat) :
    (toString (Int.negSucc n)).toList = '-' :: Nat.toDigits 10 (n + 1) := by
  change ("-" ++ toString (n + 1)).toList = _
  rw [String.toList_append, toList_toString]
  rfl

/-- The power of ten is read back. -/
theorem exponent?_toString (e : Int) : exponent? (toString e).toList = some e := by
  have hdigits : ∀ n : Nat, exponent? (Nat.toDigits 10 n) = some (n : Int) := fun n => by
    rw [exponent?_of_digits Nat.toDigits_ne_nil fun _ => isDigit_of_mem_toDigits,
      ofDigits_toDigits]
  cases e with
  | ofNat n =>
    rw [toList_toString_ofNat, hdigits]
    rfl
  | negSucc n =>
    have hall : (Nat.toDigits 10 (n + 1)).all Char.isDigit = true :=
      List.all_eq_true.mpr fun _ => isDigit_of_mem_toDigits
    rw [toList_toString_negSucc]
    simp [exponent?, hall, ofDigits_toDigits, Int.negSucc_eq, Nat.toDigits_ne_nil]

/-- What follows the decimals is read back. -/
theorem withExponent?_exponentText (negative : Bool) (whole : Nat) (decimals : List Char)
    (e : Option Int) :
    withExponent? negative whole decimals (exponentText e) =
      some ⟨negative, whole, decimals.map digit, e⟩ := by
  cases e with
  | none => rfl
  | some e =>
    rw [exponentText, withExponent?, if_pos (Or.inl rfl), exponent?_toString]
    rfl

/-- A power of ten starts with no digit. -/
theorem head?_exponentText (e : Option Int) :
    ∀ c ∈ (exponentText e).head?, c.isDigit = false := by
  cases e <;> simp [exponentText]

theorem isDigit_of_mem_map_digitChar {ds : List (Fin 10)} {c : Char}
    (h : c ∈ ds.map fun d => Nat.digitChar d.val) : c.isDigit = true := by
  obtain ⟨d, -, rfl⟩ := List.mem_map.mp h
  rw [Nat.isDigit_digitChar]
  exact decide_eq_true d.isLt

/-- What follows the whole part is read back. -/
theorem withDecimals?_text (negative : Bool) (whole : Nat) (decimals : List (Fin 10))
    (e : Option Int) :
    withDecimals? negative whole (decimalsText decimals ++ exponentText e) =
      some ⟨negative, whole, decimals, e⟩ := by
  cases decimals with
  | nil =>
    rw [decimalsText, List.nil_append, withDecimals?.eq_def]
    split
    · rename_i hpoint
      cases e <;> simp [exponentText] at hpoint
    · rw [withExponent?_exponentText]
      rfl
  | cons d ds =>
    have hdigits : ∀ c ∈ (d :: ds).map (fun d : Fin 10 => Nat.digitChar d.val),
        c.isDigit = true := fun _ => isDigit_of_mem_map_digitChar
    obtain ⟨htake, hdrop⟩ := takeWhile_isDigit_append hdigits (head?_exponentText e)
    have hback : ((d :: ds).map fun d : Fin 10 => Nat.digitChar d.val).map digit = d :: ds := by
      rw [List.map_map]
      exact (List.map_congr_left fun d _ => digit_digitChar d).trans (List.map_id _)
    rw [decimalsText, List.cons_append, withDecimals?, htake, hdrop]
    change withExponent? negative whole _ (exponentText e) = _
    rw [withExponent?_exponentText, hback]

/-- Decimals and a power of ten start with no digit. -/
theorem head?_decimalsText_append (decimals : List (Fin 10)) (e : Option Int) :
    ∀ c ∈ (decimalsText decimals ++ exponentText e).head?, c.isDigit = false := by
  cases decimals with
  | nil => exact head?_exponentText e
  | cons d ds => simp [decimalsText]

/-- **A number is read back from its text.** -/
theorem ofText?_toList_print (n : Number) : ofText? n.print.toList = some n := by
  obtain ⟨negative, whole, decimals, e⟩ := n
  have hunsigned : unsigned? negative
      (Nat.toDigits 10 whole ++ (decimalsText decimals ++ exponentText e)) =
        some ⟨negative, whole, decimals, e⟩ := by
    have hdigits : ∀ c ∈ Nat.toDigits 10 whole, c.isDigit = true :=
      fun _ => isDigit_of_mem_toDigits
    obtain ⟨htake, hdrop⟩ :=
      takeWhile_isDigit_append hdigits (head?_decimalsText_append decimals e)
    rw [unsigned?, htake, hdrop, whole?_toDigits, Option.bind_some, withDecimals?_text]
  rw [toList_print]
  cases negative with
  | true => exact hunsigned
  | false =>
    -- A text that starts with a digit is not taken for a negative number.
    rw [if_neg Bool.false_ne_true, List.nil_append, ofText?.eq_def]
    split
    · rename_i hminus
      have hhead : '-' ∈ Nat.toDigits 10 whole := by
        cases hds : Nat.toDigits 10 whole with
        | nil => exact absurd hds Nat.toDigits_ne_nil
        | cons c cs =>
          rw [hds, List.cons_append, List.cons.injEq] at hminus
          rw [hminus.1]
          exact List.mem_cons_self
      exact absurd (isDigit_of_mem_toDigits hhead) (by decide)
    · exact hunsigned

end Number

/-! ## Strings -/

/-- Is the character written as an escape by number? -/
def isCoded (c : Char) : Bool :=
  c.toNat < 0x20 && !(['\x08', '\t', '\n', '\x0c', '\r'].contains c)

/-- How a character stands inside a written string. -/
def unitOf (c : Char) : StringUnit := if isCoded c then .code c.toNat else .char c

namespace StringUnit

/-- An escape of a character that is no half of a pair denotes that character, whatever follows. -/
theorem decode_code_cons {n : Nat} (hhigh : isHigh n = false) (hlow : isLow n = false)
    (rest : List StringUnit) :
    decode (.code n :: rest) = (decode rest).map (Char.ofNat n :: ·) := by
  cases rest with
  | nil => simp [decode, hhigh, hlow]
  | cons u rest => cases u <;> simp [decode, hhigh, hlow]

/-- The units of a text denote it. -/
theorem decode_map_unitOf (cs : List Char) : decode (cs.map unitOf) = some cs := by
  induction cs with
  | nil => rfl
  | cons c cs ih =>
    rw [List.map_cons, unitOf]
    cases hc : isCoded c with
    | false => rw [if_neg Bool.false_ne_true, decode, ih, Option.map_some]
    | true =>
      -- Control characters are no halves of pairs.
      have hlt : c.toNat < 0x20 := by
        rw [isCoded, Bool.and_eq_true, decide_eq_true_eq] at hc
        exact hc.1
      have hhigh : isHigh c.toNat = false := by
        rw [isHigh, Bool.and_eq_false_iff, decide_eq_false_iff_not]
        exact Or.inl (by omega)
      have hlow : isLow c.toNat = false := by
        rw [isLow, Bool.and_eq_false_iff, decide_eq_false_iff_not]
        exact Or.inl (by omega)
      rw [if_pos rfl, decode_code_cons hhigh hlow, ih, Option.map_some, Char.ofNat_toNat]

end StringUnit

namespace Token
namespace Reader

theorem hexDigit?_hexDigit (d : Fin 16) : hexDigit? (hexDigit d.val) = some d.val := by
  revert d
  decide

/-- A control character inside a string is read as its number. -/
theorem foldlM_step_coded {n : Nat} (h : n < 0x20) (read : List Token) (units : List StringUnit) :
    ("\\u00" ++ String.ofList [hexDigit (n / 16), hexDigit (n % 16)]).toList.foldlM step
        ⟨read, .string units⟩ =
      some ⟨read, .string (.code n :: units)⟩ := by
  have hhigh : hexDigit? (hexDigit (n / 16)) = some (n / 16) :=
    hexDigit?_hexDigit ⟨n / 16, by omega⟩
  have hlow : hexDigit? (hexDigit (n % 16)) = some (n % 16) :=
    hexDigit?_hexDigit ⟨n % 16, by omega⟩
  have hn : 16 * (n / 16) + n % 16 = n := by omega
  have hfront : "\\u00".toList = ['\\', 'u', '0', '0'] := rfl
  rw [String.toList_append, hfront, String.toList_ofList, List.foldlM_append]
  change [hexDigit (n / 16), hexDigit (n % 16)].foldlM step ⟨read, .code units 2 0⟩ = _
  simp [step, hhigh, hlow, hn]

/-- **A character inside a string is read as the unit that stands for it.** -/
theorem foldlM_step_escaped (c : Char) (read : List Token) (units : List StringUnit) :
    (escaped c).toList.foldlM step ⟨read, .string units⟩ =
      some ⟨read, .string (unitOf c :: units)⟩ := by
  rw [escaped]
  split_ifs with hquote hslash hback htab hline hpage hreturn hcontrol
  · subst hquote; rfl
  · subst hslash; rfl
  · subst hback; rfl
  · subst htab; rfl
  · subst hline; rfl
  · subst hpage; rfl
  · subst hreturn; rfl
  · have hcoded : isCoded c = true := by
      simp [isCoded, hcontrol, hback, htab, hline, hpage, hreturn]
    rw [foldlM_step_coded hcontrol, unitOf, if_pos hcoded]
  · have hcoded : isCoded c = false := by
      simp [isCoded, hcontrol]
    rw [unitOf, hcoded, if_neg Bool.false_ne_true]
    simp [step, hquote, hslash, hcontrol]

/-- The characters of a string are read one after the other. -/
theorem foldlM_step_escaped_all (cs : List Char) (read : List Token) (units : List StringUnit) :
    (cs.flatMap fun c => (escaped c).toList).foldlM step ⟨read, .string units⟩ =
      some ⟨read, .string ((cs.map unitOf).reverse ++ units)⟩ := by
  induction cs generalizing units with
  | nil => rfl
  | cons c cs ih =>
    rw [List.flatMap_cons, List.foldlM_append, foldlM_step_escaped]
    change (cs.flatMap fun c => (escaped c).toList).foldlM step
      ⟨read, .string (unitOf c :: units)⟩ = _
    rw [ih, List.map_cons, List.reverse_cons, List.append_assoc, List.singleton_append]

/-- **A written literal is read back.** -/
theorem foldlM_step_printLiteral (s : Literal) (read : List Token) :
    (printLiteral s).toList.foldlM step ⟨read, .between⟩ =
      some ⟨.string s :: read, .between⟩ := by
  cases s with
  | none => rfl
  | some s =>
    have hjoin : (quoted s).toList =
        '"' :: (s.toList.flatMap (fun c => (escaped c).toList) ++ ['"']) := by
      rw [quoted, String.toList_append, String.toList_append, String.toList_join, List.flatMap_map]
      rfl
    rw [printLiteral, hjoin, List.foldlM_cons]
    change List.foldlM step ⟨read, .string []⟩ _ = _
    rw [List.foldlM_append, foldlM_step_escaped_all]
    change some (Reader.mk
      (.string (StringUnit.literal ((s.toList.map unitOf).reverse ++ []).reverse) :: read)
        .between) = _
    rw [List.append_nil, List.reverse_reverse, StringUnit.literal, StringUnit.decode_map_unitOf,
      Option.map_some, String.ofList_toList]

end Reader
end Token

/-! ## Texts and the tokens that they write -/

namespace Token

namespace Reader

/-- Has the reader taken these tokens, the last of them perhaps a word that has not ended yet?  The
tokens stand in reverse. -/
def HasRead (r : Reader) (read : List Token) : Prop :=
  r = ⟨read, .between⟩ ∨
    ∃ t before w, read = t :: before ∧ r = ⟨before, .word w⟩ ∧ word? w.reverse = some t

variable {r : Reader} {read : List Token}

/-- Whatever ends a word finds the tokens complete. -/
theorem HasRead.step_eq (h : r.HasRead read) {c : Char} (hc : endsWord c = true) :
    r.step c = step ⟨read, .between⟩ c := by
  rcases h with rfl | ⟨t, before, w, rfl, rfl, hw⟩
  · rfl
  · simp [step, hc, hw]

/-- So does the end of the text. -/
theorem HasRead.finish_eq (h : r.HasRead read) : r.finish = some read.reverse := by
  rcases h with rfl | ⟨t, before, w, rfl, rfl, hw⟩
  · rfl
  · simp [finish, hw]

/-- Characters that do not end a word belong to it. -/
theorem foldlM_step_word {cs : List Char} (h : cs.any endsWord = false) (before : List Token)
    (w : List Char) :
    cs.foldlM step ⟨before, .word w⟩ = some ⟨before, .word (cs.reverse ++ w)⟩ := by
  induction cs generalizing w with
  | nil => rfl
  | cons c cs ih =>
    obtain ⟨hc, hrest⟩ := Bool.or_eq_false_iff.mp (List.any_cons ▸ h)
    have hstep : step ⟨before, .word w⟩ c = some ⟨before, .word (c :: w)⟩ := by
      simp [step, hc]
    rw [List.foldlM_cons, hstep]
    change cs.foldlM step ⟨before, .word (c :: w)⟩ = _
    rw [ih hrest, List.reverse_cons, List.append_assoc, List.singleton_append]

end Reader

open Reader

/-- Does the text write the tokens?  A reader between tokens then takes the whole text, and it has
read these tokens in addition. -/
def Writes (cs : List Char) (ts : List Token) : Prop :=
  ∀ before, ∃ r, cs.foldlM step ⟨before, .between⟩ = some r ∧ r.HasRead (ts.reverse ++ before)

namespace Writes

variable {cs ds : List Char} {ts us : List Token}

theorem nil : Writes [] [] := fun before => ⟨⟨before, .between⟩, rfl, Or.inl rfl⟩

/-- A text whose tokens are read back from it. -/
theorem ofText?_eq (h : Writes cs ts) : ofText? cs = some ts := by
  obtain ⟨r, hr, hread⟩ := h []
  rw [ofText?, start, hr, Option.bind_some, hread.finish_eq, List.append_nil, List.reverse_reverse]

/-- Two texts one after the other, the second of which does not continue a word. -/
theorem append (h : Writes cs ts) (hd : Writes ds us) (hend : ∀ c ∈ ds.head?, endsWord c = true) :
    Writes (cs ++ ds) (ts ++ us) := by
  intro before
  obtain ⟨r, hr, hread⟩ := h before
  cases ds with
  | nil =>
    -- Nothing follows and nothing is written, so the last word need not have ended.
    obtain ⟨r', hr', hread'⟩ := hd (ts.reverse ++ before)
    have hus : us = [] := by
      have htokens := hread'.finish_eq
      rw [← Option.some.inj hr'] at htokens
      simpa [finish] using htokens
    exact ⟨r, by rw [List.append_nil, hr], by rwa [hus, List.append_nil]⟩
  | cons c ds =>
    obtain ⟨r', hr', hread'⟩ := hd (ts.reverse ++ before)
    refine ⟨r', ?_, by rwa [List.reverse_append, List.append_assoc]⟩
    rw [List.foldlM_append, hr]
    change List.foldlM step r (c :: ds) = _
    rw [List.foldlM_cons, hread.step_eq (hend c rfl), ← List.foldlM_cons, hr']

/-- A blank writes nothing. -/
theorem blank {c : Char} (hc : isBlank c = true) (h : Writes cs ts) : Writes (c :: cs) ts := by
  intro before
  have hstep : step ⟨before, .between⟩ c = some ⟨before, .between⟩ := by
    simp [step, beginToken, hc]
  rw [List.foldlM_cons, hstep]
  exact h before

/-- Blanks write nothing. -/
theorem blanks (hcs : ∀ c ∈ cs, isBlank c = true) (h : Writes ds ts) : Writes (cs ++ ds) ts := by
  induction cs with
  | nil => exact h
  | cons c cs ih =>
    exact blank (hcs c List.mem_cons_self) (ih fun d hd => hcs d (List.mem_cons_of_mem _ hd))

/-- Punctuation writes one token. -/
theorem punctuation {c : Char} {t : Token} (hc : punctuation? c = some t) (h : Writes cs ts) :
    Writes (c :: cs) (t :: ts) := by
  intro before
  obtain ⟨r, hr, hread⟩ := h (t :: before)
  have hblank : isBlank c = false := by
    by_contra hblank
    rw [Bool.not_eq_false, isBlank] at hblank
    simp only [Bool.or_eq_true, beq_iff_eq] at hblank
    rcases hblank with ((rfl | rfl) | rfl) | rfl <;> cases hc
  have hquote : c ≠ '"' := by
    rintro rfl
    cases hc
  have hstep : step ⟨before, .between⟩ c = some ⟨t :: before, .between⟩ := by
    simp [step, beginToken, hblank, hquote, hc]
  rw [List.foldlM_cons, hstep]
  exact ⟨r, hr, by rwa [List.reverse_cons, List.append_assoc]⟩

/-- A string writes one token, whatever follows. -/
theorem string (s : Literal) (h : Writes cs ts) :
    Writes ((printLiteral s).toList ++ cs) (.string s :: ts) := by
  intro before
  obtain ⟨r, hr, hread⟩ := h (.string s :: before)
  rw [List.foldlM_append, foldlM_step_printLiteral]
  exact ⟨r, hr, by rwa [List.reverse_cons, List.append_assoc]⟩

/-- A word writes one token. -/
theorem word {t : Token} (hne : cs ≠ []) (hcs : cs.any endsWord = false)
    (ht : word? cs = some t) : Writes cs [t] := by
  intro before
  cases cs with
  | nil => exact absurd rfl hne
  | cons c cs =>
    obtain ⟨hc, hrest⟩ := Bool.or_eq_false_iff.mp (List.any_cons ▸ hcs)
    have hstep : step ⟨before, .between⟩ c = some ⟨before, .word [c]⟩ := by
      simp only [endsWord, Bool.or_eq_false_iff, beq_eq_false_iff_ne, Option.isSome_eq_false_iff,
        Option.isNone_iff_eq_none] at hc
      simp [step, beginToken, hc]
    refine ⟨⟨before, .word (cs.reverse ++ [c])⟩, ?_, Or.inr ⟨t, before, _, rfl, rfl, ?_⟩⟩
    · rw [List.foldlM_cons, hstep]
      exact foldlM_step_word hrest before [c]
    · rwa [List.reverse_append, List.reverse_reverse, List.reverse_singleton,
        List.singleton_append]

end Writes

end Token

/-! ## Printed values -/

namespace Number

/-- A number is written with digits, signs, a point and a letter. -/
theorem isDigit_or_of_mem_print {n : Number} {c : Char} (h : c ∈ n.print.toList) :
    c.isDigit = true ∨ c = '-' ∨ c = '.' ∨ c = 'e' := by
  rw [toList_print, List.mem_append, List.mem_append, List.mem_append] at h
  rcases h with h | h | h | h
  · split_ifs at h
    · exact Or.inr (Or.inl (List.mem_singleton.mp h))
    · exact absurd h List.not_mem_nil
  · exact Or.inl (isDigit_of_mem_toDigits h)
  · cases hds : n.decimals with
    | nil => simp [hds, decimalsText] at h
    | cons d ds =>
      rw [hds, decimalsText, List.mem_cons] at h
      rcases h with rfl | h
      · exact Or.inr (Or.inr (Or.inl rfl))
      · exact Or.inl (isDigit_of_mem_map_digitChar h)
  · cases he : n.exponent with
    | none => simp [he, exponentText] at h
    | some e =>
      rw [he, exponentText, List.mem_cons] at h
      rcases h with rfl | h
      · exact Or.inr (Or.inr (Or.inr rfl))
      · cases e with
        | ofNat m =>
          rw [toList_toString_ofNat] at h
          exact Or.inl (isDigit_of_mem_toDigits h)
        | negSucc m =>
          rw [toList_toString_negSucc, List.mem_cons] at h
          exact h.elim (fun h => Or.inr (Or.inl h)) fun h => Or.inl (isDigit_of_mem_toDigits h)

end Number

open Token

/-- A digit does not end a word. -/
theorem endsWord_of_isDigit {c : Char} (h : c.isDigit = true) : Reader.endsWord c = false := by
  have hbounds := Char.isDigit_iff_toNat.mp h
  have hzero : '0'.toNat = 48 := rfl
  have hnine : '9'.toNat = 57 := rfl
  have hall : ∀ d : Fin 10, Reader.endsWord (Char.ofNat (48 + d.val)) = false := by decide
  have hc := hall ⟨c.toNat - 48, by omega⟩
  rwa [show 48 + (c.toNat - 48) = c.toNat by omega, Char.ofNat_toNat] at hc

/-- **A number writes one token.** -/
theorem writes_print (n : Number) : Writes n.print.toList [.number n] := by
  have hread := Number.ofText?_toList_print n
  refine Writes.word ?_ ?_ ?_
  · intro hnil
    rw [hnil] at hread
    cases hread
  · rw [List.any_eq_false]
    intro c hc
    rw [Bool.not_eq_true]
    rcases Number.isDigit_or_of_mem_print hc with h | rfl | rfl | rfl
    · exact endsWord_of_isDigit h
    · rfl
    · rfl
    · rfl
  · -- the three names are no numbers
    have hname : ∀ w : List Char, Number.ofText? w = none → n.print.toList ≠ w := by
      rintro w hw rfl
      rw [hw] at hread
      cases hread
    rw [word?, if_neg (hname _ rfl), if_neg (hname _ rfl), if_neg (hname _ rfl), hread,
      Option.map_some]

/-! ### Values without blanks -/

mutual

/-- **A value without blanks writes its tokens.** -/
theorem writes_compact (v : Json) : Writes v.compact.toList v.tokens := by
  match v with
  | .null =>
    rw [compact, tokens]
    exact Writes.word (by decide) (by decide) (by decide)
  | .bool true =>
    rw [compact, tokens]
    exact Writes.word (by decide) (by decide) (by decide)
  | .bool false =>
    rw [compact, tokens]
    exact Writes.word (by decide) (by decide) (by decide)
  | .number n =>
    rw [compact, tokens]
    exact writes_print n
  | .string s =>
    rw [compact, tokens]
    simpa using Writes.string s Writes.nil
  | .array ws =>
    have htext : (compact (.array ws)).toList = '[' :: ((compactItems ws).toList ++ [']']) := by
      rw [compact, String.toList_append, String.toList_append, List.append_assoc]
      rfl
    rw [htext, tokens]
    refine Writes.punctuation rfl ((writes_compactItems ws).append
      (Writes.punctuation rfl Writes.nil) ?_)
    rintro c hc
    rw [← Option.some.inj hc]
    rfl
  | .object ms =>
    have htext : (compact (.object ms)).toList =
        '\x7b' :: ((compactMembers ms).toList ++ ['\x7d']) := by
      rw [compact, String.toList_append, String.toList_append, List.append_assoc]
      rfl
    rw [htext, tokens]
    refine Writes.punctuation rfl ((writes_compactMembers ms).append
      (Writes.punctuation rfl Writes.nil) ?_)
    rintro c hc
    rw [← Option.some.inj hc]
    rfl

/-- Items without blanks write their tokens. -/
theorem writes_compactItems (vs : List Json) :
    Writes (compactItems vs).toList (itemTokens vs) := by
  match vs with
  | [] =>
    rw [compactItems, itemTokens]
    exact Writes.nil
  | [v] =>
    rw [compactItems, itemTokens]
    exact writes_compact v
  | v :: w :: ws =>
    have htext : (compactItems (v :: w :: ws)).toList =
        v.compact.toList ++ ',' :: (compactItems (w :: ws)).toList := by
      rw [compactItems, String.toList_append, String.toList_append, List.append_assoc]
      · rfl
      · exact List.cons_ne_nil w ws
    rw [htext, itemTokens]
    refine (writes_compact v).append (Writes.punctuation rfl (writes_compactItems (w :: ws))) ?_
    rintro c hc
    rw [← Option.some.inj hc]
    rfl

/-- Members without blanks write their tokens. -/
theorem writes_compactMembers (ms : List (Literal × Json)) :
    Writes (compactMembers ms).toList (memberTokens ms) := by
  match ms with
  | [] =>
    rw [compactMembers, memberTokens]
    exact Writes.nil
  | [(k, v)] =>
    have htext : (compactMembers [(k, v)]).toList =
        (printLiteral k).toList ++ ':' :: v.compact.toList := by
      rw [compactMembers, String.toList_append, String.toList_append, List.append_assoc]
      rfl
    rw [htext, memberTokens]
    exact Writes.string k (Writes.punctuation rfl (writes_compact v))
  | (k, v) :: m :: ms =>
    have htext : (compactMembers ((k, v) :: m :: ms)).toList = (printLiteral k).toList ++
        ':' :: (v.compact.toList ++ ',' :: (compactMembers (m :: ms)).toList) := by
      rw [compactMembers, String.toList_append, String.toList_append, String.toList_append,
        String.toList_append, List.append_assoc, List.append_assoc, List.append_assoc]
      · rfl
      · exact List.cons_ne_nil m ms
    rw [htext, memberTokens]
    refine Writes.string k (Writes.punctuation rfl ((writes_compact v).append
      (Writes.punctuation rfl (writes_compactMembers (m :: ms))) ?_))
    rintro c hc
    rw [← Option.some.inj hc]
    rfl

end

/-! ### Values over several lines -/

/-- The start of a line is blank. -/
theorem isBlank_of_mem_newLine {depth : Nat} {c : Char} (h : c ∈ (newLine depth).toList) :
    isBlank c = true := by
  have hline : "\n".toList = ['\n'] := rfl
  rw [newLine, String.toList_append, hline, String.toList_ofList, List.mem_append] at h
  rcases h with h | h
  · rw [List.mem_singleton.mp h]
    rfl
  · rw [List.eq_of_mem_replicate h]
    rfl

/-- A new line ends a word. -/
theorem endsWord_of_mem_head?_newLine (depth : Nat) (cs : List Char) :
    ∀ c ∈ ((newLine depth).toList ++ cs).head?, Reader.endsWord c = true := by
  have hline : "\n".toList = ['\n'] := rfl
  rw [newLine, String.toList_append, hline]
  rintro c hc
  rw [← Option.some.inj hc]
  rfl

mutual

/-- **A value over several lines writes its tokens.** -/
theorem writes_prettyAt (depth : Nat) (v : Json) : Writes (prettyAt depth v).toList v.tokens := by
  match v with
  | .null =>
    rw [prettyAt, tokens]
    exact Writes.word (by decide) (by decide) (by decide)
  | .bool true =>
    rw [prettyAt, tokens]
    exact Writes.word (by decide) (by decide) (by decide)
  | .bool false =>
    rw [prettyAt, tokens]
    exact Writes.word (by decide) (by decide) (by decide)
  | .number n =>
    rw [prettyAt, tokens]
    exact writes_print n
  | .string s =>
    rw [prettyAt, tokens]
    simpa using Writes.string s Writes.nil
  | .array [] =>
    rw [prettyAt, tokens, itemTokens]
    exact Writes.punctuation rfl (Writes.punctuation rfl Writes.nil)
  | .array (w :: ws) =>
    have htext : (prettyAt depth (.array (w :: ws))).toList =
        '[' :: ((prettyItems (depth + 1) (w :: ws)).toList ++
          ((newLine depth).toList ++ [']'])) := by
      rw [prettyAt, String.toList_append, String.toList_append, String.toList_append,
        List.append_assoc, List.append_assoc]
      rfl
    rw [htext, tokens]
    exact Writes.punctuation rfl ((writes_prettyItems (depth + 1) (w :: ws)).append
      (Writes.blanks (fun _ => isBlank_of_mem_newLine) (Writes.punctuation rfl Writes.nil))
      (endsWord_of_mem_head?_newLine depth _))
  | .object [] =>
    rw [prettyAt, tokens, memberTokens]
    exact Writes.punctuation rfl (Writes.punctuation rfl Writes.nil)
  | .object (m :: ms) =>
    have htext : (prettyAt depth (.object (m :: ms))).toList =
        '\x7b' :: ((prettyMembers (depth + 1) (m :: ms)).toList ++
          ((newLine depth).toList ++ ['\x7d'])) := by
      rw [prettyAt, String.toList_append, String.toList_append, String.toList_append,
        List.append_assoc, List.append_assoc]
      rfl
    rw [htext, tokens]
    exact Writes.punctuation rfl ((writes_prettyMembers (depth + 1) (m :: ms)).append
      (Writes.blanks (fun _ => isBlank_of_mem_newLine) (Writes.punctuation rfl Writes.nil))
      (endsWord_of_mem_head?_newLine depth _))

/-- Items over several lines write their tokens. -/
theorem writes_prettyItems (depth : Nat) (vs : List Json) :
    Writes (prettyItems depth vs).toList (itemTokens vs) := by
  match vs with
  | [] =>
    rw [prettyItems, itemTokens]
    exact Writes.nil
  | [v] =>
    rw [prettyItems, itemTokens, String.toList_append]
    exact Writes.blanks (fun _ => isBlank_of_mem_newLine) (writes_prettyAt depth v)
  | v :: w :: ws =>
    have htext : (prettyItems depth (v :: w :: ws)).toList = (newLine depth).toList ++
        ((prettyAt depth v).toList ++ ',' :: (prettyItems depth (w :: ws)).toList) := by
      rw [prettyItems, String.toList_append, String.toList_append, String.toList_append,
        List.append_assoc, List.append_assoc]
      · rfl
      · exact List.cons_ne_nil w ws
    rw [htext, itemTokens]
    refine Writes.blanks (fun _ => isBlank_of_mem_newLine) ((writes_prettyAt depth v).append
      (Writes.punctuation rfl (writes_prettyItems depth (w :: ws))) ?_)
    rintro c hc
    rw [← Option.some.inj hc]
    rfl

/-- Members over several lines write their tokens. -/
theorem writes_prettyMembers (depth : Nat) (ms : List (Literal × Json)) :
    Writes (prettyMembers depth ms).toList (memberTokens ms) := by
  match ms with
  | [] =>
    rw [prettyMembers, memberTokens]
    exact Writes.nil
  | [(k, v)] =>
    have htext : (prettyMembers depth [(k, v)]).toList = (newLine depth).toList ++
        ((printLiteral k).toList ++ ':' :: ' ' :: (prettyAt depth v).toList) := by
      rw [prettyMembers, String.toList_append, String.toList_append, String.toList_append,
        List.append_assoc, List.append_assoc]
      rfl
    rw [htext, memberTokens]
    exact Writes.blanks (fun _ => isBlank_of_mem_newLine) (Writes.string k
      (Writes.punctuation rfl (Writes.blank rfl (writes_prettyAt depth v))))
  | (k, v) :: m :: ms =>
    have htext : (prettyMembers depth ((k, v) :: m :: ms)).toList = (newLine depth).toList ++
        ((printLiteral k).toList ++ ':' :: ' ' :: ((prettyAt depth v).toList ++
          ',' :: (prettyMembers depth (m :: ms)).toList)) := by
      rw [prettyMembers, String.toList_append, String.toList_append, String.toList_append,
        String.toList_append, String.toList_append,
        List.append_assoc, List.append_assoc, List.append_assoc, List.append_assoc]
      · rfl
      · exact List.cons_ne_nil m ms
    rw [htext, memberTokens]
    refine Writes.blanks (fun _ => isBlank_of_mem_newLine) (Writes.string k
      (Writes.punctuation rfl (Writes.blank rfl ((writes_prettyAt depth v).append
        (Writes.punctuation rfl (writes_prettyMembers depth (m :: ms))) ?_))))
    rintro c hc
    rw [← Option.some.inj hc]
    rfl

end

/-! ## Texts -/

/-- **A value is read back from its text without blanks.** -/
theorem parse?_compact (v : Json) : parse? v.compact = some v := by
  rw [parse?, (writes_compact v).ofText?_eq, Option.bind_some, ofTokens?_tokens]

/-- **A value is read back from its text over several lines.** -/
theorem parse?_pretty (v : Json) : parse? v.pretty = some v := by
  rw [parse?, pretty, (writes_prettyAt 0 v).ofText?_eq, Option.bind_some, ofTokens?_tokens]

/-- Blanks behind a value do not matter. -/
theorem parse?_pretty_append {blanks : String} (h : blanks.toList.all isBlank = true) (v : Json) :
    parse? (v.pretty ++ blanks) = some v := by
  rw [List.all_eq_true] at h
  have hblanks : Writes (blanks.toList ++ []) [] := Writes.blanks h Writes.nil
  rw [List.append_nil] at hblanks
  have hwrites := (writes_prettyAt 0 v).append hblanks fun c hc => by
    rw [Reader.endsWord, h c (List.mem_of_mem_head? hc), Bool.true_or, Bool.true_or]
  rw [parse?, pretty, String.toList_append, hwrites.ofText?_eq, List.append_nil, Option.bind_some,
    ofTokens?_tokens]

end Json
end AssetAudit
