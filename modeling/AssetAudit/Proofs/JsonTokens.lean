import AssetAudit.Json.Parser

/-!
# A value and its tokens

`Json.tokens` lists the tokens of a value in the order in which they are written.  The builder takes
them one at a time and keeps the containers that are open in a stack, so what it does with the
tokens of a value is said for every stack and for every continuation (`foldlM_step_tokens`): after
the last of them the value is complete and the stack is what it was.  For an empty stack and no
continuation this is `ofTokens?_tokens`: a value is read back from its tokens.
-/

namespace AssetAudit
namespace Json

mutual

/-- The tokens of a value. -/
def tokens : Json → List Token
  | .null => [.null]
  | .bool b => [.bool b]
  | .number n => [.number n]
  | .string s => [.string s]
  | .array items => .openBracket :: (itemTokens items ++ [.closeBracket])
  | .object members => .openBrace :: (memberTokens members ++ [.closeBrace])

/-- The tokens of items, with commas between them. -/
def itemTokens : List Json → List Token
  | [] => []
  | [v] => v.tokens
  | v :: w :: vs => v.tokens ++ .comma :: itemTokens (w :: vs)

/-- The tokens of members, with commas between them. -/
def memberTokens : List (Literal × Json) → List Token
  | [] => []
  | [(k, v)] => .string k :: .colon :: v.tokens
  | (k, v) :: m :: ms => .string k :: .colon :: (v.tokens ++ .comma :: memberTokens (m :: ms))

end

/-- The tokens of a value start with one that may stand at the start of an array. -/
theorem exists_tokens_eq_cons (v : Json) : ∃ t ts, v.tokens = t :: ts ∧ t ≠ .closeBracket := by
  cases v <;> exact ⟨_, _, by rw [tokens], by simp⟩

namespace Builder

/-- An array that has been opened takes its first item like any other. -/
theorem step_firstItem {t : Token} (h : t ≠ .closeBracket) (stack : List Frame) :
    step (.firstItem stack) t = step (.value (.array [] :: stack)) t := by
  cases t <;> first | rfl | exact absurd rfl h

/-- An object that has been opened takes its first key like any other. -/
theorem step_firstKey (k : Literal) (stack : List Frame) :
    step (.firstKey stack) (.string k) = step (.nextKey stack []) (.string k) := rfl

mutual

/-- **The tokens of a value complete it.**  This holds below any stack of open containers. -/
theorem foldlM_step_tokens (v : Json) (stack : List Frame) (rest : List Token) :
    (v.tokens ++ rest).foldlM step (.value stack) = rest.foldlM step (.complete stack v) := by
  match v with
  | .null => rw [tokens]; rfl
  | .bool b => rw [tokens]; rfl
  | .number n => rw [tokens]; rfl
  | .string s => rw [tokens]; rfl
  | .array [] => rw [tokens, itemTokens]; rfl
  | .array (w :: ws) =>
    have hitems := foldlM_step_itemTokens w ws [] stack rest
    obtain ⟨t, ts, hts, ht⟩ : ∃ t ts, itemTokens (w :: ws) = t :: ts ∧ t ≠ .closeBracket := by
      obtain ⟨t, ts, hts, ht⟩ := exists_tokens_eq_cons w
      cases ws with
      | nil => exact ⟨t, ts, by rw [itemTokens, hts], ht⟩
      | cons x xs => exact ⟨t, _, by rw [itemTokens, hts, List.cons_append], ht⟩
    rw [hts, List.cons_append, List.foldlM_cons] at hitems
    rw [tokens, List.cons_append, List.foldlM_cons, hts, List.append_assoc, List.cons_append]
    change List.foldlM step (.firstItem stack) (t :: (ts ++ .closeBracket :: rest)) = _
    rw [List.foldlM_cons, step_firstItem ht]
    exact hitems
  | .object [] => rw [tokens, memberTokens]; rfl
  | .object ((k, w) :: ms) =>
    have hmembers := foldlM_step_memberTokens k w ms [] stack rest
    obtain ⟨ts, hts⟩ : ∃ ts, memberTokens ((k, w) :: ms) = .string k :: ts := by
      cases ms <;> exact ⟨_, by rw [memberTokens]⟩
    rw [hts, List.cons_append, List.foldlM_cons] at hmembers
    rw [tokens, List.cons_append, List.foldlM_cons, hts, List.append_assoc, List.cons_append]
    change List.foldlM step (.firstKey stack) (.string k :: (ts ++ .closeBrace :: rest)) = _
    rw [List.foldlM_cons, step_firstKey]
    exact hmembers
termination_by sizeOf v

/-- The tokens of items complete an array that holds earlier items already. -/
theorem foldlM_step_itemTokens (v : Json) (vs earlier : List Json) (stack : List Frame)
    (rest : List Token) :
    (itemTokens (v :: vs) ++ .closeBracket :: rest).foldlM step
        (.value (.array earlier.reverse :: stack)) =
      rest.foldlM step (.complete stack (.array (earlier ++ v :: vs))) := by
  match vs with
  | [] =>
    rw [itemTokens, foldlM_step_tokens v, List.foldlM_cons]
    change List.foldlM step (.complete stack (.array (v :: earlier.reverse).reverse)) rest = _
    rw [List.reverse_cons, List.reverse_reverse]
  | w :: ws =>
    have hrest := foldlM_step_itemTokens w ws (earlier ++ [v]) stack rest
    rw [itemTokens, List.append_assoc, foldlM_step_tokens v, List.cons_append, List.foldlM_cons]
    rw [List.reverse_append, List.append_assoc] at hrest
    exact hrest
termination_by sizeOf (v :: vs)

/-- The tokens of members complete an object that holds earlier members already. -/
theorem foldlM_step_memberTokens (k : Literal) (v : Json) (ms earlier : List (Literal × Json))
    (stack : List Frame) (rest : List Token) :
    (memberTokens ((k, v) :: ms) ++ .closeBrace :: rest).foldlM step
        (.nextKey stack earlier.reverse) =
      rest.foldlM step (.complete stack (.object (earlier ++ (k, v) :: ms))) := by
  match ms with
  | [] =>
    rw [memberTokens, List.cons_append, List.cons_append, List.foldlM_cons]
    change List.foldlM step (.value (.object earlier.reverse k :: stack)) _ = _
    rw [foldlM_step_tokens v, List.foldlM_cons]
    change List.foldlM step (.complete stack (.object ((k, v) :: earlier.reverse).reverse)) rest = _
    rw [List.reverse_cons, List.reverse_reverse]
  | (l, w) :: ms =>
    have hrest := foldlM_step_memberTokens l w ms (earlier ++ [(k, v)]) stack rest
    rw [memberTokens, List.cons_append, List.cons_append, List.foldlM_cons]
    change List.foldlM step (.value (.object earlier.reverse k :: stack)) _ = _
    rw [List.append_assoc, foldlM_step_tokens v, List.cons_append, List.foldlM_cons]
    rw [List.reverse_append, List.append_assoc] at hrest
    exact hrest
termination_by sizeOf ((k, v) :: ms)

end

end Builder

/-- **A value is read back from its tokens.** -/
theorem ofTokens?_tokens (v : Json) : ofTokens? v.tokens = some v := by
  have h := Builder.foldlM_step_tokens v [] []
  rw [List.append_nil] at h
  rw [ofTokens?, Builder.start, h]
  rfl

end Json
end AssetAudit
