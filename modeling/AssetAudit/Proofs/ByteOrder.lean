import AssetAudit.Inventory.PathSet

/-!
# The order of the bytes

Path sets are sorted by code points, whereas a program that has texts in UTF-8 sorts them by
comparing bytes.  UTF-8 is made so that both orders agree: the first byte of a character grows with
the number of bytes that the character takes, and the bytes hold the digits of its code point, the
highest first.

* `utf8EncodeChar_append_lt`: the bytes of a smaller character decide against those of a larger one,
  whatever follows either of them.
* `lt_iff_utf8Bytes_lt`: texts are ordered as their bytes are.
* `PathSet.pairwise_utf8Bytes`: so a path set is listed in the order of bytes.
-/

namespace AssetAudit

/-- The bytes of a text in UTF-8. -/
def utf8Bytes (text : String) : List UInt8 := text.toUTF8.data.toList

/-- The bytes of a text are those of its characters. -/
theorem utf8Bytes_eq (text : String) :
    utf8Bytes text = text.toList.flatMap String.utf8EncodeChar := by
  rw [utf8Bytes, String.toUTF8_eq_toByteArray, ← String.utf8Encode_toList, List.utf8Encode,
    List.toList_data_toByteArray]

/-! ## Characters -/

/-- A smaller byte decides. -/
theorem cons_ofNat_lt_of_lt {m n : Nat} (hn : n < 256) (hlt : m < n) (s t : List UInt8) :
    UInt8.ofNat m :: s < UInt8.ofNat n :: t := by
  refine List.cons_lt_cons_iff.mpr (.inl ?_)
  rw [UInt8.lt_iff_toNat_lt, UInt8.toNat_ofNat_of_lt' (Nat.lt_trans hlt hn),
    UInt8.toNat_ofNat_of_lt' hn]
  exact hlt

/-- A byte that is not larger decides, or it leaves the decision to what follows. -/
theorem cons_ofNat_lt {m n : Nat} (hn : n < 256) (hle : m ≤ n) {s t : List UInt8}
    (h : m = n → s < t) : UInt8.ofNat m :: s < UInt8.ofNat n :: t := by
  rcases Nat.lt_or_eq_of_le hle with hlt | rfl
  · exact cons_ofNat_lt_of_lt hn hlt s t
  · exact List.cons_lt_cons_iff.mpr (.inr ⟨rfl, h rfl⟩)

/-- **A smaller character decides.** -/
theorem utf8EncodeChar_append_lt {c d : Char} (h : c < d) (s t : List UInt8) :
    String.utf8EncodeChar c ++ s < String.utf8EncodeChar d ++ t := by
  have hlt : c.val.toNat < d.val.toNat := h
  have hbound : d.val.toNat < 0x110000 := by
    have hvalid : d.val.toNat.isValidChar := d.valid
    rcases hvalid with hlow | hhigh
    · omega
    · exact hhigh.2
  -- Characters of different lengths differ in their first bytes, others in some digit.
  fun_cases String.utf8EncodeChar c with
  | case1 v hv =>
    fun_cases String.utf8EncodeChar d with
    | case1 w hw => exact cons_ofNat_lt_of_lt (by omega) hlt _ _
    | _ => exact cons_ofNat_lt_of_lt (by omega) (by omega) _ _
  | case2 v hv hv' =>
    fun_cases String.utf8EncodeChar d with
    | case1 w hw => omega
    | case2 w hw hw' =>
      exact cons_ofNat_lt (by omega) (by omega) fun _ =>
        cons_ofNat_lt_of_lt (by omega) (by omega) _ _
    | _ => exact cons_ofNat_lt_of_lt (by omega) (by omega) _ _
  | case3 v hv hv' hv'' =>
    fun_cases String.utf8EncodeChar d with
    | case1 w hw => omega
    | case2 w hw hw' => omega
    | case3 w hw hw' hw'' =>
      exact cons_ofNat_lt (by omega) (by omega) fun _ =>
        cons_ofNat_lt (by omega) (by omega) fun _ =>
          cons_ofNat_lt_of_lt (by omega) (by omega) _ _
    | case4 w hw hw' hw'' => exact cons_ofNat_lt_of_lt (by omega) (by omega) _ _
  | case4 v hv hv' hv'' =>
    fun_cases String.utf8EncodeChar d with
    | case1 w hw => omega
    | case2 w hw hw' => omega
    | case3 w hw hw' hw'' => omega
    | case4 w hw hw' hw'' =>
      exact cons_ofNat_lt (by omega) (by omega) fun _ =>
        cons_ofNat_lt (by omega) (by omega) fun _ =>
          cons_ofNat_lt (by omega) (by omega) fun _ =>
            cons_ofNat_lt_of_lt (by omega) (by omega) _ _

/-! ## Texts -/

/-- A smaller text has smaller bytes. -/
theorem flatMap_utf8EncodeChar_lt {v w : List Char} (h : v < w) :
    v.flatMap String.utf8EncodeChar < w.flatMap String.utf8EncodeChar := by
  induction v generalizing w with
  | nil =>
    cases w with
    | nil => exact absurd h (List.lt_irrefl _)
    | cons d w =>
      obtain ⟨byte, bytes, hbytes⟩ :=
        List.exists_cons_of_ne_nil (String.utf8EncodeChar_ne_nil (c := d))
      rw [List.flatMap_nil, List.flatMap_cons, hbytes]
      exact List.nil_lt_cons _ _
  | cons c v ih =>
    cases w with
    | nil => exact absurd h (List.not_lt_nil _)
    | cons d w =>
      rw [List.flatMap_cons, List.flatMap_cons]
      rcases List.cons_lt_cons_iff.mp h with hlt | ⟨rfl, hrest⟩
      · exact utf8EncodeChar_append_lt hlt _ _
      · exact List.append_left_lt (ih hrest)

/-- **Texts are ordered as their bytes are.** -/
theorem lt_iff_utf8Bytes_lt {a b : String} : a < b ↔ utf8Bytes a < utf8Bytes b := by
  have hmono {a b : String} (h : a < b) : utf8Bytes a < utf8Bytes b := by
    rw [utf8Bytes_eq, utf8Bytes_eq]
    exact flatMap_utf8EncodeChar_lt (String.lt_iff.mp h)
  refine ⟨hmono, fun h => ?_⟩
  rcases Std.lt_trichotomy a b with hlt | rfl | hgt
  · exact hlt
  · exact absurd h (List.lt_irrefl _)
  · exact absurd (hmono hgt) (List.lt_asymm h)

/-- A path set is listed in the order of bytes. -/
theorem PathSet.pairwise_utf8Bytes (s : PathSet) :
    s.toList.Pairwise fun a b => utf8Bytes a < utf8Bytes b :=
  s.ascending.imp lt_iff_utf8Bytes_lt.mp

end AssetAudit
