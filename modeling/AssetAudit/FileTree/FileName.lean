/-!
# File names

A file system knows its entries by bytes.  Most names are texts, their bytes being UTF-8, and only
such names can be written in a path text.  A `FileName` is either a text or bytes that are none.

Whoever shows a name needs a text for it.  `FileName.shown` puts a replacement character where the
bytes break off or do not start a character, so different names can look alike.  What is shown
without a replacement character was a text (`FileName.replacement_mem_shown`).
-/

namespace AssetAudit

/-! ## Bytes as text -/

namespace Utf8

/-- The character that is shown for bytes that are no text. -/
def replacement : Char := '\uFFFD'

/-- Can a byte follow the first byte of a character that has three or four bytes? -/
def isSecond (first second : UInt8) : Bool :=
  if first = 0xE0 then 0xA0 ≤ second && second ≤ 0xBF
  else if first = 0xED then 0x80 ≤ second && second ≤ 0x9F
  else if first = 0xF0 then 0x90 ≤ second && second ≤ 0xBF
  else if first = 0xF4 then 0x80 ≤ second && second ≤ 0x8F
  else 0xE1 ≤ first && first ≤ 0xF3 && 0x80 ≤ second && second ≤ 0xBF

/-- How many bytes one replacement character stands for: those with which a character starts and
then breaks off, and at least one. -/
def brokenLength : List UInt8 → Nat
  | first :: second :: third :: _ =>
      if !isSecond first second then 1
      else if 0xF0 ≤ first && 0x80 ≤ third && third ≤ 0xBF then 3
      else 2
  | [first, second] => if isSecond first second then 2 else 1
  | _ => 1

/-- The characters of bytes, the first few of which are passed over. -/
def decode : Nat → List UInt8 → List Char
  | _, [] => []
  | passed + 1, _ :: rest => decode passed rest
  | 0, byte :: rest =>
      match (byte :: rest).toByteArray.utf8DecodeChar? 0 with
      | some c => c :: decode (c.utf8Size - 1) rest
      | none => replacement :: decode (brokenLength (byte :: rest) - 1) rest

/-- Bytes that are passed over are left out. -/
theorem decode_eq_decode_drop (passed : Nat) (bytes : List UInt8) :
    decode passed bytes = decode 0 (bytes.drop passed) := by
  induction passed generalizing bytes with
  | zero => rfl
  | succ passed ih =>
    cases bytes with
    | nil => rfl
    | cons byte rest => exact ih rest

/-- A character that is decoded is the first one of the bytes. -/
theorem exists_append_of_decodeChar {bytes : List UInt8} {c : Char}
    (h : bytes.toByteArray.utf8DecodeChar? 0 = some c) :
    ∃ rest, bytes = String.utf8EncodeChar c ++ rest := by
  obtain ⟨rest, hrest⟩ := ByteArray.exists_of_utf8DecodeChar?_eq_some h
  refine ⟨rest.data.toList, List.toByteArray_inj.mp ?_⟩
  rw [List.toByteArray_append, hrest]
  have hbytes : rest.data.toList.toByteArray = rest :=
    ByteArray.ext (by rw [List.data_toByteArray, Array.toArray_toList])
  rw [hbytes]

/-- **What is decoded without a replacement is text.** -/
theorem utf8Encode_decode {bytes : List UInt8} (h : replacement ∉ decode 0 bytes) :
    (decode 0 bytes).utf8Encode = bytes.toByteArray := by
  induction hlength : bytes.length using Nat.strongRecOn generalizing bytes with
  | ind length ih =>
    cases bytes with
    | nil => rfl
    | cons byte rest =>
      rw [decode] at h ⊢
      cases hchar : (byte :: rest).toByteArray.utf8DecodeChar? 0 with
      | none => simp [hchar] at h
      | some c =>
        simp only [hchar, List.mem_cons, not_or] at h ⊢
        obtain ⟨after, hafter⟩ := exists_append_of_decodeChar hchar
        -- The bytes behind the character are fewer, and they are what is decoded next.
        have hsize := String.length_utf8EncodeChar c
        have hpos := Char.utf8Size_pos c
        have hdrop : rest.drop (c.utf8Size - 1) = after := by
          have hwhole := congrArg (List.drop c.utf8Size) hafter
          rw [List.drop_left' hsize] at hwhole
          rw [← hwhole, ← Nat.sub_add_cancel hpos, List.drop_succ_cons, Nat.add_sub_cancel]
        have hshorter : after.length < length := by
          rw [← hlength, hafter, List.length_append]
          omega
        rw [decode_eq_decode_drop, hdrop] at h ⊢
        rw [List.utf8Encode_cons, List.utf8Encode_singleton, ih _ hshorter h.2 rfl, hafter,
          List.toByteArray_append]

end Utf8

/-! ## Names -/

/-- The name of an entry. -/
inductive FileName where
  | text (name : String)
  /-- Bytes that are no text. -/
  | raw (bytes : List UInt8) (h : ¬ bytes.toByteArray.IsValidUTF8)
  deriving DecidableEq

namespace FileName

instance : Coe String FileName := ⟨text⟩

/-- The number of bytes. -/
def size : FileName → Nat
  | text name => name.utf8ByteSize
  | raw bytes _ => bytes.length

/-- The text that is shown for the name. -/
def shown : FileName → String
  | text name => name
  | raw bytes _ => String.ofList (Utf8.decode 0 bytes)

@[simp] theorem shown_text (name : String) : (text name).shown = name := rfl

@[simp] theorem size_text (name : String) : (text name).size = name.utf8ByteSize := rfl

/-- Is the name a text? -/
def isText : FileName → Bool
  | text _ => true
  | raw _ _ => false

/-- **Bytes that are no text show a replacement character.** -/
theorem replacement_mem_shown {name : FileName} (h : name.isText = false) :
    Utf8.replacement ∈ name.shown.toList := by
  cases name with
  | text name => cases h
  | raw bytes hbytes =>
    rw [shown, String.toList_ofList]
    exact Decidable.byContradiction fun hnone => hbytes ⟨_, (Utf8.utf8Encode_decode hnone).symm⟩

/-- A name that is a text is what it looks like. -/
theorem eq_text_shown {name : FileName} (h : name.isText = true) : name = text name.shown := by
  cases name with
  | text name => rfl
  | raw bytes hbytes => cases h

/-! ## Special names -/

/-- The name for staying where one is. -/
def here : FileName := text "."

/-- The name for going one folder up. -/
def up : FileName := text ".."

/-- What stands in front of a slash too many. -/
def nothing : FileName := text ""

/-- Is the name none of those? -/
def isPlain (name : FileName) : Bool :=
  name != nothing && name != here && name != up

/-- The greatest length of a name, in bytes. -/
def maxBytes : Nat := 255

/-- Does the name hold a slash or a NUL character, with which names end in a path? -/
def holdsEnd : FileName → Bool
  | text name => name.toList.contains '/' || name.toList.contains '\x00'
  | raw bytes _ => bytes.contains 0x2F || bytes.contains 0x00

/-- Can an entry have the name? -/
def isLegal (name : FileName) : Bool :=
  name.isPlain && decide (name.size ≤ maxBytes) && !name.holdsEnd

/-- What stands between two slashes of a path text, or nothing. -/
structure Piece where
  name : FileName
  not_holdsEnd : name.holdsEnd = false
  deriving DecidableEq

theorem isPlain_of_isLegal {name : FileName} (h : name.isLegal = true) : name.isPlain = true := by
  rw [isLegal, Bool.and_eq_true, Bool.and_eq_true] at h
  exact h.1.1

theorem size_le_of_isLegal {name : FileName} (h : name.isLegal = true) : name.size ≤ maxBytes := by
  rw [isLegal, Bool.and_eq_true, Bool.and_eq_true, decide_eq_true_eq] at h
  exact h.1.2

end FileName
end AssetAudit
