import AssetAudit.Category

/-!
# Sets of file categories

A condition rule applies to a set of file categories, and a scan filter enables one.  A set is its
membership test.  Configurations write a set either as the list of its members' names or as a number
whose bit `i` stands for the category of index `i`; bits above the eighth mean nothing.

`CategorySet.toList` is the view that everything written out goes through, and it determines the set
(`CategorySet.ofList_toList`).
-/

namespace AssetAudit

/-- A set of file categories. -/
@[ext] structure CategorySet where
  /-- The membership test. -/
  contains : FileCategory → Bool

namespace CategorySet

/-- No category. -/
def empty : CategorySet := ⟨fun _ => false⟩

/-- Every category. -/
def all : CategorySet := ⟨fun _ => true⟩

/-- The set with one more member. -/
def insert (s : CategorySet) (c : FileCategory) : CategorySet :=
  ⟨fun d => d == c || s.contains d⟩

/-- The set without a member. -/
def erase (s : CategorySet) (c : FileCategory) : CategorySet :=
  ⟨fun d => d != c && s.contains d⟩

/-- The members of either set. -/
def union (s t : CategorySet) : CategorySet :=
  ⟨fun c => s.contains c || t.contains c⟩

/-- The set of the members of a list. -/
def ofList (members : List FileCategory) : CategorySet :=
  ⟨fun c => members.contains c⟩

/-- The members, in bit order. -/
def toList (s : CategorySet) : List FileCategory :=
  FileCategory.all.filter s.contains

/-- Has the set no member? -/
def isEmpty (s : CategorySet) : Bool := s.toList.isEmpty

/-- The set that a number stands for. -/
def ofBits (bits : Nat) : CategorySet :=
  ⟨fun c => bits.testBit c.index⟩

/-- The number whose bits stand for the members of a list. -/
def bitsOf (members : List FileCategory) : Nat :=
  members.foldr (fun c n => 1 <<< c.index ||| n) 0

/-- The number that stands for the set. -/
def bits (s : CategorySet) : Nat :=
  bitsOf s.toList

/-! ## Membership -/

@[simp] theorem contains_empty (c : FileCategory) : empty.contains c = false := rfl

@[simp] theorem contains_all (c : FileCategory) : all.contains c = true := rfl

@[simp] theorem contains_insert (s : CategorySet) (c d : FileCategory) :
    (s.insert c).contains d = (d == c || s.contains d) := rfl

@[simp] theorem contains_erase (s : CategorySet) (c d : FileCategory) :
    (s.erase c).contains d = (d != c && s.contains d) := rfl

@[simp] theorem contains_union (s t : CategorySet) (c : FileCategory) :
    (s.union t).contains c = (s.contains c || t.contains c) := rfl

@[simp] theorem contains_ofList (members : List FileCategory) (c : FileCategory) :
    (ofList members).contains c = members.contains c := rfl

@[simp] theorem contains_ofBits (bits : Nat) (c : FileCategory) :
    (ofBits bits).contains c = bits.testBit c.index := rfl

theorem mem_toList {s : CategorySet} {c : FileCategory} : c ∈ s.toList ↔ s.contains c = true := by
  simp [toList]

/-- The list of its members determines a set. -/
@[simp] theorem ofList_toList (s : CategorySet) : ofList s.toList = s := by
  ext c
  rw [contains_ofList, Bool.eq_iff_iff, List.contains_iff_mem, mem_toList]

/-! ## Sets and their numbers -/

theorem testBit_bitsOf (members : List FileCategory) (c : FileCategory) :
    (bitsOf members).testBit c.index = members.contains c := by
  induction members with
  | nil => simp [bitsOf]
  | cons d rest ih =>
    have hd : (1 <<< d.index).testBit c.index = (c == d) := by
      cases c <;> cases d <;> decide
    rw [bitsOf, List.foldr_cons, Nat.testBit_or, hd, ← bitsOf, ih, List.contains_cons]

/-- The number of a set determines it. -/
@[simp] theorem ofBits_bits (s : CategorySet) : ofBits s.bits = s := by
  ext c
  rw [contains_ofBits, bits, testBit_bitsOf, Bool.eq_iff_iff, List.contains_iff_mem, mem_toList]

end CategorySet

end AssetAudit
