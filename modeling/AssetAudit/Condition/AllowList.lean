/-!
# Allow-lists

The folders in which assets of one category are correctly placed because a condition rule names
them.  An allow-list keeps the order in which folders were allowed and holds each of them once; a
folder is looked up by its exact text.
-/

namespace AssetAudit

/-- Folders that condition rules allow, each once. -/
structure AllowList where
  folders : List String
  distinct : folders.Nodup

namespace AllowList

/-- No folder is allowed. -/
def empty : AllowList := ⟨[], List.nodup_nil⟩

/-- Is exactly this folder allowed? -/
def contains (allowed : AllowList) (folder : String) : Bool :=
  allowed.folders.contains folder

/-- Allows one more folder. -/
def insert (allowed : AllowList) (folder : String) : AllowList :=
  if h : folder ∈ allowed.folders then allowed
  else
    { folders := allowed.folders ++ [folder]
      distinct := by
        refine List.nodup_append.2 ⟨allowed.distinct, by simp, ?_⟩
        rintro a ha b hb rfl
        exact h (List.mem_singleton.1 hb ▸ ha) }

/-- The allow-list of the folders of a list. -/
def ofList (folders : List String) : AllowList := folders.foldl insert empty

/-- The number of allowed folders. -/
def count (allowed : AllowList) : Nat := allowed.folders.length

/-- Is no folder allowed? -/
def isEmpty (allowed : AllowList) : Bool := allowed.folders.isEmpty

@[simp] theorem folders_empty : empty.folders = [] := rfl

theorem contains_iff {allowed : AllowList} {folder : String} :
    allowed.contains folder = true ↔ folder ∈ allowed.folders := by
  simp [contains]

theorem folders_insert (allowed : AllowList) (folder : String) :
    (allowed.insert folder).folders =
      if folder ∈ allowed.folders then allowed.folders else allowed.folders ++ [folder] := by
  unfold insert
  split <;> rfl

@[simp] theorem mem_folders_insert {allowed : AllowList} {folder other : String} :
    other ∈ (allowed.insert folder).folders ↔ other ∈ allowed.folders ∨ other = folder := by
  rw [folders_insert]
  split
  · next h =>
    constructor
    · exact .inl
    · rintro (hother | rfl)
      · exact hother
      · exact h
  · simp

/-- An allow-list that holds the different members of a list goes on to hold those of a longer
list. -/
theorem folders_foldl_insert_of_eq {allowed : AllowList} {before : List String}
    (h : allowed.folders = before.eraseDups) (folders : List String) :
    (folders.foldl insert allowed).folders = (before ++ folders).eraseDups := by
  induction folders generalizing allowed before with
  | nil => simpa using h
  | cons folder folders ih =>
    have hstep : (allowed.insert folder).folders = (before ++ [folder]).eraseDups := by
      rw [folders_insert, h, List.eraseDups_append]
      by_cases hold : folder ∈ before <;>
        simp [List.removeAll, hold, List.eraseDups_cons]
    rw [List.foldl_cons, ih hstep, List.append_assoc, List.singleton_append]

/-- The allow-list of a list holds its different members, in the order of their first
occurrences. -/
@[simp] theorem folders_ofList (folders : List String) :
    (ofList folders).folders = folders.eraseDups := by
  have h : empty.folders = ([] : List String).eraseDups := by simp
  simpa [ofList] using folders_foldl_insert_of_eq h folders

/-- An allow-list is its list of folders. -/
theorem ext {allowed allowed' : AllowList} (h : allowed.folders = allowed'.folders) :
    allowed = allowed' := by
  cases allowed
  cases allowed'
  simp_all

end AllowList

end AssetAudit
