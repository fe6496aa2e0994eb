import AssetAudit.Violation

/-!
# The violation log

A scan records what it finds in a log with a cap.  The log keeps the order of recording and holds no
violation twice, and once it is full it changes no more.  The cap can be changed at any time;
lowering it below the number of entries drops none of them.

`ViolationLog.entries` is the view of a log.  `ViolationLog.entries_add` says what recording does to
it, and `ViolationLog.visitAll` is how every check walks a list: it stops as soon as the log is
full.
-/

namespace AssetAudit

/-- The violations of one scan, in the order in which they were found. -/
structure ViolationLog where
  /-- How many entries the log may come to hold. -/
  cap : Nat
  entries : List Violation
  distinct : entries.Nodup

namespace ViolationLog

/-- A log without entries. -/
def empty (cap : Nat) : ViolationLog := ⟨cap, [], List.nodup_nil⟩

/-- How many violations a log holds unless something else is asked for. -/
def defaultCap : Nat := 999

/-- The number of entries. -/
def count (log : ViolationLog) : Nat := log.entries.length

/-- Can the log take a further violation? -/
def hasRoom (log : ViolationLog) : Bool := decide (log.count < log.cap)

/-- Does the log hold no entry? -/
def isEmpty (log : ViolationLog) : Bool := log.entries.isEmpty

/-- Would the log record the violation?  It must have room and not hold it yet. -/
def accepts (log : ViolationLog) (v : Violation) : Bool :=
  log.hasRoom && !log.entries.contains v

theorem hasRoom_iff {log : ViolationLog} :
    log.hasRoom = true ↔ log.entries.length < log.cap := decide_eq_true_iff

theorem accepts_iff {log : ViolationLog} {v : Violation} :
    log.accepts v = true ↔ log.entries.length < log.cap ∧ v ∉ log.entries := by
  simp [accepts, hasRoom_iff]

/-- Records a violation if the log accepts it. -/
def add (log : ViolationLog) (v : Violation) : ViolationLog :=
  if h : log.accepts v = true then
    { log with
      entries := log.entries ++ [v]
      distinct := by
        refine List.nodup_append.2 ⟨log.distinct, by simp, ?_⟩
        rintro a ha b hb rfl
        exact (accepts_iff.1 h).2 (List.mem_singleton.1 hb ▸ ha) }
  else log

/-- Records the violations of a list, in order. -/
def addAll (log : ViolationLog) (vs : List Violation) : ViolationLog :=
  vs.foldl add log

/-- Forgets all entries. -/
def clear (log : ViolationLog) : ViolationLog := empty log.cap

/-- Changes the cap and keeps the entries. -/
def withCap (log : ViolationLog) (cap : Nat) : ViolationLog := { log with cap }

/-- Visits the members of a list in order, as long as the log has room. -/
def visitAll {α : Type} (visit : ViolationLog → α → ViolationLog) :
    ViolationLog → List α → ViolationLog
  | log, [] => log
  | log, a :: as => if log.hasRoom then visitAll visit (visit log a) as else log

/-- How many entries each group has, groups in the order of their first entries. -/
def groupCounts (log : ViolationLog) : List (ViolationGroup × Nat) :=
  let groups := log.entries.map Violation.group
  groups.eraseDups.map fun g => (g, groups.count g)

/-! ## What the operations do to the entries -/

@[simp] theorem entries_empty (cap : Nat) : (empty cap).entries = [] := rfl

@[simp] theorem cap_empty (cap : Nat) : (empty cap).cap = cap := rfl

theorem entries_add (log : ViolationLog) (v : Violation) :
    (log.add v).entries =
      if log.entries.length < log.cap ∧ v ∉ log.entries then log.entries ++ [v]
      else log.entries := by
  unfold add
  by_cases h : log.accepts v = true
  · rw [dif_pos h, if_pos (accepts_iff.1 h)]
  · rw [dif_neg h, if_neg (fun h' => h (accepts_iff.2 h'))]

@[simp] theorem cap_add (log : ViolationLog) (v : Violation) : (log.add v).cap = log.cap := by
  unfold add
  split <;> rfl

@[simp] theorem entries_clear (log : ViolationLog) : log.clear.entries = [] := rfl

@[simp] theorem cap_clear (log : ViolationLog) : log.clear.cap = log.cap := rfl

@[simp] theorem entries_withCap (log : ViolationLog) (cap : Nat) :
    (log.withCap cap).entries = log.entries := rfl

@[simp] theorem cap_withCap (log : ViolationLog) (cap : Nat) : (log.withCap cap).cap = cap := rfl

@[simp] theorem cap_addAll (log : ViolationLog) (vs : List Violation) :
    (log.addAll vs).cap = log.cap := by
  unfold addAll
  induction vs generalizing log with
  | nil => rfl
  | cons v vs ih => rw [List.foldl_cons, ih, cap_add]

/-- A log that holds the first of the different members of a list goes on to hold the first of those
of a longer list. -/
theorem entries_addAll_of_eq {log : ViolationLog} {before : List Violation}
    (h : log.entries = before.eraseDups.take log.cap) (vs : List Violation) :
    (log.addAll vs).entries = (before ++ vs).eraseDups.take log.cap := by
  induction vs generalizing log before with
  | nil => simpa [addAll] using h
  | cons v vs ih =>
    have hstep : (log.add v).entries = (before ++ [v]).eraseDups.take (log.add v).cap := by
      rw [entries_add, cap_add, h, List.eraseDups_append, List.length_take]
      by_cases hv : v ∈ before
      · have hrest : ([v].removeAll before).eraseDups = [] := by simp [List.removeAll, hv]
        rw [hrest, List.append_nil, if_neg]
        rintro ⟨hroom, hnew⟩
        rw [List.take_of_length_le (by omega)] at hnew
        exact hnew (List.mem_eraseDups.2 hv)
      · have hrest : ([v].removeAll before).eraseDups = [v] := by
          simp [List.removeAll, hv, List.eraseDups_cons]
        have hnew : v ∉ before.eraseDups.take log.cap := fun hmem =>
          hv (List.mem_eraseDups.1 (List.mem_of_mem_take hmem))
        rw [hrest]
        by_cases hroom : before.eraseDups.length < log.cap
        · rw [if_pos ⟨by omega, hnew⟩, List.take_of_length_le (by omega),
            List.take_of_length_le (by simp; omega)]
        · rw [if_neg (by omega), List.take_append_of_le_length (by omega)]
    have hrest := ih hstep
    rw [cap_add, List.append_assoc, List.singleton_append] at hrest
    exact hrest

/-- A log that has taken a list holds the first of its different members. -/
theorem entries_addAll_empty (cap : Nat) (vs : List Violation) :
    ((empty cap).addAll vs).entries = vs.eraseDups.take cap := by
  have h : (empty cap).entries = ([] : List Violation).eraseDups.take (empty cap).cap := by simp
  simpa using entries_addAll_of_eq h vs

/-- A log is its cap and its entries. -/
theorem ext {log log' : ViolationLog} (hcap : log.cap = log'.cap)
    (hentries : log.entries = log'.entries) : log = log' := by
  cases log
  cases log'
  simp_all

end ViolationLog

end AssetAudit
