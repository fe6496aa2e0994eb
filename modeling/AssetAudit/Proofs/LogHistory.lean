import AssetAudit.Proofs.FirstOccurrences
import AssetAudit.Violation.Log
import Mathlib.Data.Finset.Insert

/-!
# Logs through all their operations

A log is recorded into, cleared, and given another cap, in any order.  A cap may be lowered below
the number of entries; such a log is full and more than full, and goes on holding what it holds.

* `ViolationLog.entries_addAll`: what a list of violations adds to a log in whatever state.  Behind
  the entries stand the first occurrences of what is new, as many of them as there is room for; a
  log with more entries than its cap allows has room for none.
* `ViolationLog.largestCap` follows the caps through a history since the log was last cleared.  One
  step keeps the number of entries within it (`ViolationLog.count_add_le`), hence so does every
  history (`ViolationLog.count_run_le`).
* `IndexedLog` is a log in two collections: the entries in order, and the set of what has been
  recorded, which is asked whether a violation is new.  No history brings the two out of step
  (`IndexedLog.Keeps.run`), so such a log answers as one without an index.
-/

namespace AssetAudit

namespace ViolationLog

/-! ## Histories -/

/-- One operation on a log. -/
inductive Step where
  | add (v : Violation)
  | clear
  | withCap (cap : Nat)

/-- The log after one operation. -/
def perform (log : ViolationLog) : Step → ViolationLog
  | .add v => log.add v
  | .clear => log.clear
  | .withCap cap => log.withCap cap

/-- The log after a history of operations. -/
def run (log : ViolationLog) (steps : List Step) : ViolationLog := steps.foldl perform log

/-! ## Recording -/

/-- A violation that is accepted comes last. -/
theorem entries_add_of_accepts {log : ViolationLog} {v : Violation} (h : log.accepts v = true) :
    (log.add v).entries = log.entries ++ [v] := by
  rw [entries_add, if_pos (accepts_iff.mp h)]

/-- A violation that is not accepted changes nothing. -/
theorem add_of_not_accepts {log : ViolationLog} {v : Violation} (h : log.accepts v = false) :
    log.add v = log := by
  rw [add, dif_neg (by rw [h]; exact Bool.false_ne_true)]

/-- A log without room takes nothing from a list. -/
theorem addAll_of_le {log : ViolationLog} (h : log.cap ≤ log.count) (vs : List Violation) :
    log.addAll vs = log := by
  induction vs with
  | nil => rfl
  | cons v vs ih =>
    have hfull : log.accepts v = false := by
      rw [← Bool.not_eq_true, accepts_iff]
      exact fun hroom => absurd hroom.1 (Nat.not_lt.mpr h)
    rw [addAll, List.foldl_cons, add_of_not_accepts hfull]
    exact ih

/-- **What a list adds to a log**: the first occurrences of what is new, as far as there is room. -/
theorem entries_addAll (log : ViolationLog) (vs : List Violation) :
    (log.addAll vs).entries =
      log.entries ++ (vs.filter (· ∉ log.entries)).eraseDups.take (log.cap - log.count) := by
  rcases Nat.le_total log.count log.cap with hroom | hfull
  · have hself : log.entries = log.entries.eraseDups.take log.cap := by
      rw [eraseDups_eq_self log.distinct, List.take_of_length_le hroom]
    rw [entries_addAll_of_eq hself, eraseDups_append_of_nodup log.distinct, List.take_append,
      List.take_of_length_le hroom]
    rfl
  · rw [addAll_of_le hfull, Nat.sub_eq_zero_of_le hfull, List.take_zero, List.append_nil]

/-- Recording one violation after the other is a history. -/
theorem run_map_add (log : ViolationLog) (vs : List Violation) :
    log.run (vs.map .add) = log.addAll vs := by
  rw [run, addAll, List.foldl_map]
  rfl

/-! ## The number of entries -/

/-- The largest cap in force since the log was last cleared.  The cap in force at first is given,
with the largest until then. -/
def largestCap (cap largest : Nat) : List Step → Nat
  | [] => largest
  | .add _ :: steps => largestCap cap largest steps
  | .clear :: steps => largestCap cap cap steps
  | .withCap next :: steps => largestCap next (max largest next) steps

/-- Recording keeps the number of entries below everything that the cap is below. -/
theorem count_add_le {log : ViolationLog} {largest : Nat} (hcount : log.count ≤ largest)
    (hcap : log.cap ≤ largest) (v : Violation) : (log.add v).count ≤ largest := by
  cases h : log.accepts v with
  | true =>
    have hroom : log.entries.length < log.cap := (accepts_iff.mp h).1
    rw [count, entries_add_of_accepts h, List.length_append, List.length_singleton]
    omega
  | false => rwa [add_of_not_accepts h]

/-- **The number of entries** never exceeds the largest cap in force since the log was last
cleared. -/
theorem count_run_le {log : ViolationLog} {largest : Nat} (hcount : log.count ≤ largest)
    (hcap : log.cap ≤ largest) (steps : List Step) :
    (log.run steps).count ≤ largestCap log.cap largest steps := by
  induction steps generalizing log largest with
  | nil => exact hcount
  | cons step steps ih =>
    cases step with
    | add v =>
      have hstep := ih (count_add_le hcount hcap v) (by rwa [cap_add])
      rwa [cap_add] at hstep
    | clear =>
      have hnone : log.clear.count ≤ log.cap := Nat.zero_le _
      exact ih hnone (Nat.le_refl _)
    | withCap next =>
      have hsame : (log.withCap next).count ≤ max largest next :=
        Nat.le_trans hcount (Nat.le_max_left _ _)
      exact ih hsame (Nat.le_max_right _ _)

end ViolationLog

/-! ## Logs with an index -/

/-- A log in two collections. -/
structure IndexedLog where
  cap : Nat
  entries : List Violation
  /-- What has been recorded; it is asked instead of the entries. -/
  seen : Finset Violation

namespace IndexedLog

open ViolationLog (Step)

/-- A log without entries. -/
def empty (cap : Nat) : IndexedLog := ⟨cap, [], ∅⟩

/-- Would the log record the violation? -/
def accepts (log : IndexedLog) (v : Violation) : Bool :=
  decide (log.entries.length < log.cap) && !decide (v ∈ log.seen)

/-- Records a violation in both collections if the log accepts it. -/
def add (log : IndexedLog) (v : Violation) : IndexedLog :=
  if log.accepts v then
    { log with entries := log.entries ++ [v], seen := insert v log.seen }
  else log

/-- The log after one operation. -/
def perform (log : IndexedLog) : Step → IndexedLog
  | .add v => log.add v
  | .clear => { log with entries := [], seen := ∅ }
  | .withCap cap => { log with cap }

/-- The log after a history of operations. -/
def run (log : IndexedLog) (steps : List Step) : IndexedLog := steps.foldl perform log

/-- A log with an index keeps what another log holds, and its two collections have the same
members. -/
structure Keeps (indexed : IndexedLog) (log : ViolationLog) : Prop where
  cap_eq : indexed.cap = log.cap
  entries_eq : indexed.entries = log.entries
  mem_seen_iff : ∀ v, v ∈ indexed.seen ↔ v ∈ log.entries

variable {indexed : IndexedLog} {log : ViolationLog}

theorem keeps_empty (cap : Nat) : (empty cap).Keeps (.empty cap) where
  cap_eq := rfl
  entries_eq := rfl
  mem_seen_iff v := by simp [empty]

/-- Asking the index is asking the entries. -/
theorem Keeps.accepts_eq (h : indexed.Keeps log) (v : Violation) :
    indexed.accepts v = log.accepts v := by
  rw [Bool.eq_iff_iff, ViolationLog.accepts_iff]
  simp [accepts, h.cap_eq, h.entries_eq, h.mem_seen_iff]

theorem Keeps.add (h : indexed.Keeps log) (v : Violation) : (indexed.add v).Keeps (log.add v) := by
  rw [IndexedLog.add, h.accepts_eq]
  cases haccepts : log.accepts v with
  | true =>
    have hentries := ViolationLog.entries_add_of_accepts haccepts
    rw [if_pos rfl]
    constructor
    · rw [ViolationLog.cap_add, h.cap_eq]
    · rw [hentries, h.entries_eq]
    · intro w
      rw [hentries, Finset.mem_insert, h.mem_seen_iff, List.mem_append, List.mem_singleton]
      exact or_comm
  | false =>
    rw [if_neg Bool.false_ne_true, ViolationLog.add_of_not_accepts haccepts]
    exact h

/-- **One operation** leaves the two collections in step. -/
theorem Keeps.perform (h : indexed.Keeps log) (step : Step) :
    (indexed.perform step).Keeps (log.perform step) := by
  cases step with
  | add v => exact h.add v
  | clear => exact ⟨h.cap_eq, rfl, fun v => by simp [IndexedLog.perform, ViolationLog.perform]⟩
  | withCap cap => exact ⟨rfl, h.entries_eq, h.mem_seen_iff⟩

/-- **A history** leaves the two collections in step. -/
theorem Keeps.run (h : indexed.Keeps log) (steps : List Step) :
    (indexed.run steps).Keeps (log.run steps) := by
  induction steps generalizing indexed log with
  | nil => exact h
  | cons step steps ih => exact ih (h.perform step)

end IndexedLog

namespace ViolationLog

/-- **Logs after any history.**  Take a log without entries, with any cap, and record violations,
clear it and change its cap, in any order and to any caps.  Afterwards

* no violation is recorded twice, and the number of entries is at most the largest cap in force
  since the log was last cleared;
* a violation is accepted exactly if the number of entries is below the cap and it is not recorded;
  then it is recorded behind the others, and otherwise the log stays as it is;
* a cleared log holds nothing and accepts everything, if its cap is not zero, and a changed cap
  leaves the entries alone;
* a list of violations adds the first occurrences of what is new, as many as there is room for; in
  particular a new log of a cap takes that many first occurrences;
* a log that is asked through an index of its entries accepts the same violations and holds the
  same. -/
theorem log_after_any_history (cap : Nat) (steps : List Step) :
    let log := (empty cap).run steps
    let indexed := (IndexedLog.empty cap).run steps
    log.entries.Nodup ∧
      log.count ≤ largestCap cap cap steps ∧
      (∀ v, (log.accepts v = true ↔ log.count < log.cap ∧ v ∉ log.entries) ∧
        (log.accepts v = true →
          (log.add v).entries = log.entries ++ [v] ∧ (log.add v).cap = log.cap) ∧
        (log.accepts v = false → log.add v = log)) ∧
      (log.clear.entries = [] ∧ log.clear.cap = log.cap ∧
        ∀ v, log.clear.accepts v = true ↔ 0 < log.cap) ∧
      (∀ next, (log.withCap next).entries = log.entries ∧ (log.withCap next).cap = next) ∧
      (∀ vs : List Violation, (log.run (vs.map .add)).entries =
        log.entries ++ (vs.filter (· ∉ log.entries)).eraseDups.take (log.cap - log.count)) ∧
      (∀ (n : Nat) (vs : List Violation),
        ((empty n).run (vs.map .add)).entries = vs.eraseDups.take n) ∧
      indexed.entries = log.entries ∧ (∀ v, v ∈ indexed.seen ↔ v ∈ log.entries) ∧
        ∀ v, indexed.accepts v = log.accepts v := by
  intro log indexed
  have hkeeps : indexed.Keeps log := (IndexedLog.keeps_empty cap).run steps
  refine ⟨log.distinct, count_run_le (Nat.zero_le _) (Nat.le_refl _) steps, fun v => ?_, ?_, ?_,
    ?_, ?_, hkeeps.entries_eq, hkeeps.mem_seen_iff, hkeeps.accepts_eq⟩
  · exact ⟨accepts_iff, fun h => ⟨entries_add_of_accepts h, cap_add _ _⟩, add_of_not_accepts⟩
  · refine ⟨rfl, rfl, fun v => ?_⟩
    rw [accepts_iff]
    simp
  · exact fun next => ⟨rfl, rfl⟩
  · intro vs
    rw [run_map_add, entries_addAll]
  · intro n vs
    rw [run_map_add, entries_addAll_empty]

/-- Two violations are recorded under a cap of two, which is lowered to one.  Both stay, a third is
turned away, and after the log has been cleared one of them is accepted again. -/
theorem log_after_any_history_lowered_cap :
    let axe : Violation := ⟨.prefabName, .prefab, "axe.prefab", "Assets/Prefabs", ""⟩
    let bow : Violation := ⟨.prefabName, .prefab, "bow.prefab", "Assets/Prefabs", ""⟩
    let club : Violation := ⟨.prefabName, .prefab, "club.prefab", "Assets/Prefabs", ""⟩
    let steps : List Step := [.add axe, .add bow, .add axe, .withCap 1]
    let log := (empty 2).run steps
    largestCap 2 2 steps = 2 ∧ log.entries = [axe, bow] ∧ log.cap = 1 ∧ log.accepts club = false ∧
      log.add club = log ∧ log.clear.accepts axe = true ∧ (log.clear.add axe).entries = [axe] := by
  intro axe bow club steps log
  have hentries : log.entries = [axe, bow] := by decide
  have hclub : log.accepts club = false := by decide
  have hhistory := log_after_any_history 2 steps
  have haxe : log.clear.accepts axe = true := (hhistory.2.2.2.1.2.2 axe).mpr (by decide)
  have hagain := log_after_any_history 2 (steps ++ [.clear])
  exact ⟨rfl, hentries, rfl, hclub, (hhistory.2.2.1 club).2.2 hclub, haxe,
    ((hagain.2.2.1 axe).2.1 haxe).1⟩

end ViolationLog
end AssetAudit
