import AssetAudit.Report.Text
import Mathlib.Data.List.Basic

/-!
# The printed text

A text report is composed of lines with parts that stand out, and then printed.  This file gives the
printed text itself, and `TextReport.renderAll_lines` says that it is this text that is printed: a
header, a paragraph for each section of the log, and a verdict, or the verdict alone if the scan has
passed.

Texts of violations hold names of folders and files, in which anything may stand, also a line break.
So what a text says about the verdict is read off where it stands and not off the lines that it has:
`TextReport.append_failedText_ne` compares the two verdicts at the first character in which they
differ.
-/

namespace AssetAudit

/-- A text between the escape sequences with which it stands out, where colours are wanted. -/
def styled (colour : Bool) (parameters text : String) : String :=
  if colour then "\x1b[" ++ parameters ++ "m" ++ text ++ "\x1b[0m" else text

namespace Emphasis

@[simp] theorem apply_plain (colour : Bool) (text : String) : plain.apply colour text = text := rfl

theorem apply_eq_styled {e : Emphasis} {parameters : String} (h : e.code? = some parameters)
    (colour : Bool) (text : String) : e.apply colour text = styled colour parameters text := by
  rw [apply, h]
  rfl

end Emphasis

namespace TextReport

/-! ## What is printed -/

/-- The first line. -/
def headerText (colour : Bool) (project : String) : String :=
  styled colour "1;36" "Scanning:" ++ " " ++ project ++ "\n"

/-- The sign of a violation. -/
def signText (colour : Bool) : ViolationGroup → String
  | .wrongName | .wrongLocation => styled colour "31" "x"
  | .notExists | .notContain | .notValid => styled colour "33" "!"

/-- A violation: a sign, the category and the full path, and on a line of its own what was expected,
if anything was. -/
def violationText (colour : Bool) (v : Violation) : String :=
  "  " ++ signText colour v.group ++ " [" ++ v.category.name ++ "] " ++ v.fullPath ++ "\n" ++
    (if v.hint = "" then "" else "      " ++ styled colour "2" "expected:" ++ " " ++ v.hint ++ "\n")

/-- A blank line, the heading of a group with the number of its violations, and the violations. -/
def sectionText (colour : Bool) (s : ReportSection) : String :=
  "\n" ++ styled colour "1;31" (s.group.label ++ " (" ++ toString s.count ++ ")") ++ "\n" ++
    String.join (s.entries.map (violationText colour))

/-- The last line of a scan that has passed. -/
def passedText (colour : Bool) (milliseconds : Nat) : String :=
  styled colour "1;32" "PASSED" ++ " No violations found " ++
    styled colour "2" ("(" ++ toString milliseconds ++ " ms)") ++ "\n"

/-- The last line of a scan that has not. -/
def failedText (colour : Bool) (log : ViolationLog) (milliseconds : Nat) : String :=
  styled colour "1;31" "FAILED" ++ " " ++
    styled colour "2"
      (toString log.count ++ " violation(s) in " ++ toString milliseconds ++ " ms" ++
        if log.hasRoom then "" else ", limit reached") ++ "\n"

/-! ## That it is printed -/

theorem renderAll_violationLines (colour : Bool) (v : Violation) :
    Line.renderAll colour (violationLines v) = violationText colour v := by
  have hexpected : Emphasis.faint.apply colour "expected:" = styled colour "2" "expected:" :=
    Emphasis.apply_eq_styled rfl _ _
  have hsign : (marker v.group).1.apply colour (marker v.group).2 = signText colour v.group := by
    cases v.group <;> exact Emphasis.apply_eq_styled rfl _ _
  rw [violationLines, violationText, ← hsign, Line.renderAll_cons]
  by_cases hhint : v.hint = ""
  · simp [hhint, String.append_assoc]
  · have hempty : ¬ v.hint.isEmpty = true := fun h => hhint (String.isEmpty_iff.mp h)
    simp [hhint, hempty, hexpected, String.append_assoc]

theorem renderAll_sectionLines (colour : Bool) (s : ReportSection) :
    Line.renderAll colour (sectionLines s) = sectionText colour s := by
  rw [sectionLines, sectionText, Line.renderAll_cons, Line.renderAll_cons, Line.renderAll_flatMap]
  simp only [renderAll_violationLines, Line.blank, Line.render_nil, Line.render_cons,
    Emphasis.apply_eq_styled (e := .failure) rfl, String.append_empty, String.empty_append,
    String.append_assoc]

/-- **What is printed of a report.** -/
theorem renderAll_lines (colour : Bool) (project : String) (log : ViolationLog)
    (milliseconds : Nat) :
    Line.renderAll colour (lines project log milliseconds) =
      headerText colour project ++
        if log.hasPassed then "\n" ++ passedText colour milliseconds
        else String.join (log.sections.map (sectionText colour)) ++ "\n" ++
          failedText colour log milliseconds := by
  have hheader : Line.renderAll colour [[(.heading, "Scanning:"), (.plain, " " ++ project)]] =
      headerText colour project := by
    simp [headerText, Emphasis.apply_eq_styled (e := .heading) rfl, String.append_assoc]
  rw [lines, ← List.singleton_append, Line.renderAll_append, hheader]
  refine congrArg (headerText colour project ++ ·) ?_
  split
  · simp [passedText, successLine, Line.blank, Emphasis.apply_eq_styled (e := .success) rfl,
      Emphasis.apply_eq_styled (e := .faint) rfl, String.append_assoc]
  · rw [Line.renderAll_append, Line.renderAll_flatMap]
    simp [renderAll_sectionLines, failedText, failureLine, Line.blank,
      Emphasis.apply_eq_styled (e := .failure) rfl, Emphasis.apply_eq_styled (e := .faint) rfl,
      String.append_assoc]

/-! ## The two verdicts -/

/-- A heading or a failure is told from a success by its colour or by its first character. -/
theorem styled_failure_ne {colour : Bool} {text : String} (h : text.toList.head? ≠ some 'P')
    (hne : text ≠ "") (rest rest' : String) :
    styled colour "1;31" text ++ rest ≠ styled colour "1;32" "PASSED" ++ rest' := by
  intro hsame
  have hlist := congrArg String.toList hsame
  cases colour with
  | true => simp [styled] at hlist
  | false =>
    have htext : (styled false "1;31" text).toList ≠ [] := by simpa [styled] using hne
    have hhead := congrArg List.head? hlist
    rw [String.toList_append, List.head?_append_of_ne_nil _ htext] at hhead
    exact h (by simpa [styled] using hhead)

/-- **A report on a scan that has not passed is none on a scan that has**, whatever follows. -/
theorem append_failedText_ne (colour : Bool) (sections : List ReportSection) (log : ViolationLog)
    (milliseconds : Nat) (rest rest' : String) :
    String.join (sections.map (sectionText colour)) ++ "\n" ++ failedText colour log milliseconds ++
        rest ≠ "\n" ++ passedText colour milliseconds ++ rest' := by
  cases sections with
  | nil =>
    rw [List.map_nil, String.join_nil, String.empty_append, failedText, passedText]
    simp only [String.append_assoc, ne_eq, String.append_right_inj]
    exact styled_failure_ne (by decide) (by decide) _ _
  | cons s sections =>
    have hlabel : (s.group.label ++ " (" ++ toString s.count ++ ")").toList.head? ≠ some 'P' := by
      cases s.group <;> simp [ViolationGroup.label]
    have hne : s.group.label ++ " (" ++ toString s.count ++ ")" ≠ "" := by
      intro hempty
      have hlist := congrArg String.toList hempty
      simp at hlist
    rw [List.map_cons, String.join_cons, sectionText, passedText]
    simp only [String.append_assoc, ne_eq, String.append_right_inj]
    simp only [String.append_assoc] at hlabel hne
    exact styled_failure_ne hlabel hne _ _

end TextReport
end AssetAudit
