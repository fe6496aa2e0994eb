/-!
# Text for terminals

A line of text whose parts may stand out.  A part is emphasised by an escape sequence in front of it
and a reset behind it; where colours are not wanted, only the text remains.
-/

namespace AssetAudit

/-- How a part of a line stands out. -/
inductive Emphasis where
  | plain
  /-- The heading of a report. -/
  | heading
  /-- Something has been achieved. -/
  | success
  /-- Something has gone wrong, as a heading. -/
  | failure
  /-- Something has gone wrong. -/
  | error
  /-- Something deserves attention. -/
  | warning
  /-- Something to refer to. -/
  | strong
  /-- Something of less interest. -/
  | faint
  deriving DecidableEq, Repr

namespace Emphasis

/-- The parameters of the escape sequence. -/
def code? : Emphasis → Option String
  | .plain => none
  | .heading => some "1;36"
  | .success => some "1;32"
  | .failure => some "1;31"
  | .error => some "31"
  | .warning => some "33"
  | .strong => some "1"
  | .faint => some "2"

/-- A text with the emphasis. -/
def apply (colour : Bool) (e : Emphasis) (text : String) : String :=
  match e.code? with
  | some code => if colour then "\x1b[" ++ code ++ "m" ++ text ++ "\x1b[0m" else text
  | none => text

end Emphasis

/-- The parts of a line. -/
abbrev Line := List (Emphasis × String)

namespace Line

/-- A line that does not stand out. -/
def plain (text : String) : Line := [(.plain, text)]

/-- A line without anything on it. -/
def blank : Line := []

/-- The text of a line, without its end. -/
def render (colour : Bool) (line : Line) : String :=
  String.join (line.map fun (e, text) => e.apply colour text)

@[simp] theorem render_nil (colour : Bool) : render colour [] = "" := rfl

@[simp] theorem render_cons (colour : Bool) (part : Emphasis × String) (line : Line) :
    render colour (part :: line) = part.1.apply colour part.2 ++ render colour line :=
  String.join_cons

/-- The text of lines; each of them ends with a line break. -/
def renderAll (colour : Bool) (lines : List Line) : String :=
  String.join (lines.map fun line => line.render colour ++ "\n")

@[simp] theorem renderAll_nil (colour : Bool) : renderAll colour [] = "" := rfl

@[simp] theorem renderAll_cons (colour : Bool) (line : Line) (lines : List Line) :
    renderAll colour (line :: lines) = line.render colour ++ "\n" ++ renderAll colour lines :=
  String.join_cons

@[simp] theorem renderAll_append (colour : Bool) (lines lines' : List Line) :
    renderAll colour (lines ++ lines') = renderAll colour lines ++ renderAll colour lines' := by
  rw [renderAll, List.map_append, String.join_append]
  rfl

/-- Groups of lines are printed one after the other. -/
theorem renderAll_flatMap {α : Type} (colour : Bool) (f : α → List Line) (l : List α) :
    renderAll colour (l.flatMap f) = String.join (l.map fun a => renderAll colour (f a)) := by
  induction l with
  | nil => rfl
  | cons a l ih => rw [List.flatMap_cons, renderAll_append, ih, List.map_cons, String.join_cons]

end Line

end AssetAudit
