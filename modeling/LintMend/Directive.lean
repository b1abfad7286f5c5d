import LintMend.Defect.Issue

/-!
# Directives in the source

A line with the file marker silences all issues of the unit. A line with the next-line marker and
the id of a rule silences that rule on the line after it. Issues without a line in the source are
dropped as well.
-/

namespace LintMend

/-- The markers of directives. An empty marker marks nothing. -/
structure Markers where
  file : String := "checkfix-disable-file"
  nextLine : String := "checkfix-disable-next-line"
deriving DecidableEq, Repr

namespace Markers

/-- A line holds a marker. -/
def marks (marker line : String) : Bool := marker != "" && hasText line marker

/-- The markers silence all issues of a unit with these lines. -/
def silencesFile (m : Markers) (lines : List String) : Bool := lines.any (marks m.file)

/-- The line before the given one silences the rule. -/
def silencesLine (m : Markers) (lines : List String) (ruleId : String) (line : Nat) : Bool :=
  match line with
  | n + 2 =>
    match lines[n]? with
    | some previous => marks m.nextLine previous && hasText previous ruleId
    | none => false
  | _ => false

/-- An issue stays: its line is in the source and its rule is not silenced there. -/
def keeps (m : Markers) (lines : List String) (issue : Issue) : Bool :=
  match issue.line with
  | .ofNat line =>
    0 < line && line ≤ lines.length && !m.silencesLine lines issue.ruleId line
  | .negSucc _ => false

/-- The issues that are not silenced. -/
def filter (m : Markers) (lines : List String) (issues : List Issue) : List Issue :=
  if m.silencesFile lines then [] else issues.filter (m.keeps lines)

end Markers

end LintMend
