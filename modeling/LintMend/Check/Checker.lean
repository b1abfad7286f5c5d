import LintMend.Check.Entity
import LintMend.Config.Basic
import LintMend.Outcome

/-!
# Checkers

A checker says through matchers which entities it wants to see, and reports issues of an entity to a
sink. The context tells it about the unit and builds defects.
-/

namespace LintMend

/-- Which entities of one kind a checker wants to see: all, or those that a test selects. -/
structure Matcher where
  granularity : Granularity
  select : Option (Entity → Bool) := none

namespace Matcher

def accepts (m : Matcher) (e : Entity) : Bool :=
  e.granularity == m.granularity && m.select.all (· e)

/-- The part of a path name after its last double colon. -/
def lastSegment (name : String) : String :=
  match Text.rfind? "::".toList name.toList with
  | some offset => ((Text.dropBytes? name.toList (offset + 2)).map String.ofList).getD name
  | none => name

/-- Expressions of some kinds whose name, or its last segment, is among the names. -/
def named (kinds : List ExpressionKind) (names : List String) : Matcher where
  granularity := .expression
  select := some fun
    | .expression _ e =>
      kinds.contains e.kind && e.name.any fun name =>
        names.contains name || names.contains (lastSegment name)
    | _ => false

/-- The words for a matcher in a list of rules. -/
def describe (m : Matcher) : String :=
  s!"Matcher \x7b granularity: {m.granularity.title}, selective: {m.select.isSome} \x7d"

end Matcher

/-- What a checker knows while it looks at a unit. -/
structure Context where
  unit : ProgramUnit
  ruleId : String
  severity : Severity
  docPath : String

namespace Context

/-- The first line of the unit, for findings about the file. -/
def unitOrigin (c : Context) : Origin :=
  ⟨1, 1, ⟨0, Text.bytes (c.unit.source.toList.takeWhile (· != '\n'))⟩⟩

/-- Column of the last occurrence of a token on the first line of an origin, or the origin's own
column if the token is not there. -/
def columnOf (c : Context) (o : Origin) (token : String) : Outcome Nat :=
  match Text.rfind? token.toList (c.unit.originLine o).toList with
  | some offset => addWord o.column offset
  | none => .ok o.column

/-- The line of a defect. Lines that do not fit a signed word are no lines. -/
def lineOf (line : Nat) : Int := if line < signedLimit then line else Defect.noLine

def build (c : Context) (line startColumn endColumn : Nat) (description : String) : Defect where
  ruleId := c.ruleId
  filePath := c.unit.path
  severity := c.severity
  startLine := lineOf line
  startColumn := startColumn
  endColumn := endColumn
  description := description
  fixable := false
  fixKey := none
  docPath := c.docPath

/-- A defect that spans the first line of an origin. -/
def defect (c : Context) (o : Origin) (description : String) : Outcome Defect := do
  let stop ← addWord o.column (byteLength (c.unit.originLine o))
  return c.build o.line o.column stop description

/-- A defect at the last occurrence of a token on the first line of an origin. -/
def defectAt (c : Context) (o : Origin) (token description : String) : Outcome Defect := do
  let column ← c.columnOf o token
  let stop ← addWord column (byteLength token)
  return c.build o.line column stop description

end Context

/-- The issues that a checker has reported in a unit, last first. -/
structure Sink where
  reversed : List Issue := []

namespace Sink

/-- The issues in the order in which they were reported. -/
def issues (s : Sink) : List Issue := s.reversed.reverse

def count (s : Sink) : Nat := s.reversed.length

def report (s : Sink) (i : Issue) : Sink := ⟨i :: s.reversed⟩

/-- Reports issues one after the other. -/
def reportAll (s : Sink) (issues : List Issue) : Sink := issues.foldl report s

/-- Takes back all issues but the first `n`. -/
def truncate (s : Sink) (n : Nat) : Sink := ⟨s.reversed.drop (s.count - n)⟩

@[simp] theorem issues_empty : issues {} = [] := rfl

@[simp] theorem issues_report (s : Sink) (i : Issue) : (s.report i).issues = s.issues ++ [i] := by
  simp [issues, report]

@[simp] theorem issues_reportAll (s : Sink) (issues : List Issue) :
    (s.reportAll issues).issues = s.issues ++ issues := by
  induction issues generalizing s with
  | nil => simp [reportAll]
  | cons i rest ih =>
    have h := ih (s.report i)
    rw [reportAll] at h
    simp [reportAll, h]

theorem count_eq_length (s : Sink) : s.count = s.issues.length := by simp [count, issues]

@[simp] theorem issues_truncate (s : Sink) (n : Nat) :
    (s.truncate n).issues = s.issues.take n := by
  simp [issues, truncate, count, List.take_reverse]

end Sink

/-- What a call of a checker does: it may report to the sink, and it may be given up after that. -/
abbrev Reporting := Sink → Sink × Option Abort

/-- The call that reports what was found, unless finding it was given up. -/
def Reporting.ofFound : Outcome (List Issue) → Reporting
  | .ok issues, sink => (sink.reportAll issues, none)
  | .error a, sink => (sink, some a)

/-- A rule that looks at entities. -/
structure Checker where
  id : String
  severity : Severity
  description : String
  matchers : List Matcher
  check : Context → Entity → Reporting

namespace Checker

/-- Where the rule is described. -/
def docPath (c : Checker) : String := s!"docs/rules/{c.id}.md"

/-- Some matcher of the checker accepts the entity. -/
def accepts (c : Checker) (e : Entity) : Bool := c.matchers.any (·.accepts e)

/-- The context of the checker in a unit. -/
def context (c : Checker) (u : ProgramUnit) (settings : RuleSettings) : Context :=
  ⟨u, c.id, settings.severityOr c.severity, c.docPath⟩

end Checker

end LintMend
