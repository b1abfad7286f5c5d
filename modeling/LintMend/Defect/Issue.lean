import LintMend.Defect.Severity
import LintMend.Outcome
import LintMend.Program.Unit

/-!
# Findings and their fixes

A defect is one finding of a rule. An issue is a defect with the fix that its rule proposes, if any.
-/

namespace LintMend

/-- One finding. The line counts from one; other lines mean that there is no place in the source. -/
structure Defect where
  ruleId : String
  filePath : String
  severity : Severity
  startLine : Int
  startColumn : Nat
  endColumn : Nat
  description : String
  fixable : Bool
  fixKey : Option String
  docPath : String
deriving DecidableEq, Repr

namespace Defect

/-- The line of findings that have no place in the source. -/
def noLine : Int := -1

def hasPosition (d : Defect) : Bool := 1 ≤ d.startLine

end Defect

/-- A replacement in the source. The anchor is the text that the span held when the edit was
proposed. -/
structure PatchEdit where
  span : Span
  anchor : String
  replacement : String
deriving DecidableEq, Repr

/-- Replacements in the source that belong together. -/
structure Patch where
  description : String
  edits : List PatchEdit := []
deriving DecidableEq, Repr

/-- The patch with one more replacement, anchored on the text that the span now holds. -/
def Patch.replace (p : Patch) (source : String) (span : Span) (replacement : String) : Patch :=
  { p with edits := p.edits ++ [⟨span, (span.text? source).getD "", replacement⟩] }

/-- A change of the unit itself. It is given the key of the issue; it fails if there is nothing to
change, and it can be given up. `fixed` is set once the fix has been applied. -/
structure UnitFix where
  description : String
  change : ProgramUnit → String → Outcome (Option ProgramUnit)
  fixed : Bool := false

/-- The three ways to repair an issue. -/
inductive FixMode where
  | textPatch
  | unitFix
  | externalSuggestion
deriving DecidableEq, Repr

namespace FixMode

def all : List FixMode := [textPatch, unitFix, externalSuggestion]

def name : FixMode → String
  | .textPatch => "text-patch"
  | .unitFix => "unit-fix"
  | .externalSuggestion => "external-suggestion"

/-- The mode with the name. -/
def ofName? (name : String) : Option FixMode := all.find? (·.name == name)

theorem ofName?_name (m : FixMode) : ofName? m.name = some m := by cases m <;> decide

end FixMode

/-- A proposed fix. An external suggestion carries a hint for whoever is asked. -/
inductive Fix where
  | patch (patch : Patch)
  | unit (fix : UnitFix)
  | suggestion (hint : String)

/-- The mode that applies the fix. -/
def Fix.mode : Fix → FixMode
  | .patch _ => .textPatch
  | .unit _ => .unitFix
  | .suggestion _ => .externalSuggestion

/-- A finding and the fix proposed for it. -/
structure Issue where
  defect : Defect
  fix : Option Fix := none

namespace Issue

def ruleId (i : Issue) : String := i.defect.ruleId

def line (i : Issue) : Int := i.defect.startLine

/-- The issue of a defect that can be fixed. The key is handed back to the fix later. -/
def withFix (d : Defect) (key : Option String) (fix : Fix) : Issue :=
  ⟨{ d with fixable := true, fixKey := key }, some fix⟩

end Issue

end LintMend
