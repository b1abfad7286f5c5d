import LintMend.Defect.Patching
import LintMend.Disk.Tree
import LintMend.Program.Printer
import LintMend.Repair.Suggestion

/-!
# Attempts to fix an issue

An attempt gives the corrected text of a unit. It never changes the unit itself; where a fix works
on the unit, the changed copy comes with the text.
-/

namespace LintMend

/-- Why an issue could not be fixed. -/
inductive FixError where
  | patch (e : PatchError)
  | notApplicable (key : String)
  | print (e : PrintError)
  | suggestion (e : SuggestionError)
  | write (path : String) (e : FileError)
deriving DecidableEq, Repr

def FixError.message : FixError → String
  | .patch e => e.message
  | .notApplicable key => s!"fix key '{key}' did not apply to this unit"
  | .print e => s!"failed to print unit: {e.message}"
  | .suggestion e => s!"external suggestion failed: {e.message}"
  | .write path e => s!"failed to write {path}: {e.message}"

/-- The corrected text of a unit, and the changed copy of the unit if the fix worked on it. -/
structure Attempt where
  text : String
  unit : Option ProgramUnit := none

/-- A way to fix issues. Backend and limit matter for suggestions only. -/
structure Strategy where
  mode : FixMode
  backend : Backend := .missing
  limit : Nat := 5000
  apart : Bool := false

namespace Strategy

/-- Applies the patch of an issue. -/
def attemptPatch (u : ProgramUnit) (p : Patch) : Outcome (Except FixError Attempt) := do
  match ← p.apply u.source with
  | .ok text => return .ok ⟨text, none⟩
  | .error e => return .error (.patch e)

/-- Changes a copy of the unit and prints it. -/
def attemptUnitFix (u : ProgramUnit) (fix : UnitFix) (key : String) :
    Outcome (Except FixError Attempt) := do
  match ← fix.change u key with
  | none => return .error (.notApplicable key)
  | some changed =>
    match ← Printer.print changed with
    | .ok text => return .ok ⟨text, some changed⟩
    | .error e => return .error (.print e)

/-- Asks for a suggestion. -/
def attemptSuggestion (s : Strategy) (u : ProgramUnit) (defect : Defect) (hint : String) :
    Outcome (Except FixError Attempt) := do
  match ← s.backend.ask s.apart s.limit ⟨u.name, u.source, defect, hint⟩ with
  | .ok text => return .ok ⟨text, none⟩
  | .error e => return .error (.suggestion e)

/-- Tries to fix an issue. A fix of another mode does not apply. -/
def attempt (s : Strategy) (u : ProgramUnit) (issue : Issue) : Outcome (Except FixError Attempt) :=
  match s.mode, issue.fix with
  | .textPatch, some (.patch p) => attemptPatch u p
  | .unitFix, some (.unit fix) => attemptUnitFix u fix (issue.defect.fixKey.getD "")
  | .externalSuggestion, some (.suggestion hint) => s.attemptSuggestion u issue.defect hint
  | _, _ => .ok (.error (.notApplicable issue.ruleId))

/-- Tries to fix an issue while notes are taken of what is done, or not. The note on a suggestion
names the backend, and it is the caller who asks for that name. -/
def attemptNoting (s : Strategy) (notes : Bool) (u : ProgramUnit) (issue : Issue) :
    Outcome (Except FixError Attempt) := do
  match s.mode, issue.fix with
  | .externalSuggestion, some (.suggestion _) => if notes then let _ ← s.backend.name
  | _, _ => pure ()
  s.attempt u issue

end Strategy

end LintMend
