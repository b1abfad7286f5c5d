import LintMend.Repair.Output

/-!
# The fix engine

Issues are tried in order. The first fix that succeeds writes the corrected unit, and all issues
after it are left for a later run. Issues that cannot be fixed in the mode of the run pass through.
-/

namespace LintMend

/-- A strategy and where its results go. -/
structure Engine where
  strategy : Strategy
  output : OutputDir

/-- What came of the issues of a unit. -/
structure Repair where
  remaining : List Issue
  applied : Option Issue := none
  outputPath : Option String := none

/-- The issue after its fix was applied. -/
def Issue.markFixed (i : Issue) : Issue :=
  match i.fix with
  | some (.unit fix) => { i with fix := some (.unit { fix with fixed := true }) }
  | _ => i

namespace Engine

/-- The engine of a mode given by name. -/
def ofMode (mode : String) (settings : FixSettings) (backend : Backend := .missing) :
    Except ConfigError Engine :=
  match FixMode.ofName? mode with
  | some mode => .ok ⟨⟨mode, backend, settings.suggestionTimeout, false⟩, ⟨settings.outputDir⟩⟩
  | none => .error (.unsupportedMode mode)

/-- The issue can be fixed in the mode of the engine. -/
def isCandidate (e : Engine) (i : Issue) : Bool :=
  i.defect.fixable && i.fix.any (·.mode == e.strategy.mode)

/-- Tries to fix an issue and to write the result. -/
def tryIssue (e : Engine) (disk : Disk) (u : ProgramUnit) (i : Issue) :
    Outcome (Disk × Except FixError (String × ProgramUnit)) := do
  match ← e.strategy.attempt u i with
  | .error err => return (disk, .error err)
  | .ok attempt =>
    let (disk, written) := e.output.write disk u attempt.text
    return (disk, written.map fun path => (path, attempt.unit.getD u))

/-- Tries the issues in order up to the first success; `passed` are those before them, last
first. -/
def repairFrom (e : Engine) (u : ProgramUnit) (passed : List Issue) (disk : Disk) :
    List Issue → Outcome (Disk × ProgramUnit × Repair)
  | [] => return (disk, u, { remaining := passed.reverse })
  | i :: rest =>
    if e.isCandidate i then do
      match ← e.tryIssue disk u i with
      | (disk, .ok (path, changed)) =>
        return (disk, changed,
          { remaining := passed.reverse ++ rest, applied := some i.markFixed,
            outputPath := some path })
      | (disk, .error _) => e.repairFrom u (i :: passed) disk rest
    else e.repairFrom u (i :: passed) disk rest

/-- Fixes at most one issue of a unit. The unit changes only if the corrected text is written. -/
def repair (e : Engine) (disk : Disk) (u : ProgramUnit) (issues : List Issue) :
    Outcome (Disk × ProgramUnit × Repair) :=
  e.repairFrom u [] disk issues

end Engine

end LintMend
