import LintMend.Check.Dispatch
import LintMend.Frontend

/-!
# Reports

What a run found, file by file in the order of paths. The files come in any order. What came of
them is added one by one, and the issues are counted on the way.
-/

namespace LintMend

/-- A fix that was written. -/
structure AppliedFix where
  file : String
  ruleId : String
  line : Int
  outputPath : String
deriving DecidableEq, Repr

/-- A file that could not be analysed. -/
structure FileFailure where
  file : String
  message : String
deriving DecidableEq, Repr

/-- What was found in a unit. -/
structure UnitReport where
  path : String
  issues : List Issue
  faults : List Fault
  fixed : Option AppliedFix := none

/-- The figures of a run. -/
structure Figures where
  files : Nat := 0
  filesWithIssues : Nat := 0
  filesFailed : Nat := 0
  issues : Nat := 0
  bySeverity : Severity.Tally := {}
  fixes : Nat := 0
  faults : Nat := 0
deriving DecidableEq, Repr

/-- What a run found. Only files with issues are listed. -/
structure Report where
  files : List (String × List Issue) := []
  faults : List Fault := []
  fixes : List AppliedFix := []
  failures : List FileFailure := []
  figures : Figures := {}

namespace Report

/-- Lists the issues of a file. A path stands in the list only once. -/
def listFile (files : List (String × List Issue)) (file : String) (issues : List Issue) :
    List (String × List Issue) :=
  files.filter (fun listed => Path.parts listed.1 != Path.parts file) ++ [(file, issues)]

/-- Adds what came of a file. -/
def add (r : Report) : String × Except LoadError UnitReport → Report
  | (file, .error e) => { r with failures := r.failures ++ [⟨file, e.message⟩] }
  | (file, .ok unit) =>
    let r := { r with faults := r.faults ++ unit.faults, fixes := r.fixes ++ unit.fixed.toList }
    if unit.issues.isEmpty then r
    else
      { r with
        files := listFile r.files file unit.issues
        figures := { r.figures with
          issues := r.figures.issues + unit.issues.length
          bySeverity := r.figures.bySeverity.bumpAll (unit.issues.map (·.defect.severity)) } }

/-- Puts everything in the order of paths, except for the faults, and counts the entries. -/
def finish (r : Report) : Report :=
  { r with
    files := r.files.mergeSort fun a b => Path.le a.1 b.1
    fixes := r.fixes.mergeSort fun a b => Path.le a.file b.file
    failures := r.failures.mergeSort fun a b => Path.le a.file b.file
    figures := { r.figures with
      filesWithIssues := r.files.length
      filesFailed := r.failures.length
      fixes := r.fixes.length
      faults := r.faults.length } }

/-- Collects what came of the files of a run, in any order. -/
def ofResults (results : List (String × Except LoadError UnitReport)) : Report :=
  (results.foldl add { figures := { files := results.length } }).finish

/-- The number of files that were analysed. -/
def total (r : Report) : Nat := r.figures.files

def issueCount (r : Report) : Nat := r.figures.issues

/-- The number of issues of a severity. -/
def countOf (r : Report) (s : Severity) : Nat := r.figures.bySeverity.get s

/-- All issues, in the order of their files. -/
def issues (r : Report) : List Issue := r.files.flatMap (·.2)

/-- The number of issues that are left and can be fixed. -/
def fixableCount (r : Report) : Nat := (r.issues.filter (·.defect.fixable)).length

end Report

end LintMend
