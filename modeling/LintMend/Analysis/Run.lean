import LintMend.Analysis.Error
import LintMend.Analysis.Input
import LintMend.Analysis.Report
import LintMend.Ignore.Walk
import LintMend.Repair.Engine
import LintMend.Rules.Registry

/-!
# Runs

A unit is checked, the markers in its text take issues away, and then at most one issue of it is
fixed. A run does this for all files at or below a path. Here the files are taken one after the
other; runs with several workers at a time are in `LintMend.Analysis.Workers`.
-/

namespace LintMend

/-- What a run works with. Without an engine nothing is fixed. -/
structure Run where
  config : Config
  dispatcher : Dispatcher
  engine : Option Engine := none

namespace Run

/-- A run with given checkers. -/
def ofCheckers (config : Config) (checkers : List Checker) : Run where
  config := config
  dispatcher := Dispatcher.ofCheckers checkers config

/-- A run with the built-in rules. -/
def ofConfig (config : Config) : Run := ofCheckers config (builtinRules config)

/-- The run with fixes in a mode. -/
def withFixes (r : Run) (mode : String) (backend : Backend := .missing) : Except ConfigError Run :=
  (Engine.ofMode mode r.config.autofix backend).map fun engine => { r with engine := some engine }

/-- Checks a unit. -/
def check (r : Run) (u : ProgramUnit) : UnitReport :=
  let found := r.dispatcher.dispatch u
  { path := u.path
    issues := r.config.directives.filter u.lines found.issues
    faults := found.faults }

/-- Checks a text that need not be on disk. Nothing is fixed. -/
def checkSource (r : Run) (name path source : String) : Except LoadError UnitReport :=
  (Frontend.parse name path source).map r.check

/-- The report on a unit after a repair. A fix is reported under the path that the unit has then. -/
def reportAfter (report : UnitReport) (u : ProgramUnit) (repair : Repair) : UnitReport :=
  { report with
    issues := repair.remaining
    fixed :=
      match repair.outputPath, repair.applied with
      | some outputPath, some issue => some ⟨u.path, issue.ruleId, issue.line, outputPath⟩
      | _, _ => none }

/-- Checks a unit and fixes what can be fixed. -/
def process (r : Run) (disk : Disk) (u : ProgramUnit) : Outcome (Disk × UnitReport) := do
  let report := r.check u
  match r.engine with
  | none => return (disk, report)
  | some engine =>
    let (disk, changed, repair) ← engine.repair disk u report.issues
    return (disk, reportAfter report changed repair)

/-- Loads and processes a file. -/
def processFile (r : Run) (disk : Disk) (name path : String) :
    Outcome (Disk × Except LoadError UnitReport) :=
  match Frontend.load disk name path with
  | .error e => return (disk, .error e)
  | .ok u => do
    let (disk, report) ← r.process disk u
    return (disk, .ok report)

/-- Processes files one after the other; `done` holds what came of the files before, last first. -/
def processFiles (r : Run) (start : String) (disk : Disk)
    (done : List (String × Except LoadError UnitReport)) :
    List String → Outcome (Disk × List (String × Except LoadError UnitReport))
  | [] => return (disk, done.reverse)
  | file :: files => do
    let (disk, result) ← r.processFile disk (Walk.unitName disk start file) file
    r.processFiles start disk ((file, result) :: done) files

/-- Clears the output directory of the run, if it has one. -/
def prepare (r : Run) (disk : Disk) (path : String) : Disk × Option RunError :=
  match r.engine with
  | none => (disk, none)
  | some engine =>
    let (disk, failed) := engine.output.prepare disk path
    (disk, failed.map OutputError.toRunError)

/-- Works on all files at or below a path. They are found before the output directory is cleared. -/
def onFiles {α : Type} (r : Run) (disk : Disk) (path : String)
    (work : Disk → List String → Outcome (Disk × α)) : Outcome (Disk × Except RunError α) :=
  match Walk.files disk r.config.ignore path with
  | .error e => return (disk, .error (.config e))
  | .ok files =>
    match r.prepare disk path with
    | (disk, some e) => return (disk, .error e)
    | (disk, none) => do
      let (disk, found) ← work disk files
      return (disk, .ok found)

/-- Analyses all files at or below a path, one after the other. -/
def analyse (r : Run) (disk : Disk) (path : String) : Outcome (Disk × Except RunError Report) :=
  r.onFiles disk path fun disk files => do
    let (disk, results) ← r.processFiles path disk [] files
    return (disk, Report.ofResults results)

end Run

end LintMend
