import LintMend.Analysis.Run
import LintMend.Repair.Turns

/-!
# Runs with several workers

The files of a run are worked on at the same time. Each of them is a task, and the tasks go on in
turns, in whatever order the machine gives them. However many workers there are, what they do is some
list of turns; a list need not be fair, and there is a report only if it brings all tasks to an end.
A task that is given up gives up the run.
-/

namespace LintMend

/-- How far the work on a file has come. -/
inductive Task where
  | waiting
  | failed (e : LoadError)
  | loaded (u : ProgramUnit) (stage : RepairStage)

/-- The unit of a task, once it is loaded. -/
def Task.unit? : Task → Option ProgramUnit
  | .loaded u _ => some u
  | _ => none

/-- The shared disk and the tasks of a run, with their files. -/
structure Pool where
  shared : SharedDisk
  tasks : List (String × Task)

namespace Pool

/-- The files before any work on them. -/
def ofFiles (disk : Disk) (files : List String) : Pool where
  shared := { disk }
  tasks := files.map fun file => (file, .waiting)

/-- The units that are loaded, in the order of the files. -/
def units (p : Pool) : List ProgramUnit := p.tasks.filterMap (·.2.unit?)

end Pool

/-- A turn: the task that goes on, and how many bytes it takes if it writes. -/
structure Turn where
  task : Nat
  amount : Nat := 0

namespace Run

/-- Goes on with the work on a file. Without an engine it is over once the unit is loaded. -/
def resume (r : Run) (start : String) (s : SharedDisk) (t : Turn) (file : String) :
    Task → Outcome (SharedDisk × Task)
  | .waiting =>
    match Frontend.load s.disk (Walk.unitName s.disk start file) file with
    | .error err => return (s, .failed err)
    | .ok u =>
      let issues := (r.check u).issues
      return (s, .loaded u
        (if r.engine.isSome then .trying [] issues else .ended u ⟨issues, none, none⟩))
  | .failed err => return (s, .failed err)
  | .loaded u stage =>
    match r.engine with
    | none => return (s, .loaded u stage)
    | some e => do
      let (s, stage) ← e.turn s t.task t.amount u stage
      return (s, .loaded u stage)

/-- One turn. Without the task nothing happens. -/
def turn (r : Run) (start : String) (p : Pool) (t : Turn) : Outcome Pool :=
  match p.tasks[t.task]? with
  | none => return p
  | some (file, task) => do
    let (s, task) ← r.resume start p.shared t file task
    return ⟨s, p.tasks.set t.task (file, task)⟩

/-- Turns one after the other. -/
def turns (r : Run) (start : String) (p : Pool) (ts : List Turn) : Outcome Pool :=
  ts.foldlM (r.turn start) p

/-- What came of a task, if it has come to an end. -/
def result? (r : Run) : Task → Option (Except LoadError UnitReport)
  | .failed err => some (.error err)
  | .loaded u (.ended changed repair) => some (.ok (reportAfter (r.check u) changed repair))
  | _ => none

/-- What came of all tasks, if all have come to an end. They are reported in any order. -/
def results? (r : Run) (p : Pool) : Option (List (String × Except LoadError UnitReport)) :=
  p.tasks.mapM fun (file, task) => (r.result? task).map fun result => (file, result)

/-- Analyses all files at or below a path in turns. -/
def analyseInTurns (r : Run) (ts : List Turn) (disk : Disk) (path : String) :
    Outcome (Disk × Except RunError Pool) :=
  r.onFiles disk path fun disk files => do
    let pool ← r.turns path (.ofFiles disk files) ts
    return (pool.shared.disk, pool)

end Run

end LintMend
