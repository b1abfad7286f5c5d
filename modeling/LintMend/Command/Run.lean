import LintMend.Analysis.Run
import LintMend.Command.Arguments
import LintMend.Config.Load
import LintMend.Report.Annotation
import LintMend.Report.Exchange
import LintMend.Report.Terminal

/-!
# Running commands
-/

namespace LintMend

/-- What a command leaves behind: lines for the two outputs and an exit code. -/
structure Printed where
  exitCode : Nat := 0
  out : List String := []
  err : List String := []
deriving DecidableEq, Repr

/-- How long a run took: seconds as they are printed, and milliseconds. -/
structure Elapsed where
  seconds : String
  milliseconds : Nat
deriving DecidableEq, Repr

namespace Printed

/-- The lines as text. -/
def text (lines : List String) : String := String.join (lines.map (· ++ "\n"))

/-- The command failed. -/
def failed (colour : Bool) (message : String) : Printed where
  exitCode := 2
  err := [paint colour .boldRed "error:" ++ " " ++ message]

end Printed

namespace Command

/-- The directory whose settings are for a path. -/
def configRoot (disk : Disk) (path : String) : String :=
  if disk.isFile path then (Path.parent? path).getD "." else path

/-- The lines of a report in a format. A format that is not known is the usual one. -/
def reportLines (colour fixing : Bool) (elapsed : Elapsed) (format : String) (r : Report) :
    List String :=
  match format with
  | "json" => [(r.toJson elapsed.milliseconds).pretty]
  | "github" => r.annotations
  | _ => r.terminalLines colour fixing elapsed.seconds

/-- Checks files. -/
def runCheck (disk : Disk) (colour : Bool) (o : CheckOptions) :
    Outcome (Disk × (Elapsed → Printed)) :=
  let config := Config.loadOrDefault disk (configRoot disk o.path)
  let fixing := o.fix || config.autofix.enabled
  let run := Run.ofConfig config
  let prepared :=
    if fixing then run.withFixes (o.mode.getD config.autofix.mode) else .ok run
  match prepared with
  | .error e => return (disk, fun _ => .failed colour e.message)
  | .ok run => do
    match ← run.analyse disk o.path with
    | (disk, .error e) => return (disk, fun _ => .failed colour e.message)
    | (disk, .ok r) =>
      return (disk, fun elapsed => {
        exitCode := if o.strict && 0 < r.issueCount then 1 else 0
        out := reportLines colour fixing elapsed o.format r })

/-- Shows settings or writes the usual ones. -/
def runConfig (disk : Disk) (colour : Bool) (display create : Bool) : Disk × Printed :=
  if create then
    match Config.create disk "." with
    | .ok (disk, path) => (disk, { out := [paint colour .boldGreen "✓" ++ " Created " ++ path] })
    | .error e => (disk, .failed colour e.message)
  else if display then
    match Config.load disk "." with
    | .ok settings =>
      match settings.write with
      | .ok text => (disk, { out := [text] })
      | .error e => (disk, .failed colour e.message)
    | .error e => (disk, .failed colour e.message)
  else (disk, {})

/-- Runs a command. What it prints may tell how long it took, which is known only afterwards. -/
def run (disk : Disk) (colour : Bool) : Command → Outcome (Disk × (Elapsed → Printed))
  | .check options => runCheck disk colour options
  | .rules => return (disk, fun _ => { out := ruleLines colour (Config.loadOrDefault disk ".") })
  | .config display create =>
    let (disk, printed) := runConfig disk colour display create
    return (disk, fun _ => printed)

end Command

end LintMend
