import LintMend.Analysis.Report
import LintMend.Report.Style
import LintMend.Rules.Registry

/-!
# Output for a terminal
-/

namespace LintMend

/-- The text with blanks after it up to a width. -/
def padRight (width : Nat) (s : String) : String :=
  s ++ String.ofList (List.replicate (width - s.length) ' ')

namespace Report

/-- What stands before the issues: files that were passed over, faults, and fixes. -/
def noteLines (colour : Bool) (r : Report) : List String :=
  let skipped := paint colour .boldYellow "skipped"
  let fault := paint colour .boldMagenta "fault"
  let fixed := paint colour .boldGreen "fixed"
  (r.failures.map fun f => s!"{skipped} {f.file}: {f.message}") ++
  (r.faults.map fun f => s!"{fault} rule {f.ruleId} failed on {f.entity}: {f.message}") ++
  (r.fixes.map fun f => s!"{fixed} {f.file} ({f.ruleId} at line {f.line}) -> {f.outputPath}")

/-- The issues, under the names of their files. -/
def issueLines (colour : Bool) (r : Report) : List String :=
  r.files.flatMap fun (file, issues) =>
    "" :: paint colour .bold file :: issues.map (·.defect.display colour)

/-- What stands after the issues. -/
def summaryLines (colour fixing : Bool) (seconds : String) (r : Report) : List String :=
  let found := paint colour .boldRed "Found"
  let arrow := paint colour .yellow "→"
  let hint :=
    if !fixing && 0 < r.fixableCount then
      [s!"{arrow} {r.fixableCount} issues can be fixed with --fix"]
    else []
  "" :: s!"{found} {r.issueCount} issues in {r.figures.filesWithIssues} files ({seconds}s)" :: hint

/-- The lines of a report for a reader. -/
def terminalLines (colour fixing : Bool) (seconds : String) (r : Report) : List String :=
  let checked := paint colour .boldGreen "✓ Checked"
  r.noteLines colour ++
    if r.issueCount == 0 then [s!"{checked} {r.total} files in {seconds}s"]
    else r.issueLines colour ++ r.summaryLines colour fixing seconds

end Report

/-- A line for each built-in rule: its id, its severity, whether it is on, and what it is about. -/
def ruleLines (colour : Bool) (config : Config) : List String :=
  (builtinRules config).map fun rule =>
    let id := paint colour .bold (padRight 24 rule.id)
    let severity := padRight 8 ((config.rule rule.id).severityOr rule.severity).name
    let state :=
      if config.isEnabled rule.id then paint colour .green (padRight 4 "on")
      else paint colour .dimmed (padRight 4 "off")
    s!"{id} {severity} {state} {rule.description}"

end LintMend
