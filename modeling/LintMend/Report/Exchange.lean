import LintMend.Analysis.Report
import LintMend.Json.Writer

/-!
# Reports for other programs
-/

namespace LintMend

/-- An issue; of its fix only the mode is told. -/
def Issue.toJson (i : Issue) : Json :=
  let d := i.defect
  .object [("rule_id", d.ruleId), ("file_path", d.filePath), ("severity", d.severity.name),
    ("start_line", .integer d.startLine), ("start_column", d.startColumn),
    ("end_column", d.endColumn), ("description", d.description), ("fixable", d.fixable),
    ("fix_key", Json.ofOption .string d.fixKey), ("doc_path", d.docPath),
    ("fix", Json.ofOption (fun f => Json.string f.mode.name) i.fix)]

def Fault.toJson (f : Fault) : Json :=
  .object [("rule_id", f.ruleId), ("node", f.entity), ("message", f.message)]

def AppliedFix.toJson (f : AppliedFix) : Json :=
  .object [("file", f.file), ("rule_id", f.ruleId), ("line", .integer f.line),
    ("output_path", f.outputPath)]

def FileFailure.toJson (f : FileFailure) : Json :=
  .object [("file", f.file), ("message", f.message)]

/-- The severities that occur, with their numbers. -/
def Severity.Tally.toJson (t : Severity.Tally) : Json :=
  .object (Severity.all.filterMap fun s =>
    if t.get s == 0 then none else some (s.name, Json.ofNat (t.get s)))

/-- The figures, and how long the run took. -/
def Figures.toJson (milliseconds : Nat) (f : Figures) : Json :=
  .object [("total_files", f.files), ("files_with_issues", f.filesWithIssues),
    ("files_failed", f.filesFailed), ("total_issues", f.issues),
    ("issues_by_severity", f.bySeverity.toJson), ("fixes_applied", f.fixes),
    ("checker_faults", f.faults), ("analysis_time_ms", milliseconds)]

namespace Report

def toJson (milliseconds : Nat) (r : Report) : Json :=
  .object [
    ("file_issues", .object (r.files.map fun (file, issues) =>
      (file, Json.ofList Issue.toJson issues))),
    ("faults", Json.ofList Fault.toJson r.faults),
    ("fixes", Json.ofList AppliedFix.toJson r.fixes),
    ("failures", Json.ofList FileFailure.toJson r.failures),
    ("stats", r.figures.toJson milliseconds)]

end Report

end LintMend
