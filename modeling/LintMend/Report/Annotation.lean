import LintMend.Analysis.Report

/-!
# Annotations

One line for each issue, in the form in which a build service takes notes on the lines of files.
-/

namespace LintMend

/-- The annotation of an issue in a file. -/
def Issue.annotation (file : String) (i : Issue) : String :=
  let d := i.defect
  s!"::{d.severity.annotationLevel}::file={file},line={d.startLine},col={d.startColumn}" ++
    s!"::{d.description}"

/-- The annotations of all issues, in the order of their files. -/
def Report.annotations (r : Report) : List String :=
  r.files.flatMap fun (file, issues) => issues.map (Issue.annotation file)

theorem Report.length_annotations (r : Report) : r.annotations.length = r.issues.length := by
  simp [annotations, issues, List.length_flatMap]

end LintMend
