import LintMend.Proofs.ReportAccounts

/-!
# Reports and the order of results

Units are processed side by side, so their results come in any order. What is listed by file and what
is counted does not depend on it: sorting by path brings the entries of different files into one
order. Sorting keeps the order of entries about the same path, though, and faults are not sorted at
all. Fixes name the path that a unit gives itself, which two files may share.
-/

namespace LintMend

/-! ## Sorting by path -/

namespace Path

/-- The parts of a path as they are compared. -/
def key (p : String) : List (Nat ×ₗ String) := (parts p).map PathPart.key

variable {α : Type} (file : α → String)

end Path

/-! ## Results in another order -/

namespace Severity.Tally

end Severity.Tally

namespace Report

variable {results results' : List (String × Except LoadError UnitReport)}

end Report

/-! ## Two units with one path -/

namespace Run

end Run

namespace Report

end Report

end LintMend
