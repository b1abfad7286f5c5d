import LintMend.Config.Basic
import LintMend.Frontend
import LintMend.Repair.Engine

/-!
# Errors of a run
-/

namespace LintMend

/-- Why a run cannot go on. -/
inductive RunError where
  | config (e : ConfigError)
  | load (e : LoadError)
  | fix (e : FixError)
  | file (e : FileError)
deriving DecidableEq, Repr

def RunError.message : RunError → String
  | .config e => s!"configuration error: {e.message}"
  | .load e => s!"front-end error: {e.message}"
  | .fix e => s!"fix error: {e.message}"
  | .file e => e.message

/-- The error of a run whose output directory cannot be prepared. -/
def OutputError.toRunError : OutputError → RunError
  | .refused e => .config e
  | .file e => .file e

end LintMend
