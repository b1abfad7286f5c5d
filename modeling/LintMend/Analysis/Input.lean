import LintMend.Disk.Tree
import LintMend.Frontend

/-!
# Units on disk
-/

namespace LintMend.Frontend

/-- Loads the unit of a file. -/
def load (disk : Disk) (name path : String) : Except LoadError ProgramUnit :=
  match Format.ofPath? path with
  | none => .error (.unsupported path)
  | some _ =>
    match disk.readSource path with
    | .error e => .error (.read path e.message)
    | .ok source => parse name path source

end LintMend.Frontend
