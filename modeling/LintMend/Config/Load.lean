import LintMend.Config.Text
import LintMend.Disk.Tree

/-!
# Settings on disk
-/

namespace LintMend.Config

/-- The settings of a directory. Without a file of settings they are the usual ones. -/
def load (disk : Disk) (root : String) : Except ConfigError Config :=
  let path := Path.join root fileName
  if disk.exists? path then
    match disk.readText path with
    | .ok content => ofText path content
    | .error e => .error (.read path e.message)
  else .ok {}

/-- The settings of a directory, or the usual ones if they cannot be used. -/
def loadOrDefault (disk : Disk) (root : String) : Config :=
  (((load disk root).toOption).getD {}).anchorTo root

/-- Writes the usual settings to a directory, and gives the path of the file. -/
def create (disk : Disk) (root : String) : Except FileError (Disk × String) := do
  let path := Path.join root fileName
  let disk ← disk.write path ({} : Config).toText.toUTF8
  return (disk, path)

end LintMend.Config
