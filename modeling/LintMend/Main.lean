import LintMend.Command.Run

/-!
# The command-line program

The part of the disk that a command can look at is read, the command is run on it, and what the
command changed is written back.
-/

namespace LintMend.Program

/-! ## Reading the disk -/

/-- The location of an absolute path. -/
def locationOf (path : String) : Location := (splitAtChar path '/').filter (· != "")

/-- The absolute path of something that a command is given, if it is there. -/
def absolute? (path : String) : IO (Option String) :=
  (do return some (toString (← IO.FS.realPath path))) <|> pure none

/-- Files whose content a command can look at. -/
def isRead (name : String) : Bool :=
  (Format.ofPath? name).isSome ||
    [Config.fileName, Walk.ignoreFile, ".ignore", ".gitignore", "exclude"].contains name

/-- Enters a directory and all that is in it. Links are passed over. Without `whole`, files that no
command looks at are entered as empty ones. -/
partial def enterTree (whole : Bool) (disk : Disk) (path : String) : IO Disk := do
  let disk := disk.put (locationOf path) .directory
  let entries ← (do (← IO.FS.realPath path).readDir) <|> pure #[]
  entries.foldlM (fun disk entry => do
    let inner := Path.join path entry.fileName
    match (← (some <$> entry.path.symlinkMetadata) <|> pure none).map (·.type) with
    | some .dir => enterTree whole disk inner
    | some .file =>
      let content ← if whole || isRead entry.fileName then IO.FS.readBinFile inner <|> pure .empty
        else pure .empty
      return disk.put (locationOf inner) (.file content)
    | _ => return disk) disk

/-- Enters a file that may be missing. -/
def enterFile (disk : Disk) (path : String) : IO Disk := do
  match ← (some <$> IO.FS.readBinFile path) <|> pure none with
  | some content => return disk.put (locationOf path) (.file content)
  | none => return disk

/-- Enters a directory with the files in it that say what to ignore and what to check. -/
def enterRules (disk : Disk) (path : String) : IO Disk := do
  let disk := if path == "/" then disk else disk.put (locationOf path) .directory
  let names := [Config.fileName, Walk.ignoreFile, ".ignore", ".gitignore"]
  let disk ← names.foldlM (fun disk name => enterFile disk (Path.join path name)) disk
  [".git", ".jj"].foldlM (fun disk name => do
    let inner := Path.join path name
    if (← absolute? inner).isSome then
      let info := Path.join inner "info"
      let disk := (disk.put (locationOf inner) .directory).put (locationOf info) .directory
      enterFile disk (Path.join info "exclude")
    else return disk) disk

/-- The directories above an absolute path, the root first. -/
def above (path : String) : List String :=
  let l := locationOf path
  (List.range l.length).map fun n => Location.path (l.take n)

/-- The part of the disk that a command can look at. -/
def readDisk (path : String) : IO Disk := do
  let here := toString (← IO.currentDir)
  let start := (← absolute? path).getD here
  let disk : Disk := { here := locationOf here }
  let disk ← (above here ++ [here] ++ above start).foldlM enterRules disk
  let isDirectory ← (do (← IO.FS.realPath start).isDir)
  let disk ← if isDirectory then enterTree false disk start
    else do enterFile disk start
  let root := Command.configRoot disk path
  let output := (Config.loadOrDefault disk root).autofix.outputDir
  match ← absolute? output with
  | some output =>
    let disk ← (above output).foldlM enterRules disk
    enterTree true disk output
  | none => return disk

/-! ## Writing changes -/

/-- Brings the disk from one state to another. -/
def writeDisk (old new : Disk) : IO Unit := do
  let gone := old.nodes.filter fun (l, _) => (new.node? l).isNone
  for (l, node) in gone.mergeSort fun a b => b.1.length ≤ a.1.length do
    match node with
    | .file _ => IO.FS.removeFile l.path
    | .directory => IO.FS.removeDir l.path
  for (l, node) in new.nodes.mergeSort fun a b => a.1.length ≤ b.1.length do
    match node, old.node? l with
    | .directory, none => IO.FS.createDirAll l.path
    | .file content, some (.file before) =>
      if content.data != before.data then IO.FS.writeBinFile l.path content
    | .file content, _ => IO.FS.writeBinFile l.path content
    | .directory, some _ => pure ()

/-! ## Running -/

/-- The tenths of a second in some milliseconds, as they are printed. -/
def seconds (milliseconds : Nat) : String :=
  let tenths := (milliseconds + 50) / 100
  s!"{tenths / 10}.{tenths % 10}"

/-- Output is coloured on a terminal, unless the environment says otherwise. -/
def wantsColour : IO Bool := do
  if (← IO.getEnv "NO_COLOR").isSome then return false
  match ← IO.getEnv "CLICOLOR_FORCE" with
  | some value => if value != "0" then return true
  | none => pure ()
  if (← IO.getEnv "CLICOLOR") == some "0" then return false
  (← IO.getStdout).isTty

/-- The path that a command is about. -/
def pathOf : Command → String
  | .check options => options.path
  | _ => "."

/-- Runs a command and gives its exit code. -/
def run (command : Command) : IO UInt32 := do
  let started ← IO.monoMsNow
  let disk ← readDisk (pathOf command)
  match command.run disk (← wantsColour) with
  | .error a =>
    IO.eprintln a.message
    return 101
  | .ok (changed, print) =>
    writeDisk disk changed
    let milliseconds := (← IO.monoMsNow) - started
    let printed := print ⟨seconds milliseconds, milliseconds⟩
    IO.print (Printed.text printed.out)
    IO.eprint (Printed.text printed.err)
    return UInt32.ofNat printed.exitCode

end LintMend.Program

def main (args : List String) : IO UInt32 :=
  match LintMend.Command.ofArguments args with
  | .ok command => LintMend.Program.run command
  | .error e => do
    IO.eprintln e.message
    return UInt32.ofNat e.exitCode
