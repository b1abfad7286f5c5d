import LintMend.Config.Basic
import LintMend.Disk.Tree
import LintMend.Frontend
import LintMend.Ignore.Rules

/-!
# Finding files

Files are found by walking a directory. Entries are left out that the settings ignore, that ignore
files leave out, or whose names start with a dot. Ignore files apply below their directories, and
those in directories above the walk apply too. Of the kinds of ignore files, our own goes first,
then the general one, then those of a repository; in each kind the nearest file that says something
decides. Files of a repository apply only inside one.
-/

namespace LintMend.Walk

/-- The name of our own ignore files. -/
def ignoreFile : String := ".checkfixignore"

/-- The ignore rules that a directory holds. -/
structure Level where
  location : Location
  own : IgnoreRules
  general : IgnoreRules
  repository : IgnoreRules
  excluded : IgnoreRules
  isRepository : Bool

/-- Splits bytes into lines; `line` was read of the first one, last first. -/
def byteLines (line : List UInt8) (done : List (List UInt8)) : List UInt8 → List (List UInt8)
  | [] => (if line.isEmpty then done else line.reverse :: done).reverse
  | b :: bs =>
    if b == 0x0A then
      let line := if line.head? == some 0x0D then line.tail else line
      byteLines [] (line.reverse :: done) bs
    else byteLines (b :: line) done bs

/-- The lines of a file up to the first that is not text. -/
def textLinesOf (content : ByteArray) : List (List Char) :=
  ((byteLines [] [] content.toList).map fun line => String.fromUTF8? ⟨line.toArray⟩)
    |>.takeWhile Option.isSome |>.filterMap fun line => line.map String.toList

/-- The rules of an ignore file; none if there is no such file. -/
def rulesAt (disk : Disk) (l : Location) : IgnoreRules :=
  match disk.node? l with
  | some (.file content) =>
    match textLinesOf content with
    | [] => []
    | first :: rest => IgnoreRules.ofLines (first.dropWhile (· == '\ufeff') :: rest)
  | _ => []

/-- The ignore rules of a directory. -/
def levelAt (disk : Disk) (l : Location) : Level where
  location := l
  own := rulesAt disk (l ++ [ignoreFile])
  general := rulesAt disk (l ++ [".ignore"])
  repository := rulesAt disk (l ++ [".gitignore"])
  excluded := rulesAt disk (l ++ [".git", "info", "exclude"])
  isRepository := (disk.node? (l ++ [".git"])).isSome || (disk.node? (l ++ [".jj"])).isSome

/-- The path of a location from a directory above it. -/
def pathFrom (base l : Location) : List UInt8 :=
  ("/".intercalate (l.drop base.length)).toUTF8.toList

/-- The verdict of one kind of ignore file, the nearest level first. -/
def nearest (rules : Level → IgnoreRules) (levels : List Level) (l : Location)
    (isDirectory : Bool) : Verdict :=
  levels.foldl (fun verdict level =>
    verdict.orElse ((rules level).verdict (pathFrom level.location l) isDirectory)) .unmatched

/-- The levels up to the nearest repository; none outside of repositories. -/
def inRepository (levels : List Level) : List Level :=
  if levels.any (·.isRepository) then
    levels.takeWhile (!·.isRepository) ++ (levels.find? (·.isRepository)).toList
  else []

/-- The verdict of all ignore files. -/
def fileVerdict (levels : List Level) (l : Location) (isDirectory : Bool) : Verdict :=
  (nearest (·.own) levels l isDirectory).orElse <|
    (nearest (·.general) levels l isDirectory).orElse <|
      (nearest (·.repository) (inRepository levels) l isDirectory).orElse <|
        nearest (·.excluded) (inRepository levels) l isDirectory

/-- The entry is left out. What the settings ignore is matched from the start of the walk. -/
def isLeftOut (settings : IgnoreRules) (start : Location) (levels : List Level) (l : Location)
    (isDirectory : Bool) : Bool :=
  if settings.verdict (pathFrom start l) isDirectory != .unmatched then true
  else
    match fileVerdict levels l isDirectory with
    | .ignored => true
    | .kept => false
    | .unmatched => (l.getLast?.map fun name => startsWithText name ".").getD false

/-- The files below a directory that are not left out; `levels` are those of the directory and
above, nearest first. -/
def filesBelow (disk : Disk) (settings : IgnoreRules) (start : Location) (fuel : Nat)
    (levels : List Level) (l : Location) (path : String) : List String :=
  match fuel with
  | 0 => []
  | fuel + 1 =>
    (disk.children l).flatMap fun name =>
      let inner := l ++ [name]
      let innerPath := Path.join path name
      match disk.node? inner with
      | some (.file _) => if isLeftOut settings start levels inner false then [] else [innerPath]
      | some .directory =>
        if isLeftOut settings start levels inner true then []
        else filesBelow disk settings start fuel (levelAt disk inner :: levels) inner innerPath
      | none => []

/-- The rules of the patterns that the settings ignore. -/
def settingsRules (patterns : List String) : Except ConfigError IgnoreRules :=
  patterns.foldlM (fun rules pattern =>
    match IgnoreRule.ofLine false ('!' :: pattern.toList) with
    | .rule r => .ok (rules ++ [r])
    | .none => .ok rules
    | .invalid => .error (.invalidIgnore pattern "not a pattern")) []

/-- The levels of a directory and of those above it, nearest first. -/
def levelsOf (disk : Disk) (l : Location) : List Level :=
  ((List.range (l.length + 1)).reverse).map fun n => levelAt disk (l.take n)

/-- The files at or below a path that can be analysed, in order. A path to a file stands for
itself. -/
def files (disk : Disk) (ignore : List String) (path : String) : Except ConfigError (List String) :=
  let analysable (p : String) : Bool := (Format.ofPath? p).isSome
  if disk.isFile path then .ok (if analysable path then [path] else [])
  else do
    let settings ← settingsRules ignore
    match disk.locate path with
    | .error _ => return []
    | .ok start =>
      let fuel := disk.nodes.length + 1
      let found := filesBelow disk settings start fuel (levelsOf disk start) start path
      return (found.filter analysable).mergeSort Path.le

/-- The name of the unit in a file: the path from the start of the walk, or the name of the file if
the walk was started at a file. -/
def unitName (disk : Disk) (start path : String) : String :=
  if disk.isFile start then (Path.fileName? path).getD (Path.unitName "" path)
  else Path.unitName start path

end LintMend.Walk
