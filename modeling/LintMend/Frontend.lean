import LintMend.Disk.Path
import LintMend.Json.Reader
import LintMend.Program.Exchange
import LintMend.Rust.Lowering

/-!
# Loading program units

The name of a file decides how it is read: as a program unit that another tool has written in JSON,
or as Rust source.
-/

namespace LintMend

/-- A format of files that can be analysed. -/
inductive Format where
  | model
  | rust
deriving DecidableEq, Repr

namespace Format

/-- The ending of files that hold a program unit. -/
def modelEnding : String := ".unit.json"

def accepts (f : Format) (path : String) : Bool :=
  match f with
  | .model =>
    match Path.fileName? path with
    | some name => endsWithText name modelEnding
    | none => false
  | .rust => Path.extension? path == some "rs"

/-- The format of a file. -/
def ofPath? (path : String) : Option Format := [model, rust].find? (·.accepts path)

end Format

/-- Why a unit cannot be loaded. -/
inductive LoadError where
  | read (path reason : String)
  | parse (path reason : String)
  | invalidModel (path reason : String)
  | unsupported (path : String)
deriving DecidableEq, Repr

def LoadError.message : LoadError → String
  | .read path reason => s!"failed to read {path}: {reason}"
  | .parse path reason => s!"failed to parse {path}: {reason}"
  | .invalidModel path reason => s!"invalid program model for {path}: {reason}"
  | .unsupported path => s!"no front-end accepts {path}"

namespace Frontend

/-- A text without all the copies of an ending that stand at its end. -/
def dropEndings (ending : List Char) (cs : List Char) : List Char :=
  if _h : ending ≠ [] ∧ ending.isSuffixOf cs then
    dropEndings ending (cs.take (cs.length - ending.length))
  else cs
termination_by cs.length
decreasing_by
  have hlen : ending.length ≤ cs.length := (List.isSuffixOf_iff_suffix.1 _h.2).length_le
  have hpos : 0 < ending.length := List.length_pos_iff.2 _h.1
  simp only [List.length_take]
  omega

/-- The least statement id that is used more than once. -/
def repeatedId? (ids : List Nat) : Option Nat :=
  ((ids.filter fun id => 1 < ids.count id).mergeSort (· ≤ ·)).head?

/-- The unit with a name. One without a name is named after its file. -/
def withName (name : String) (u : ProgramUnit) : ProgramUnit :=
  if u.name == "" then
    { u with name := String.ofList (dropEndings Format.modelEnding.toList name.toList) }
  else u

/-- Reads a unit from JSON. -/
def parseModel (name path source : String) : Except LoadError ProgramUnit :=
  match (Json.parse? source).bind ProgramUnit.ofJson? with
  | none => .error (.parse path "not a program unit")
  | some unit =>
    let unit := withName name unit
    match unit.fault? with
    | some fault => .error (.invalidModel path fault.message)
    | none =>
      match repeatedId? (unit.statements.map (·.id)) with
      | some id => .error (.invalidModel path s!"statement id {id} is used twice")
      | none => .ok unit

/-- Reads a unit from Rust source. -/
def parseRust (name path source : String) : Except LoadError ProgramUnit :=
  match Rust.classes? source with
  | none => .error (.parse path "not a source file")
  | some classes => .ok ⟨name, path, source, classes⟩

/-- Reads a unit in the format that the path tells. -/
def parse (name path source : String) : Except LoadError ProgramUnit :=
  match Format.ofPath? path with
  | some .model => parseModel name path source
  | some .rust => parseRust name path source
  | none => .error (.unsupported path)

end Frontend

end LintMend
