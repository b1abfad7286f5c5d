import LintMend.Check.Checker
import LintMend.Number.Decimal

/-!
# Console output

Statements that write to the console instead of the log. A statement that does nothing else can be
removed.
-/

namespace LintMend.ConsoleOutput

/-- What writes to the console. -/
def names : List String := ["println", "print", "eprintln", "eprint", "dbg"]

/-- The first expression of a statement that writes to the console, with its name. -/
def call? (s : Statement) : Option (Expression × String) :=
  s.expressions.findSome? fun e =>
    match e.kind, e.name with
    | .expansion, some name | .call, some name | .methodCall, some name =>
      if names.contains name then some (e, name) else none
    | _, _ => none

/-- The text of a statement without what may stand after its expression. -/
def bareText (text : String) : String :=
  let cs := Text.trimRight Text.isBlank text.toList
  String.ofList (Text.trimRight Text.isBlank (Text.trimRight (· == ';') cs))

/-- The call is all of the statement. `dbg` gives its argument back, so it stays. -/
def isRemovable (s : Statement) (call : Expression) : Bool :=
  !call.isNamed "dbg" && call.origin.span.start == s.origin.span.start &&
    bareText s.text == call.text

/-- Removes the statement whose id is the key, unless it has been edited. -/
def remove? (u : ProgramUnit) (key : String) : Option ProgramUnit := do
  let id ← wordOfText? key
  let s ← u.statement? id
  if s.isEdited then none
  else u.modifyStatement? id fun s => { s with edit := some .remove }

def removal : UnitFix where
  description := "Remove console output statement"
  change u key := .ok (remove? u key)

def check (c : Context) : Entity → Outcome (List Issue)
  | .statement _ s =>
    match call? s with
    | none => .ok []
    | some (call, name) => do
      let defect ← c.defectAt s.origin name
        s!"`{name}` writes to the console - use the logger instead"
      if isRemovable s call then return [.withFix defect (toString s.id) (.unit removal)]
      else return [⟨defect, none⟩]
  | _ => .ok []

/-- The rule. -/
def rule : Checker where
  id := "console-output"
  severity := .info
  description := "Console output instead of structured logging"
  matchers := [⟨.statement, some fun
    | .statement _ s => (call? s).isSome
    | _ => false⟩]
  check c e := .ofFound (check c e)

end LintMend.ConsoleOutput
