import LintMend.Check.Checker
import LintMend.Text.Pattern

/-!
# SQL injection

Calls that run a query whose text is put together from pieces.
-/

namespace LintMend.SqlInjection

open Text (Pattern)

/-- Calls that run or prepare a query. -/
def names : List String :=
  ["query", "query_as", "execute", "exec", "executeQuery", "executeUpdate", "prepare",
   "prepareStatement", "raw"]

/-- A call of something, with white space before the bracket. -/
def callOf (name : String) : Pattern := .all [.literal name, .blanks, .char '(']

/-- Signs of a text that is put together from pieces. -/
def assembled : Pattern :=
  .any [callOf "format!", callOf "String.format", .all [.char '"', .blanks, .char '+'],
    .all [.char '+', .blanks, .char '"'], callOf ".concat", callOf ".push_str"]

/-- The text of a call after the last occurrence of its name: the arguments and not the receiver. -/
def arguments (text name : String) : List Char :=
  match Text.rfind? name.toList text.toList with
  | some offset => (Text.dropBytes? text.toList (offset + byteLength name)).getD text.toList
  | none => text.toList

def check (c : Context) : Entity → Outcome (List Issue)
  | .expression _ e =>
    let name := e.name.getD "query"
    if assembled.occurs (arguments e.text name) then do
      let defect ← c.defectAt e.origin name
        s!"`{name}` receives SQL assembled at runtime - use bound parameters"
      return [⟨defect, none⟩]
    else .ok []
  | _ => .ok []

/-- The rule. -/
def rule : Checker where
  id := "sql-injection"
  severity := .error
  description := "SQL query built by string concatenation or formatting"
  matchers := [.named [.call, .methodCall] names]
  check c e := .ofFound (check c e)

end LintMend.SqlInjection
