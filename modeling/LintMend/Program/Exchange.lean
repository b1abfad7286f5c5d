import LintMend.Json.Value
import LintMend.Program.Unit

/-!
# Program units as JSON

The form in which other tools hand over program units. Pending edits are not part of it.
-/

namespace LintMend

open Json

namespace Span

def toJson (s : Span) : Json := .object [("start", s.start), ("end", s.stop)]

def ofJson? (j : Json) : Option Span := do
  match ← j.record? ["start", "end"] with
  | [start, stop] => return ⟨← required? word? start, ← required? word? stop⟩
  | _ => none

end Span

namespace Origin

def toJson (o : Origin) : Json :=
  .object [("line", o.line), ("column", o.column), ("span", o.span.toJson)]

def ofJson? (j : Json) : Option Origin := do
  match ← j.record? ["line", "column", "span"] with
  | [line, column, span] =>
    return ⟨← required? word? line, ← required? word? column, ← required? Span.ofJson? span⟩
  | _ => none

end Origin

namespace ExpressionKind

/-- The name of a kind in JSON. -/
def name : ExpressionKind → String
  | .call => "call"
  | .methodCall => "method_call"
  | .expansion => "macro"
  | .stringLiteral => "string_literal"
  | .numberLiteral => "number_literal"
  | .binary => "binary"
  | .other => "other"

def all : List ExpressionKind :=
  [.call, .methodCall, .expansion, .stringLiteral, .numberLiteral, .binary, .other]

/-- The kind with the name. -/
def ofName? (name : String) : Option ExpressionKind := all.find? (·.name == name)

theorem ofName?_name (k : ExpressionKind) : ofName? k.name = some k := by
  cases k <;> decide

def toJson (k : ExpressionKind) : Json := .string k.name

def ofJson? (j : Json) : Option ExpressionKind := j.choice? ofName?

end ExpressionKind

namespace Expression

def toJson (e : Expression) : Json :=
  .object [("kind", e.kind.toJson), ("name", Json.ofOption .string e.name), ("text", e.text),
    ("origin", e.origin.toJson)]

def ofJson? (j : Json) : Option Expression := do
  match ← j.record? ["kind", "name", "text", "origin"] with
  | [kind, name, text, origin] =>
    return ⟨← required? ExpressionKind.ofJson? kind, ← withDefault? (nullable? text?) none name,
      ← required? text? text, ← required? Origin.ofJson? origin⟩
  | _ => none

end Expression

namespace Statement

def toJson (s : Statement) : Json :=
  .object [("id", s.id), ("origin", s.origin.toJson), ("text", s.text),
    ("expressions", Json.ofList Expression.toJson s.expressions)]

def ofJson? (j : Json) : Option Statement := do
  match ← j.record? ["id", "origin", "text", "expressions"] with
  | [id, origin, text, expressions] =>
    return ⟨← required? word? id, ← required? Origin.ofJson? origin, ← required? text? text,
      ← withDefault? (list? Expression.ofJson?) [] expressions, none⟩
  | _ => none

end Statement

namespace FlowBlock

def toJson (b : FlowBlock) : Json :=
  .object [("id", b.id), ("statements", Json.ofList Statement.toJson b.statements)]

def ofJson? (j : Json) : Option FlowBlock := do
  match ← j.record? ["id", "statements"] with
  | [id, statements] =>
    return ⟨← required? word? id, ← withDefault? (list? Statement.ofJson?) [] statements⟩
  | _ => none

end FlowBlock

namespace FlowGraph

def toJson (g : FlowGraph) : Json :=
  .object [("blocks", Json.ofList FlowBlock.toJson g.blocks),
    ("edges", Json.ofList (fun (source, target) => .array [ofNat source, ofNat target]) g.edges)]

def ofJson? (j : Json) : Option FlowGraph := do
  match ← j.record? ["blocks", "edges"] with
  | [blocks, edges] =>
    return ⟨← withDefault? (list? FlowBlock.ofJson?) [] blocks,
      ← withDefault? (list? (pair? word? word?)) [] edges⟩
  | _ => none

end FlowGraph

namespace Method

def toJson (m : Method) : Json :=
  .object [("name", m.name), ("origin", Json.ofOption Origin.toJson m.origin),
    ("cfg", m.graph.toJson)]

def ofJson? (j : Json) : Option Method := do
  match ← j.record? ["name", "origin", "cfg"] with
  | [name, origin, graph] =>
    return ⟨← required? text? name, ← withDefault? (nullable? Origin.ofJson?) none origin,
      ← withDefault? FlowGraph.ofJson? {} graph⟩
  | _ => none

end Method

namespace Class

def toJson (c : Class) : Json :=
  .object [("name", c.name), ("origin", Json.ofOption Origin.toJson c.origin),
    ("methods", Json.ofList Method.toJson c.methods)]

def ofJson? (j : Json) : Option Class := do
  match ← j.record? ["name", "origin", "methods"] with
  | [name, origin, methods] =>
    return ⟨← required? text? name, ← withDefault? (nullable? Origin.ofJson?) none origin,
      ← withDefault? (list? Method.ofJson?) [] methods⟩
  | _ => none

end Class

namespace ProgramUnit

def toJson (u : ProgramUnit) : Json :=
  .object [("name", u.name), ("path", u.path), ("source", u.source),
    ("classes", Json.ofList Class.toJson u.classes)]

def ofJson? (j : Json) : Option ProgramUnit := do
  match ← j.record? ["name", "path", "source", "classes"] with
  | [name, path, source, classes] =>
    return ⟨← required? text? name, ← required? text? path, ← required? text? source,
      ← withDefault? (list? Class.ofJson?) [] classes⟩
  | _ => none

end ProgramUnit

end LintMend
