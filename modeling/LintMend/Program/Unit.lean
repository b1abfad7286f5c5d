import LintMend.Program.Span
import LintMend.Text.Search

/-!
# Program units

A program unit is one source file as the analysis sees it: classes, their methods, the control-flow
graph of each method, its statements and their expressions. Statements carry a pending edit, which
printing turns into text.
-/

namespace LintMend

/-- What an expression is. An `expansion` is the use of a syntactic extension. -/
inductive ExpressionKind where
  | call
  | methodCall
  | expansion
  | stringLiteral
  | numberLiteral
  | binary
  | other
deriving DecidableEq, Repr

/-- The name of a kind in messages. -/
def ExpressionKind.title : ExpressionKind → String
  | .call => "Call"
  | .methodCall => "MethodCall"
  | .expansion => "Macro"
  | .stringLiteral => "StringLiteral"
  | .numberLiteral => "NumberLiteral"
  | .binary => "Binary"
  | .other => "Other"

/-- An expression: its callee or operator where it has one, its text and its origin. -/
structure Expression where
  kind : ExpressionKind
  name : Option String
  text : String
  origin : Origin
deriving DecidableEq, Repr

/-- The expression has a name, and it is this one. -/
def Expression.isNamed (e : Expression) (name : String) : Bool := e.name == some name

/-- A pending change of a statement. -/
inductive Edit where
  | replace (text : String)
  | remove
deriving DecidableEq, Repr

/-- A statement. Its id is meant to be unique within the unit; fixes refer to statements by it. -/
structure Statement where
  id : Nat
  origin : Origin
  text : String
  expressions : List Expression
  edit : Option Edit := none
deriving DecidableEq, Repr

def Statement.isEdited (s : Statement) : Bool := s.edit.isSome

/-- A basic block. -/
structure FlowBlock where
  id : Nat
  statements : List Statement
deriving DecidableEq, Repr

/-- A control-flow graph: blocks, and edges between block ids. -/
structure FlowGraph where
  blocks : List FlowBlock := []
  edges : List (Nat × Nat) := []
deriving DecidableEq, Repr

namespace FlowGraph

/-- The statements in the order in which they are stored. -/
def stored (g : FlowGraph) : List Statement := g.blocks.flatMap (·.statements)

/-- The statements by their place in the source, and by id where they begin together. -/
def statements (g : FlowGraph) : List Statement :=
  g.stored.mergeSort fun a b =>
    a.origin.span.start < b.origin.span.start ||
      (a.origin.span.start == b.origin.span.start && a.id ≤ b.id)

/-- The blocks to which edges lead from a block. -/
def successors (g : FlowGraph) (block : Nat) : List Nat :=
  (g.edges.filter (·.1 == block)).map (·.2)

/-- Number of independent paths through the graph: edges less blocks plus two, and at least one. -/
def complexity (g : FlowGraph) : Nat :=
  if g.blocks.isEmpty then 1 else max 1 (g.edges.length + 2 - g.blocks.length)

end FlowGraph

/-- A method. One without an origin is synthetic: it has no source of its own. -/
structure Method where
  name : String
  origin : Option Origin
  graph : FlowGraph
deriving DecidableEq, Repr

namespace Method

def isSynthetic (m : Method) : Bool := m.origin.isNone

def statementCount (m : Method) : Nat := m.graph.stored.length

end Method

/-- A class. -/
structure Class where
  name : String
  origin : Option Origin
  methods : List Method
deriving DecidableEq, Repr

/-- A program unit. The name identifies the unit within a run; it is usually the path relative to
the root of the analysis. -/
structure ProgramUnit where
  name : String
  path : String
  source : String
  classes : List Class := []
deriving DecidableEq, Repr

/-- A change of a list that keeps its length: `f` is applied to the first element that satisfies
`p`. -/
def modifyFirst {α : Type} (p : α → Bool) (f : α → α) : List α → List α
  | [] => []
  | a :: as => if p a then f a :: as else a :: modifyFirst p f as

namespace ProgramUnit

/-- The lines of the source. -/
def lines (u : ProgramUnit) : List String := textLines u.source

/-- A line of the source, counted from one. -/
def lineText? (u : ProgramUnit) (line : Nat) : Option String :=
  match line with
  | 0 => none
  | n + 1 => u.lines[n]?

/-- The text of an origin up to the end of its first line. Ends outside the source are moved to its
end; a span that cuts a character has no text. -/
def originLine (u : ProgramUnit) (o : Origin) : String :=
  let stop := min o.span.stop (byteLength u.source)
  let start := min o.span.start stop
  match sliceBytes? u.source start stop with
  | some text => String.ofList (text.toList.takeWhile (· != '\n'))
  | none => ""

/-- The name of the file that receives the corrected unit: the unit's name with separators turned
into dots, without dots in front, and an ending of its own. -/
def outputName (u : ProgramUnit) : String :=
  let flat := u.name.toList.map fun c => if c == '/' || c == '\\' then '.' else c
  String.ofList (flat.dropWhile (· == '.')) ++ ".fix"

/-- The methods with their classes. -/
def methods (u : ProgramUnit) : List (Class × Method) :=
  u.classes.flatMap fun c => c.methods.map fun m => (c, m)

/-- The statements in the order in which they are stored. -/
def statements (u : ProgramUnit) : List Statement :=
  u.classes.flatMap fun c => c.methods.flatMap fun m => m.graph.stored

/-- The first statement with the id. -/
def statement? (u : ProgramUnit) (id : Nat) : Option Statement :=
  u.statements.find? (·.id == id)

/-- The unit with its first statement of the id changed. -/
def modifyStatement (u : ProgramUnit) (id : Nat) (f : Statement → Statement) : ProgramUnit :=
  let inBlock (b : FlowBlock) : Bool := b.statements.any (·.id == id)
  let inMethod (m : Method) : Bool := m.graph.blocks.any inBlock
  let inClass (c : Class) : Bool := c.methods.any inMethod
  let changeBlock (b : FlowBlock) : FlowBlock :=
    { b with statements := modifyFirst (·.id == id) f b.statements }
  let changeMethod (m : Method) : Method :=
    { m with graph := { m.graph with blocks := modifyFirst inBlock changeBlock m.graph.blocks } }
  let changeClass (c : Class) : Class :=
    { c with methods := modifyFirst inMethod changeMethod c.methods }
  { u with classes := modifyFirst inClass changeClass u.classes }

/-- The unit with the statement of the id changed, if there is one. -/
def modifyStatement? (u : ProgramUnit) (id : Nat) (f : Statement → Statement) :
    Option ProgramUnit :=
  if (u.statement? id).isSome then some (u.modifyStatement id f) else none

/-- Some statement has a pending edit. -/
def hasEdits (u : ProgramUnit) : Bool := u.statements.any Statement.isEdited

/-! ## Validity -/

/-- What is wrong with the origin of a part of a unit. -/
inductive OriginFault where
  | outside (what : String) (span : Span) (length : Nat)
  | lineZero (what : String)
deriving DecidableEq, Repr

/-- The words of a fault. -/
def OriginFault.message : OriginFault → String
  | .outside what span length =>
    s!"{what} span {span.start}..{span.stop} is outside the {length}-byte source"
  | .lineZero what => s!"{what} has line 0"

/-- The fault of an origin, if it has one: a span that does not fit, or no line. -/
def originFault? (u : ProgramUnit) (what : String) (o : Origin) : Option OriginFault :=
  if !o.span.fits u.source then some (.outside what o.span (byteLength u.source))
  else if o.line == 0 then some (.lineZero what)
  else none

/-- The origins of a unit, each with what it belongs to, from the outside in. -/
def origins (u : ProgramUnit) : List (String × Origin) :=
  u.classes.flatMap fun c =>
    (c.origin.toList.map fun o => (s!"class '{c.name}'", o)) ++
      c.methods.flatMap fun m =>
        (m.origin.toList.map fun o => (s!"method '{m.name}'", o)) ++
          m.graph.stored.flatMap fun s =>
            (s!"statement {s.id}", s.origin) ::
              s.expressions.map fun e => (s!"expression in statement {s.id}", e.origin)

/-- The first fault of the unit's origins. -/
def fault? (u : ProgramUnit) : Option OriginFault :=
  u.origins.findSome? fun (what, o) => u.originFault? what o

end ProgramUnit

end LintMend
