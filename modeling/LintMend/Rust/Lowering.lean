import LintMend.Program.Unit
import LintMend.Rust.File

/-!
# From syntax trees to program units

Implementations and traits become classes; functions outside of them are gathered in one class of
their own. Every block of a function is a basic block, linked in both directions with the block that
contains it.

The tree is first cut down to an `Outline`: for each statement its extent, the expressions it
mentions and the blocks directly inside it. Positions in the tree are then looked up in the source.
-/

namespace LintMend.Rust

/-- The class that holds functions outside of implementations and traits. -/
def moduleClass : String := "<module>"

/-- An expression that a statement mentions. -/
structure Mention where
  kind : ExpressionKind
  name : Option String
  extent : Extent
deriving DecidableEq, Repr

/-- A statement: its extent, the expressions it mentions outside of inner blocks, and the blocks
inside it, each a sequence of statements. -/
inductive Outline where
  | mk (extent : Extent) (mentions : List Mention) (blocks : List (List Outline))

/-- What the analysis keeps of a literal. -/
def LiteralKind.expressionKind : LiteralKind → ExpressionKind
  | .string => .stringLiteral
  | .number => .numberLiteral
  | .other => .other

/-- The mention that a node itself is, apart from what is inside it. -/
def Node.mention? (n : Node) : Option Mention :=
  match n.form with
  | .call name => some ⟨.call, name, n.extent⟩
  | .methodCall name method => some ⟨.methodCall, some name, ⟨method, n.extent.stop⟩⟩
  | .binary operator => some ⟨.binary, some operator, n.extent⟩
  | .literal kind => some ⟨kind.expressionKind, none, n.extent⟩
  | .expansion name => some ⟨.expansion, some name, n.extent⟩
  | _ => none

mutual

/-- The expressions mentioned in a node outside of blocks, and the blocks inside it. What attributes
in front of a literal hold is left out. -/
def Node.gather : Node → List Mention × List (List Outline)
  | .mk form extent children =>
    match form with
    | .block => ([], [Node.outlines children])
    | .item | .function _ _ | .implementation _ _ | .traitMembers _ | .module _ => ([], [])
    | .literal kind => ((Node.mk (.literal kind) extent []).mention?.toList, [])
    | form =>
      let (mentions, blocks) := Node.gatherAll children
      ((Node.mk form extent []).mention?.toList ++ mentions, blocks)

/-- The same for a sequence of nodes. -/
def Node.gatherAll : List Node → List Mention × List (List Outline)
  | [] => ([], [])
  | n :: ns =>
    let (mentions, blocks) := n.gather
    let (mentions', blocks') := Node.gatherAll ns
    (mentions ++ mentions', blocks ++ blocks')

/-- The statements among nodes; items between them are no statements. -/
def Node.outlines : List Node → List Outline
  | [] => []
  | .mk form extent children :: ns =>
    match form with
    | .statement =>
      let (mentions, blocks) := Node.gatherAll children
      .mk extent mentions blocks :: Node.outlines ns
    | _ => Node.outlines ns

end

/-! ## Positions -/

/-- A source text with its lines. -/
structure Locator where
  chars : List Char
  index : LineIndex

def Locator.ofSource (source : String) : Locator := ⟨source.toList, LineIndex.ofText source⟩

/-- The span of an extent. There is none if an end is not in the source or the ends are out of
order. -/
def Locator.span? (l : Locator) (e : Extent) : Option Span := do
  let start ← l.index.offset? e.start.line e.start.column
  let stop ← l.index.offset? e.stop.line e.stop.column
  if start ≤ stop then return ⟨start, stop⟩ else none

/-- The origin of an extent. -/
def Locator.origin? (l : Locator) (e : Extent) : Option Origin := (l.span? e).map l.index.origin

/-- The origin and the text of an extent. -/
def Locator.locate? (l : Locator) (e : Extent) : Option (Origin × String) := do
  let span ← l.span? e
  let text ← Text.slice? l.chars span.start span.stop
  return (l.index.origin span, String.ofList text)

def Mention.expression? (l : Locator) (m : Mention) : Option Expression :=
  (l.locate? m.extent).map fun (origin, text) => ⟨m.kind, m.name, text, origin⟩

/-! ## Graphs -/

/-- A basic block and the block that contains it. Its id is its place in the sequence of blocks. -/
structure PlacedBlock where
  parent : Option Nat
  statements : List Statement

mutual

/-- The blocks of a statement outline and of those after it in the block `id`: the statements of
the block itself, the blocks inside them from `block` on, and the next free statement id. -/
def lowerStatements (l : Locator) (id block next : Nat) :
    List Outline → List Statement × List PlacedBlock × Nat
  | [] => ([], [], next)
  | .mk extent mentions blocks :: rest =>
    let (own, next) :=
      match l.locate? extent with
      | some (origin, text) =>
        ([{ id := next, origin, text, expressions := mentions.filterMap (·.expression? l) }],
          next + 1)
      | none => ([], next)
    let (inner, next) := lowerBlocks l id block next blocks
    let (more, after, next) := lowerStatements l id (block + inner.length) next rest
    (own ++ more, inner ++ after, next)

/-- The blocks of a sequence of block outlines inside the block `parent`, with all blocks inside
them; the first has the id `block`. -/
def lowerBlocks (l : Locator) (parent block next : Nat) :
    List (List Outline) → List PlacedBlock × Nat
  | [] => ([], next)
  | outline :: rest =>
    let (statements, inner, next) := lowerStatements l block (block + 1) next outline
    let placed := ⟨some parent, statements⟩ :: inner
    let (after, next) := lowerBlocks l parent (block + placed.length) next rest
    (placed ++ after, next)

end

/-- The graph of placed blocks: each block after the first is linked with its parent in both
directions. -/
def graphOf (placed : List PlacedBlock) : FlowGraph where
  blocks := placed.zipIdx.map fun (b, id) => ⟨id, b.statements⟩
  edges := placed.zipIdx.flatMap fun (b, id) =>
    match b.parent with
    | some parent => [(parent, id), (id, parent)]
    | none => []

/-- The graph of a function body and the next free statement id. -/
def lowerBody (l : Locator) (next : Nat) (body : List Outline) : FlowGraph × Nat :=
  let (statements, inner, next) := lowerStatements l 0 1 next body
  (graphOf (⟨none, statements⟩ :: inner), next)

/-! ## Classes -/

/-- What has been lowered: classes, functions outside of them, and the next free statement id. -/
structure Lowered where
  classes : List Class := []
  functions : List Method := []
  next : Nat := 0

/-- The method that a function node is. -/
def lowerFunction (l : Locator) (next : Nat) (name : String) (synthetic : Bool) (extent : Extent)
    (children : List Node) : Method × Nat :=
  let body := children.flatMap fun n => if n.form == .block then Node.outlines n.children else []
  let (graph, next) := lowerBody l next body
  (⟨name, if synthetic then none else l.origin? extent, graph⟩, next)

/-- The methods among the members of a class. -/
def lowerMembers (l : Locator) (derived : Bool) (next : Nat) : List Node → List Method × Nat
  | [] => ([], next)
  | .mk (.function name isDerived) extent children :: rest =>
    let (method, next) := lowerFunction l next name (derived || isDerived) extent children
    let (methods, next) := lowerMembers l derived next rest
    (method :: methods, next)
  | _ :: rest => lowerMembers l derived next rest

mutual

/-- Adds what an item holds. Names of classes get the names of the modules around them in front. -/
def lowerItem (l : Locator) (modules : String) (done : Lowered) : Node → Lowered
  | .mk form extent children =>
    match form with
    | .function name derived =>
      let (method, next) := lowerFunction l done.next name derived extent children
      { done with functions := done.functions ++ [method], next }
    | .implementation owner derived =>
      let (methods, next) := lowerMembers l derived done.next children
      let origin := if derived then none else l.origin? extent
      { done with classes := done.classes ++ [⟨modules ++ owner, origin, methods⟩], next }
    | .traitMembers name =>
      let (methods, next) := lowerMembers l false done.next children
      { done with classes := done.classes ++ [⟨modules ++ name, l.origin? extent, methods⟩], next }
    | .module name => lowerItems l (modules ++ name ++ "::") done children
    | _ => done

/-- Adds what a sequence of items holds. -/
def lowerItems (l : Locator) (modules : String) (done : Lowered) : List Node → Lowered
  | [] => done
  | n :: ns => lowerItems l modules (lowerItem l modules done n) ns

end

/-- The classes of the items of a source text. Functions outside of classes come first. -/
def lower (source : String) (items : List Node) : List Class :=
  let lowered := lowerItems (.ofSource source) "" {} items
  if lowered.functions.isEmpty then lowered.classes
  else ⟨moduleClass, none, lowered.functions⟩ :: lowered.classes

/-- The classes of a source text, if it can be read. -/
def classes? (source : String) : Option (List Class) := (items? source).map (lower source)

end LintMend.Rust
