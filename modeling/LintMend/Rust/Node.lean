import LintMend.Rust.Token

/-!
# Syntax trees

A tree of nodes, each with its form, its extent in the source, and the nodes below it in the order
in which a reader of the tree meets them. Forms tell apart what the analysis reports on and what the
grammar has to tell apart; all other constructs are `other`.
-/

namespace LintMend.Rust

/-- What a literal denotes. -/
inductive LiteralKind where
  | string
  | number
  | other
deriving DecidableEq, Repr

/-- What a node is. -/
inductive Form where
  /-- Statements in braces. -/
  | block
  | statement
  /-- An item of no interest to the analysis. -/
  | item
  /-- An attribute whose path is the single word given, or empty. -/
  | attribute (name : String)
  /-- A function with a body, from its signature to the end of the body. -/
  | function (name : String) (derived : Bool)
  /-- The members of a type, from `impl` on. -/
  | implementation (owner : String) (derived : Bool)
  /-- The members of a trait, from `trait` on. -/
  | traitMembers (name : String)
  /-- The items of a module. -/
  | module (name : String)
  | call (name : Option String)
  /-- A call of a method, whose name begins at `method`. -/
  | methodCall (name : String) (method : Position)
  | binary (operator : String)
  | literal (kind : LiteralKind)
  /-- A use of a syntactic extension, with its arguments as far as they are expressions. -/
  | expansion (name : String)
  /-- The expression that is such a use. -/
  | expansionValue (braced : Bool)
  /-- A path as an expression. -/
  | path (name : String)
  | range
  | assign
  | cast
  /-- An expression that ends in a block and needs no semicolon after it. -/
  | blockLike
  /-- A type that is a path: its last name, whether it starts from another type, and whether it is
  a single name. -/
  | typePath (name : String) (qualified single : Bool)
  /-- Bounds that stand for a type; `single` when there is exactly one and no keyword. -/
  | bounds (single : Bool)
  /-- A range pattern that lacks an end. -/
  | openRange
  | other
deriving DecidableEq, Repr

/-- Syntax trees. -/
inductive Node where
  | mk (form : Form) (extent : Extent) (children : List Node)
deriving Repr

namespace Node

def form : Node → Form
  | mk f _ _ => f

def extent : Node → Extent
  | mk _ e _ => e

def children : Node → List Node
  | mk _ _ cs => cs

/-- The node, taken to begin somewhere else. -/
def startingAt (n : Node) (start : Position) : Node :=
  mk n.form ⟨start, n.extent.stop⟩ n.children

/-- The node with attributes in front of it. It begins with the first attribute. -/
def withAttributes (attributes : List Node) (n : Node) : Node :=
  match attributes with
  | [] => n
  | first :: _ => mk n.form ⟨first.extent.start, n.extent.stop⟩ (attributes ++ n.children)

/-- Puts attributes in front of the leftmost operand of a chain of operators. Every operator on
the way begins with the first attribute. -/
def attributeLeftmost (attributes : List Node) : Node → Node
  | mk .assign e (left :: rest) =>
    let left := attributeLeftmost attributes left
    mk .assign ⟨left.extent.start, e.stop⟩ (left :: rest)
  | mk (.binary op) e (left :: rest) =>
    let left := attributeLeftmost attributes left
    mk (.binary op) ⟨left.extent.start, e.stop⟩ (left :: rest)
  | mk .cast e (left :: rest) =>
    let left := attributeLeftmost attributes left
    mk .cast ⟨left.extent.start, e.stop⟩ (left :: rest)
  | n => n.withAttributes attributes

/-- The node is an attribute that marks generated code. -/
def marksDerived (n : Node) : Bool := n.form == .attribute "automatically_derived"

/-- The expression ends a statement without a semicolon. -/
def endsStatement (n : Node) : Bool :=
  match n.form with
  | .blockLike => true
  | .expansionValue braced => braced
  | _ => false

end Node

end LintMend.Rust
