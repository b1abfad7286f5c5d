import LintMend.Program.Unit

/-!
# Program entities

What a rule can look at: the file, a class, a method, a statement or an expression, each with what
is right around it.
-/

namespace LintMend

/-- The kinds of entities. -/
inductive Granularity where
  | file
  | classDef
  | method
  | statement
  | expression
deriving DecidableEq, Repr

namespace Granularity

def all : List Granularity := [file, classDef, method, statement, expression]

def name : Granularity → String
  | .file => "file"
  | .classDef => "class"
  | .method => "method"
  | .statement => "statement"
  | .expression => "expression"

/-- The name with a capital letter. -/
def title : Granularity → String
  | .file => "File"
  | .classDef => "Class"
  | .method => "Method"
  | .statement => "Statement"
  | .expression => "Expression"

/-- A value for each kind of entity. -/
structure Table (α : Type) where
  file : α
  classDef : α
  method : α
  statement : α
  expression : α

namespace Table

variable {α : Type}

/-- The table with the same value everywhere. -/
def fill (a : α) : Table α := ⟨a, a, a, a, a⟩

def get (t : Table α) : Granularity → α
  | .file => t.file
  | .classDef => t.classDef
  | .method => t.method
  | .statement => t.statement
  | .expression => t.expression

/-- The table with the value of one kind changed. -/
def modify (t : Table α) (g : Granularity) (f : α → α) : Table α :=
  match g with
  | .file => { t with file := f t.file }
  | .classDef => { t with classDef := f t.classDef }
  | .method => { t with method := f t.method }
  | .statement => { t with statement := f t.statement }
  | .expression => { t with expression := f t.expression }

@[simp] theorem get_fill (a : α) (g : Granularity) : (fill a).get g = a := by cases g <;> rfl

@[simp] theorem get_modify (t : Table α) (g h : Granularity) (f : α → α) :
    (t.modify g f).get h = if g = h then f (t.get h) else t.get h := by
  cases g <;> cases h <;> rfl

end Table

end Granularity

/-- A program entity. -/
inductive Entity where
  | file (unit : ProgramUnit)
  | classDef (cls : Class)
  | method (cls : Class) (method : Method)
  | statement (method : Method) (statement : Statement)
  | expression (statement : Statement) (expression : Expression)

namespace Entity

def granularity : Entity → Granularity
  | .file _ => .file
  | .classDef _ => .classDef
  | .method _ _ => .method
  | .statement _ _ => .statement
  | .expression _ _ => .expression

def origin? : Entity → Option Origin
  | .file _ => none
  | .classDef c => c.origin
  | .method _ m => m.origin
  | .statement _ s => some s.origin
  | .expression _ e => some e.origin

/-- The words for the entity in messages. -/
def describe : Entity → String
  | .file u => s!"file {u.name}"
  | .classDef c => s!"class {c.name}"
  | .method c m => s!"method {c.name}::{m.name}"
  | .statement m s => s!"statement {s.id} in {m.name}"
  | .expression s e => s!"{e.kind.title} expression in statement {s.id}"

end Entity

/-- The expressions of a statement by the place where they begin. -/
def Statement.inOrder (s : Statement) : List Expression :=
  s.expressions.mergeSort fun a b => a.origin.span.start ≤ b.origin.span.start

end LintMend
