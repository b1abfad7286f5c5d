import LintMend.Rust.Lexer
import LintMend.Rust.Reader

/-!
# The grammar as a knot

Expressions, types, patterns, blocks and items contain each other. The rules of the grammar are
written against a `Grammar`, which reads any `Goal`; the knot is tied once for all of them, by a
count of how deep goals may nest.
-/

namespace LintMend.Rust

/-- What can be read. `structs` says whether a brace after a path opens a struct expression; `base`
is the weakest operator to go on with; `plus` says whether bounds may be joined. -/
inductive Goal where
  | expression (structs : Bool)
  | operand (structs : Bool)
  | operators (left : Node) (structs : Bool) (base : Nat)
  | statementExpression
  /-- Statements in braces. -/
  | block
  /-- Statements in braces after attributes of the whole: the attributes, then the block. -/
  | attributedBlock
  | type (plus : Bool)
  /-- Generic arguments in angle brackets. -/
  | arguments
  | pattern
  | item

/-- A reader for every goal. -/
abbrev Grammar := Goal → Reader Node

/-- Value of digits of a base; none for any other character but the underscore. -/
def digitsValue? (base : Nat) (cs : List Char) : Option Nat :=
  (cs.filter (· != '_')).foldl (fun value c => do
    let n ← value
    let d ← Text.hexDigit? c
    if d < base then return n * base + d else none) (some 0)

/-- A whole number without a suffix that fits 32 bits: the index of a field. -/
def isFieldIndex (text : String) : Bool :=
  let value :=
    match text.toList with
    | '0' :: 'x' :: cs => digitsValue? 16 cs
    | '0' :: 'o' :: cs => digitsValue? 8 cs
    | '0' :: 'b' :: cs => digitsValue? 2 cs
    | c :: cs => if c.isDigit then digitsValue? 10 (c :: cs) else none
    | [] => none
  match value with
  | some n => n < 4294967296
  | none => false

/-- After the exponent mark of a decimal number: the number has a fraction or an exponent when a
sign or a digit comes before any other letter. -/
def exponentFollows (digit : Bool) : List Char → Bool
  | [] => digit
  | c :: cs =>
    if c == '+' || c == '-' then true
    else if c == '_' then exponentFollows digit cs
    else if c.isDigit then exponentFollows true cs
    else digit

/-- The decimal number has a fraction or an exponent. -/
def isFractionalFrom : List Char → Bool
  | [] => false
  | c :: cs =>
    if c.isDigit || c == '_' then isFractionalFrom cs
    else if c == '.' then true
    else if c == 'e' || c == 'E' then exponentFollows false cs
    else false

/-- The number literal has a fraction or an exponent. -/
def isFractional (text : String) : Bool :=
  match text.toList with
  | '0' :: 'x' :: _ => false
  | '0' :: 'o' :: _ => false
  | '0' :: 'b' :: _ => false
  | cs => isFractionalFrom cs

/-- What a literal denotes, by its first characters. -/
def literalKind (text : String) : LiteralKind :=
  match text.toList with
  | '"' :: _ => .string
  | 'r' :: _ => .string
  | 'b' :: '"' :: _ => .string
  | 'b' :: 'r' :: _ => .string
  | c :: _ => if c.isDigit then .number else .other
  | [] => .other

namespace Reader

/-- A literal, a truth value, or a negative number. -/
def literal : Reader Node := do
  require Ahead.literal
  let start ← here
  match ← next with
  | .literal text _ => return .mk (.literal (literalKind text)) (← since start) []
  | .mark _ _ _ =>
    let _ ← next
    return .mk (.literal .number) (← since start) []
  | _ => return .mk (.literal .other) (← since start) []

/-- A path of plain names, and whether it starts at the root. -/
def plainPath : Reader (List String × Bool) := do
  let rooted ← optionalSign "::"
  let names ← repeated [] fun names => do
    if ← aheadAny [Ahead.identifier, .word "super", .word "self", .word "Self", .word "crate"] then
      let name ← anyWord
      return (name :: names, ← optionalSign "::")
    else failure
  return (names.reverse, rooted)

/-- The arguments of a syntactic extension, if all its tokens are expressions with commas between
them. -/
def expansionArguments (g : Grammar) (tokens : List Token) : List Node :=
  match commaList (g (.expression true)) ⟨tokens, ⟨0, 0⟩, false⟩ with
  | some (nodes, ⟨[], _, _⟩) => nodes
  | _ => []

/-- The rest of the use of a syntactic extension, after its path. -/
def expansion (g : Grammar) (start : Position) (name : String) : Reader (Node × Delimiter) := do
  sign "!"
  let (delimiter, tokens) ← anyGroup
  return (.mk (.expansion name) (← since start) (expansionArguments g tokens), delimiter)

/-! ## Attributes -/

/-- What stands in the brackets of an attribute: its name if that is a single word, and the value
given to it. -/
def attributeBody (g : Grammar) : Reader (String × List Node) := do
  let name ←
    if ← optionalWord "unsafe" then pure "unsafe"
    else do
      match ← plainPath with
      | ([name], false) => pure name
      | _ => pure ""
  if ← aheadAny [Ahead.paren, Ahead.bracket, Ahead.brace] then
    let _ ← next
    return (name, [])
  if ← optionalSign "=" then
    let value ← attempt do
      let value ← literal
      require Ahead.none
      return value
    match value with
    | some value => return (name, [value])
    | none =>
      if (← ahead (.sign "#")) && (← ahead (.after 1 Ahead.bracket)) then failure
      return (name, [← g (.expression true)])
  return (name, [])

/-- An attribute in front of what it describes. -/
def outerAttribute (g : Grammar) : Reader Node := do
  let start ← here
  sign "#"
  let (name, children) ← inside .bracket (attributeBody g)
  return .mk (.attribute name) (← since start) children

/-- An attribute inside of what it describes. -/
def innerAttribute (g : Grammar) : Reader Node := do
  let start ← here
  sign "#"
  sign "!"
  let (name, children) ← inside .bracket (attributeBody g)
  return .mk (.attribute name) (← since start) children

def outerAttributes (g : Grammar) : Reader (List Node) :=
  until_ (fun tokens => !Ahead.sign "#" tokens) (outerAttribute g)

def innerAttributes (g : Grammar) : Reader (List Node) :=
  until_ (fun tokens => !(Ahead.sign "#" tokens && Ahead.after 1 (.sign "!") tokens))
    (innerAttribute g)

end Reader

end LintMend.Rust
