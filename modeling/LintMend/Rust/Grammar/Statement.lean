import LintMend.Rust.Grammar.Expression

/-!
# Statements and blocks
-/

namespace LintMend.Rust.Reader

/-- A static item, not a closure that starts with the same keyword. -/
def staticItemAhead : Ahead := fun tokens =>
  Ahead.word "static" tokens &&
    (Ahead.after 1 (.word "mut") tokens || Ahead.after 1 Ahead.identifier tokens)

/-- A constant item or function, not a block or closure that starts with the same keyword. -/
def constItemAhead : Ahead := fun tokens =>
  Ahead.word "const" tokens &&
    !(Ahead.after 1 Ahead.brace tokens || Ahead.after 1 (.word "static") tokens ||
      (Ahead.after 1 (.word "async") tokens &&
        !(["unsafe", "extern", "fn"].any fun k => Ahead.after 2 (.word k) tokens)) ||
      Ahead.after 1 (.word "move") tokens || Ahead.after 1 (.sign "|") tokens)

/-- A statement that begins like this is an item. -/
def itemAhead : Ahead := fun tokens =>
  Ahead.word "pub" tokens ||
    (Ahead.word "crate" tokens && !Ahead.after 1 (.sign "::") tokens) ||
    Ahead.word "extern" tokens || Ahead.word "use" tokens || staticItemAhead tokens ||
    constItemAhead tokens ||
    (Ahead.word "unsafe" tokens && !Ahead.after 1 Ahead.brace tokens) ||
    (Ahead.word "async" tokens &&
      ["unsafe", "extern", "fn"].any fun k => Ahead.after 1 (.word k) tokens) ||
    (["fn", "mod", "type", "struct", "enum", "trait", "impl", "macro"].any
      (Ahead.word · tokens)) ||
    (Ahead.word "union" tokens && Ahead.after 1 Ahead.identifier tokens) ||
    (Ahead.word "auto" tokens && Ahead.after 1 (.word "trait") tokens) ||
    (Ahead.word "default" tokens &&
      (Ahead.after 1 (.word "unsafe") tokens || Ahead.after 1 (.word "impl") tokens))

/-- How a statement that begins with a path and an exclamation mark goes on. -/
inductive ExpansionStatement where
  /-- It defines something: an item. -/
  | definition
  /-- Its arguments are in braces and end it. -/
  | braced (name : String)
  | neither

/-- Looks past a path in front of an exclamation mark; takes the path only if the arguments are in
braces. -/
def expansionStatement : Reader ExpansionStatement := fun c =>
  match plainPath c with
  | some ((names, _), c') =>
    let tokens := c'.rest
    if Ahead.sign "!" tokens then
      if Ahead.after 1 Ahead.identifier tokens || Ahead.after 1 (.word "try") tokens then
        some (.definition, c)
      else if Ahead.after 1 Ahead.brace tokens &&
          !(Ahead.after 2 pointAhead tokens || Ahead.after 2 (.sign "?") tokens) then
        some (.braced (String.intercalate "::" names), c')
      else some (.neither, c)
    else some (.neither, c)
  | none => some (.neither, c)

/-- A binding: pattern, type, value, and a block for when the pattern does not match. -/
def binding (g : Grammar) : Reader (List Node) := do
  word "let"
  let pattern ← g .pattern
  let type ← if ← optionalSign ":" then pure [← g (.type true)] else pure []
  let value ←
    if ← optionalSign "=" then
      let value ← g (.expression true)
      if !(← get).braced && (← optionalWord "else") then pure [value, ← g .block] else pure [value]
    else pure []
  sign ";"
  return pattern :: type ++ value

/-- One statement. -/
def statement (g : Grammar) : Reader Node := do
  let begin_ ← here
  let attributes ← outerAttributes g
  let start ← here
  match ← expansionStatement with
  | .braced name =>
    let (node, _) ← expansion g start name
    let _ ← optionalSign ";"
    return .mk .statement (← since begin_) (attributes ++ [node])
  | expanded =>
    if ← ahead (.word "let") then
      let children ← binding g
      return .mk .statement (← since begin_) (attributes ++ children)
    let defines :=
      match expanded with
      | .definition => true
      | _ => false
    if defines || (← ahead itemAhead) then
      let _ ← g .item
      return .mk .item (← since begin_) []
    let e := (← g .statementExpression).attributeLeftmost attributes
    let ended ← optionalSign ";"
    -- without a semicolon, only an expression that ends in a block may be followed by more
    if !ended && !e.endsStatement then require Ahead.none
    return .mk .statement (← since begin_) [e]

/-- Statements to the end of the tokens. A semicolon alone is a statement. -/
def statements (g : Grammar) : Reader (List Node) :=
  until_ Ahead.none do
    let start ← here
    if ← optionalSign ";" then return .mk .statement (← since start) []
    statement g

def blockRule (g : Grammar) : Reader Node := do
  let start ← here
  let children ← inside .brace (statements g)
  return .mk .block (← since start) children

def attributedBlockRule (g : Grammar) : Reader Node := do
  let start ← here
  let (attributes, children) ← inside .brace do
    let attributes ← innerAttributes g
    return (attributes, ← statements g)
  let extent ← since start
  return .mk .blockLike extent (attributes ++ [.mk .block extent children])

end LintMend.Rust.Reader
