import LintMend.Rust.Grammar.Pattern

/-!
# Expressions

An expression is a chain of operands and operators. `operatorsRule` goes on with the operators of at
least a given strength after a left operand, and `rightOperand` gathers all that binds stronger than
the operator before it.
-/

namespace LintMend.Rust

/-- Strengths of operators, from the weakest. -/
def Strength.assign : Nat := 1
def Strength.range : Nat := 2
def Strength.compare : Nat := 6
def Strength.cast : Nat := 13

/-- The operators of two operands and their strengths, longer signs before their beginnings. -/
def binaryOperators : List (String × Nat) :=
  [("+=", 1), ("-=", 1), ("*=", 1), ("/=", 1), ("%=", 1), ("^=", 1), ("&=", 1), ("|=", 1),
   ("<<=", 1), (">>=", 1), ("&&", 4), ("||", 3), ("<<", 10), (">>", 10), ("==", 6), ("<=", 6),
   ("!=", 6), (">=", 6), ("+", 11), ("-", 11), ("*", 12), ("/", 12), ("%", 12), ("^", 8), ("&", 9),
   ("|", 7), ("<", 6), (">", 6)]

/-- The operator at the front and its strength. -/
def binaryOperator? (tokens : List Token) : Option (String × Nat) :=
  binaryOperators.find? fun (text, _) => Ahead.sign text tokens

/-- A single equals sign. -/
def assignAhead : Ahead := fun tokens => Ahead.sign "=" tokens && !Ahead.sign "=>" tokens

/-- Strength of whatever operator is at the front; zero if there is none. -/
def strengthAhead (tokens : List Token) : Nat :=
  match binaryOperator? tokens with
  | some (_, strength) => strength
  | none =>
    if assignAhead tokens then Strength.assign
    else if Ahead.sign ".." tokens then Strength.range
    else if Ahead.word "as" tokens then Strength.cast
    else 0

/-- Strength of the operator of a node. -/
def Node.operatorStrength (n : Node) : Nat :=
  match n.form with
  | .binary op => ((binaryOperators.find? (·.1 == op)).map (·.2)).getD 0
  | _ => 0

/-- An expression may begin here, after `return` and its like. -/
def expressionAhead : Ahead := fun tokens =>
  (Ahead.anyWord tokens && !Ahead.word "as" tokens) ||
    [Ahead.paren, Ahead.bracket, Ahead.brace, Ahead.literal, .sign "..", .sign "::",
      Ahead.lifetime, .sign "#"].any (· tokens) ||
    (Ahead.sign "!" tokens && !Ahead.sign "!=" tokens) ||
    (Ahead.sign "-" tokens && !Ahead.sign "-=" tokens && !Ahead.sign "->" tokens) ||
    (Ahead.sign "*" tokens && !Ahead.sign "*=" tokens) ||
    (Ahead.sign "|" tokens && !Ahead.sign "|=" tokens) ||
    (Ahead.sign "&" tokens && !Ahead.sign "&=" tokens) ||
    (Ahead.sign "<" tokens && !Ahead.sign "<=" tokens && !Ahead.sign "<<=" tokens)

/-- A range without an upper bound ends here. -/
def rangeEndAhead (structs : Bool) : Ahead := fun tokens =>
  tokens.isEmpty ||
    ([",", ";", "?", "=>", "=", "+", "/", "%", "^", ">", "<=", "!=", "-=", "*=", "&=", "|=",
      "<<="].any (Ahead.sign · tokens)) ||
    (Ahead.sign "." tokens && !Ahead.sign ".." tokens) ||
    (!structs && Ahead.brace tokens) || Ahead.word "as" tokens

/-- Quantified lifetimes of a closure, not a loop. -/
def quantifiedAhead : Ahead := fun tokens =>
  Ahead.word "for" tokens && Ahead.after 1 (.sign "<") tokens &&
    (Ahead.after 2 Ahead.lifetime tokens || Ahead.after 2 (.sign ">") tokens)

/-- A point that selects a field or method, not a range. -/
def pointAhead : Ahead := fun tokens => Ahead.sign "." tokens && !Ahead.sign ".." tokens

namespace Reader

/-! ## Operators -/

/-- The right operand of an operator: an operand with all operators that bind stronger. Assignment
binds to the right. -/
def rightOperand (g : Grammar) (structs : Bool) (strength : Nat) : Reader Node := do
  let first ← g (.operand structs)
  repeated first fun right => do
    let next := strengthAhead (← get).rest
    if strength < next || (next == strength && strength == Strength.assign) then
      let before := (← get).rest.length
      let right ← g (.operators right structs next)
      return (right, (← get).rest.length != before)
    return (right, false)

/-- The sign of a range and its upper bound. The bound is needed when the range includes it. -/
def rangeRest (g : Grammar) (structs : Bool) : Reader (List Node) := do
  if ← ahead (.sign "..=") then
    sign "..="
    return [← rightOperand g structs Strength.range]
  if ← ahead (.sign "...") then failure
  sign ".."
  if ← ahead (rangeEndAhead structs) then return []
  return [← rightOperand g structs Strength.range]

/-- A cast is not followed by a point, a question mark or brackets. -/
def castEnds : Reader Unit := do
  if ← aheadAny [pointAhead, .sign "?", Ahead.bracket, Ahead.paren] then failure

/-- One more operator of at least the strength `base` after the left operand, if there is one. -/
def operatorStep (g : Grammar) (structs : Bool) (base : Nat) (left : Node) :
    Reader (Node × Bool) := do
  let start := left.extent.start
  if left.form == .range then return (left, false)
  match binaryOperator? (← get).rest with
  | some (text, strength) =>
    if strength < base then return (left, false)
    if strength == Strength.compare && left.operatorStrength == Strength.compare then failure
    sign text
    let right ← rightOperand g structs strength
    return (.mk (.binary text) (← since start) [left, right], true)
  | none =>
    if base ≤ Strength.assign && (← ahead assignAhead) then
      sign "="
      let right ← rightOperand g structs Strength.assign
      return (.mk .assign (← since start) [left, right], true)
    if base ≤ Strength.range && (← ahead (.sign "..")) then
      let upper ← rangeRest g structs
      return (.mk .range (← since start) (left :: upper), true)
    if base ≤ Strength.cast && (← ahead (.word "as")) then
      word "as"
      let type ← g (.type false)
      castEnds
      return (.mk .cast (← since start) [left, type], true)
    return (left, false)

/-- All operators of at least the strength `base` after the left operand. -/
def operatorsRule (g : Grammar) (left : Node) (structs : Bool) (base : Nat) : Reader Node :=
  repeated left (operatorStep g structs base)

def expressionRule (g : Grammar) (structs : Bool) : Reader Node := do
  let left ← g (.operand structs)
  g (.operators left structs 0)

/-! ## What follows an operand -/

/-- The parts of a fractional number that were meant as two field indices. Tells whether a point is
left over. -/
def splitIndices? (text : String) : Option Bool :=
  let cs := text.toList
  let trailing := cs.getLast? == some '.'
  let parts := (String.ofList (if trailing then cs.dropLast else cs)).splitOn "."
  if parts.all fun part => isFieldIndex part && !isFractional part then some trailing else none

/-- Expressions in parentheses, as arguments of a call. -/
def callArguments (g : Grammar) : Reader (List Node) :=
  inside .parenthesis (commaList (g (.expression true)))

/-- A field, a method call, or the wait for a result, after the point. -/
def afterPoint (g : Grammar) (e : Node) : Reader Node := do
  let start := e.extent.start
  let field : Reader Node := return .mk .other (← since start) [e]
  let more ←
    match (← get).rest with
    | .literal text _ :: _ =>
      if literalKind text == .number && isFractional text then
        match splitIndices? text with
        | some trailing =>
          let _ ← next
          pure trailing
        | none => failure
      else pure true
    | _ => pure true
  if !more then return ← field
  if ← optionalWord "await" then return ← field
  let method ← here
  if ← ahead Ahead.identifier then
    let name ← identifier
    let generic ← if ← optionalSign "::" then some <$> g .arguments else pure none
    if generic.isSome || (← ahead Ahead.paren) then
      let arguments ← callArguments g
      let types := (generic.map Node.children).getD []
      return .mk (.methodCall name method) (← since start) (e :: types ++ arguments)
    field
  else
    let _ ← fieldName
    field

/-- One more call, selection, index or question mark after an expression, if there is one. -/
def trailerStep (g : Grammar) (e : Node) : Reader (Node × Bool) := do
  let start := e.extent.start
  if ← ahead Ahead.paren then
    let arguments ← callArguments g
    let name :=
      match e.form with
      | .path name => some name
      | _ => none
    return (.mk (.call name) (← since start) (e :: arguments), true)
  if (← ahead pointAhead) && e.form != .range then
    sign "."
    return (← afterPoint g e, true)
  if ← ahead Ahead.bracket then
    let index ← inside .bracket (g (.expression true))
    return (.mk .other (← since start) [e, index], true)
  if (← ahead (.sign "?")) && e.form != .range then
    sign "?"
    return (.mk .other (← since start) [e], true)
  return (e, false)

/-- Calls, selections, indices and question marks after an expression. -/
def trailers (g : Grammar) (e : Node) : Reader Node := repeated e (trailerStep g)

/-! ## Control flow -/

/-- A block that ends an expression, with the attributes inside it in front of `children`. -/
def withBlock (g : Grammar) (form : Form) (start : Position) (children : List Node) :
    Reader Node := do
  let body ← g .attributedBlock
  let attributes := body.children.dropLast
  let block := body.children.getLast?.toList
  return .mk form (← since start) (attributes ++ children ++ block)

/-- A conditional with all its branches. -/
def conditional (g : Grammar) : Reader Node := do
  let start ← here
  let found ← repeated [] fun (found : List Node) => do
    word "if"
    let condition ← g (.expression false)
    let block ← g .block
    let found := found ++ [condition, block]
    if ← optionalWord "else" then
      if ← ahead (.word "if") then return (found, true)
      return (found ++ [← g .block], false)
    return (found, false)
  return .mk .blockLike (← since start) found

/-- One arm of a match. -/
def matchArm (g : Grammar) : Reader (List Node) := do
  let attributes ← outerAttributes g
  let pattern ← alternatives g
  let guard ← if ← optionalWord "if" then pure [← g (.expression true)] else pure []
  sign "=>"
  let body ← g .statementExpression
  if body.form != .blockLike && !(← ahead Ahead.none) then sign ","
  else let _ ← optionalSign ","
  return attributes ++ [pattern] ++ guard ++ [body]

/-- A match with its arms. -/
def matchExpression (g : Grammar) : Reader Node := do
  let start ← here
  word "match"
  let subject ← g (.expression false)
  let (attributes, arms) ← inside .brace do
    let attributes ← innerAttributes g
    return (attributes, ← until_ Ahead.none (matchArm g))
  return .mk .blockLike (← since start) (attributes ++ [subject] ++ arms.flatten)

/-- A loop over the elements of something. -/
def forLoop (g : Grammar) : Reader Node := do
  let start ← here
  word "for"
  let pattern ← alternatives g
  word "in"
  let subject ← g (.expression false)
  withBlock g .blockLike start [pattern, subject]

/-- A loop with a condition. -/
def whileLoop (g : Grammar) : Reader Node := do
  let start ← here
  word "while"
  let condition ← g (.expression false)
  withBlock g .blockLike start [condition]

/-- A keyword and a block. -/
def keywordBlock (g : Grammar) (keyword : String) : Reader Node := do
  let start ← here
  word keyword
  withBlock g .blockLike start []

/-- A block as an expression. -/
def blockExpression (g : Grammar) : Reader Node := do
  withBlock g .blockLike (← here) []

/-- A fallible block. -/
def tryBlock (g : Grammar) : Reader Node := do
  let start ← here
  word "try"
  let block ← g .block
  return .mk .blockLike (← since start) [block]

/-- A loop or a block with a label in front. -/
def labelled (g : Grammar) : Reader Node := do
  let start ← here
  lifetime
  sign ":"
  let e ←
    if ← ahead (.word "while") then whileLoop g
    else if ← ahead (.word "for") then forLoop g
    else if ← ahead (.word "loop") then keywordBlock g "loop"
    else if ← ahead Ahead.brace then blockExpression g
    else failure
  return e.startingAt start

/-! ## Operands -/

/-- One parameter of a closure. -/
def closureParameter (g : Grammar) : Reader (List Node) := do
  let attributes ← outerAttributes g
  let pattern ← g .pattern
  if ← optionalSign ":" then return attributes ++ [pattern, ← g (.type true)]
  return attributes ++ [pattern]

def closure (g : Grammar) (structs : Bool) : Reader Node := do
  let start ← here
  let quantifiers ← optionalQuantified g
  let _ ← optionalWord "const"
  let _ ← optionalWord "static"
  let _ ← optionalWord "async"
  let _ ← optionalWord "move"
  sign "|"
  let parameters ← separated "," (.sign "|") (closureParameter g)
  sign "|"
  let before := quantifiers.getD [] ++ parameters.flatten
  if ← optionalSign "->" then
    let type ← g (.type true)
    let block ← g .block
    return .mk .other (← since start) (before ++ [type, block])
  let body ← g (.expression structs)
  return .mk .other (← since start) (before ++ [body])

/-- One field of a struct expression. -/
def fieldValue (g : Grammar) : Reader (List Node) := do
  let attributes ← outerAttributes g
  let named ← fieldName
  if (← ahead (.sign ":")) || !named then
    sign ":"
    return attributes ++ [← g (.expression true)]
  return attributes

/-- The fields of a struct expression and the value that fills in the rest. -/
def structFields (g : Grammar) : Reader (List Node) := do
  let found ← repeated [] fun (found : List (List Node)) => do
    if ← ahead Ahead.none then return (found, false)
    if ← optionalSign ".." then
      if ← ahead Ahead.none then return (found, false)
      return ([← g (.expression true)] :: found, false)
    let found := (← fieldValue g) :: found
    if ← ahead Ahead.none then return (found, false)
    sign ","
    return (found, true)
  return found.reverse.flatten

/-- An expression that begins with a path. -/
def pathExpression (g : Grammar) (structs : Bool) : Reader Node := do
  let start ← here
  let p ← path g true
  if !p.qualified && p.plain && (← ahead (.sign "!")) && !(← ahead (.sign "!=")) then
    let (node, delimiter) ← expansion g start p.name
    return .mk (.expansionValue (delimiter == .brace)) (← since start) [node]
  if structs && (← ahead Ahead.brace) then
    let fields ← inside .brace (structFields g)
    return .mk .other (← since start) (p.children ++ fields)
  return .mk (.path p.name) (← since start) p.children

/-- An array, by its elements or by one element and a length. -/
def arrayElements (g : Grammar) : Reader (List Node) := do
  if ← ahead Ahead.none then return []
  let first ← g (.expression true)
  if ← optionalSign ";" then return [first, ← g (.expression true)]
  if ← ahead Ahead.none then return [first]
  sign ","
  return first :: (← commaList (g (.expression true)))

/-- `break`, with a label and a value if they are there. -/
def breakExpression (g : Grammar) (structs : Bool) : Reader Node := do
  let start ← here
  word "break"
  if (← optionalLifetime) && (← ahead (.sign ":")) then failure
  let hasValue ← ahead fun tokens => expressionAhead tokens && (structs || !Ahead.brace tokens)
  if hasValue then
    let value ← g (.expression structs)
    return .mk .other (← since start) [value]
  return .mk .other (← since start) []

/-- A keyword with a value behind it if there is one. -/
def keywordValue (g : Grammar) (keyword : String) (structs : Bool) : Reader Node := do
  let start ← here
  word keyword
  if ← ahead expressionAhead then
    let value ← g (.expression structs)
    return .mk .other (← since start) [value]
  return .mk .other (← since start) []

/-- A closure begins here. -/
def closureAhead : Ahead := fun tokens =>
  Ahead.sign "|" tokens || Ahead.word "move" tokens || quantifiedAhead tokens ||
    (Ahead.word "const" tokens && !Ahead.after 1 Ahead.brace tokens) ||
    Ahead.word "static" tokens ||
    (Ahead.word "async" tokens &&
      (Ahead.after 1 (.sign "|") tokens || Ahead.after 1 (.word "move") tokens))

/-- An asynchronous block begins here. -/
def asyncBlockAhead : Ahead := fun tokens =>
  Ahead.word "async" tokens &&
    (Ahead.after 1 Ahead.brace tokens ||
      (Ahead.after 1 (.word "move") tokens && Ahead.after 2 Ahead.brace tokens))

/-- A path begins here. -/
def pathAhead : Ahead := fun tokens =>
  Ahead.identifier tokens ||
    [Ahead.sign "::", .sign "<", .word "self", .word "Self", .word "super", .word "crate"].any
      (· tokens) ||
    (Ahead.word "try" tokens &&
      (Ahead.after 1 (.sign "!") tokens || Ahead.after 1 (.sign "::") tokens))

/-- An operand without what may follow it. -/
def atom (g : Grammar) (structs : Bool) : Reader Node := do
  let start ← here
  let other (children : List Node) : Reader Node := return .mk .other (← since start) children
  if ← ahead Ahead.literal then literal
  else if ← ahead asyncBlockAhead then
    word "async"
    let _ ← optionalWord "move"
    other [← g .block]
  else if (← ahead (.word "try")) && (← ahead (.after 1 Ahead.brace)) then tryBlock g
  else if ← ahead closureAhead then closure g structs
  else if (← ahead (.word "builtin")) && (← ahead (.after 1 (.sign "#"))) then
    word "builtin"
    sign "#"
    let _ ← identifier
    require Ahead.paren
    let _ ← next
    other []
  else if ← ahead pathAhead then pathExpression g structs
  else if ← ahead Ahead.paren then
    other (← inside .parenthesis (commaList (g (.expression true))))
  else if ← ahead (.word "break") then breakExpression g structs
  else if ← optionalWord "continue" then
    let _ ← optionalLifetime
    other []
  else if ← ahead (.word "return") then keywordValue g "return" structs
  else if ← optionalWord "become" then
    let _ ← g (.expression true)
    other []
  else if ← ahead Ahead.bracket then other (← inside .bracket (arrayElements g))
  else if ← optionalWord "let" then
    let pattern ← alternatives g
    sign "="
    let left ← g (.operand structs)
    let value ← g (.operators left structs Strength.compare)
    other [pattern, value]
  else if ← ahead (.word "if") then conditional g
  else if ← ahead (.word "while") then whileLoop g
  else if ← ahead (.word "for") then forLoop g
  else if ← ahead (.word "loop") then keywordBlock g "loop"
  else if ← ahead (.word "match") then matchExpression g
  else if ← ahead (.word "yield") then keywordValue g "yield" true
  else if ← ahead (.word "unsafe") then keywordBlock g "unsafe"
  else if ← ahead (.word "const") then keywordBlock g "const"
  else if ← ahead Ahead.brace then blockExpression g
  else if ← ahead (.sign "..") then
    let upper ← rangeRest g structs
    return .mk .range (← since start) upper
  else if ← optionalWord "_" then other []
  else if ← ahead Ahead.lifetime then labelled g
  else failure

/-- An operand: signs in front, an atom, and what follows it. -/
def operandRule (g : Grammar) (structs : Bool) : Reader Node := do
  let attributes ← outerAttributes g
  let start ← here
  if ← optionalSign "&" then
    let raw ← ahead fun tokens =>
      Ahead.word "raw" tokens &&
        (Ahead.after 1 (.word "mut") tokens || Ahead.after 1 (.word "const") tokens)
    if raw then word "raw"
    let isMut ← optionalWord "mut"
    if raw && !isMut then word "const"
    let e ← g (.operand structs)
    return (Node.mk .other (← since start) [e]).withAttributes attributes
  if ← aheadAny [.sign "*", .sign "!", .sign "-"] then
    let _ ← next
    let e ← g (.operand structs)
    return (Node.mk .other (← since start) [e]).withAttributes attributes
  let e ← trailers g (← atom g structs)
  return e.withAttributes attributes

/-! ## Statements -/

/-- A loop over elements, not a closure with quantified lifetimes. -/
def forLoopAhead : Ahead := fun tokens => Ahead.word "for" tokens && !quantifiedAhead tokens

/-- An expression at the beginning of a statement or of the body of an arm. An expression that ends
in a block ends there unless a point or a question mark follows. -/
def statementExpressionRule (g : Grammar) : Reader Node := do
  let attributes ← outerAttributes g
  let block? : Option (Reader Node) :=
    let tokens := (← get).rest
    if Ahead.word "if" tokens then some (conditional g)
    else if Ahead.word "while" tokens then some (whileLoop g)
    else if forLoopAhead tokens then some (forLoop g)
    else if Ahead.word "loop" tokens then some (keywordBlock g "loop")
    else if Ahead.word "match" tokens then some (matchExpression g)
    else if Ahead.word "try" tokens && Ahead.after 1 Ahead.brace tokens then some (tryBlock g)
    else if Ahead.word "unsafe" tokens then some (keywordBlock g "unsafe")
    else if Ahead.word "const" tokens && Ahead.after 1 Ahead.brace tokens then
      some (keywordBlock g "const")
    else if Ahead.brace tokens then some (blockExpression g)
    else if Ahead.lifetime tokens then some (labelled g)
    else none
  match block? with
  | none =>
    let left ← g (.operand true)
    g (.operators (left.withAttributes attributes) true 0)
  | some read =>
    let e ← read
    if ← aheadAny [pointAhead, .sign "?"] then
      let e ← trailers g e
      g (.operators (e.withAttributes attributes) true 0)
    else return e.withAttributes attributes

end Reader

end LintMend.Rust
