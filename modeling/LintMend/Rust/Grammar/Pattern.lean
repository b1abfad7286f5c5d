import LintMend.Rust.Grammar.Path

/-!
# Patterns
-/

namespace LintMend.Rust.Reader

/-- Patterns with bars between them; a bar may stand in front. -/
def alternatives (g : Grammar) : Reader Node := do
  let start ← here
  let leading ← optionalSign "|"
  let first ← g .pattern
  let bar : Ahead := fun tokens =>
    Ahead.sign "|" tokens && !Ahead.sign "||" tokens && !Ahead.sign "|=" tokens
  if leading || (← ahead bar) then
    let cases ← repeated [first] fun cases => do
      if ← ahead bar then
        sign "|"
        return ((← g .pattern) :: cases, true)
      return (cases, false)
    return .mk .other (← since start) cases.reverse
  return first

/-- The sign of a range in a pattern. Tells whether the upper bound is needed. -/
def patternLimits (old : Bool) : Reader Bool := do
  if ← ahead (.sign "..=") then
    sign "..="
    return true
  if ← ahead (.sign "...") then
    if !old then failure
    sign "..."
    return true
  sign ".."
  return false

/-- A bound of a range, or nothing where the pattern ends. -/
def rangeBound (g : Grammar) : Reader (Option Node) := do
  let ends ← ahead fun tokens =>
    tokens.isEmpty || Ahead.sign "|" tokens || Ahead.sign "=" tokens ||
      (Ahead.sign ":" tokens && !Ahead.sign "::" tokens) || Ahead.sign "," tokens ||
      Ahead.sign ";" tokens || Ahead.word "if" tokens
  if ends then return none
  let start ← here
  if ← ahead Ahead.literal then return some (← literal)
  if ← aheadAny [Ahead.identifier, .sign "::", .sign "<", .word "self", .word "Self",
      .word "super", .word "crate"] then
    let p ← path g true
    return some (.mk .other (← since start) p.children)
  if ← optionalWord "const" then
    let block ← g .attributedBlock
    return some (.mk .other (← since start) block.children)
  failure

/-- The rest of a range pattern, after its lower bound. -/
def rangePattern (g : Grammar) (start : Position) (lower : List Node) : Reader Node := do
  let closed ← patternLimits true
  match ← rangeBound g with
  | some upper => return .mk .other (← since start) (lower ++ [upper])
  | none => if closed then failure else return .mk .openRange (← since start) lower

/-- The name or index of a field. Tells whether it is a name. -/
def fieldName : Reader Bool := do
  if ← ahead Ahead.identifier then
    let _ ← next
    return true
  match ← next with
  | .literal text _ => if isFieldIndex text then return false else failure
  | _ => failure

/-- One field of a struct pattern. -/
def fieldPattern (g : Grammar) : Reader (List Node) := do
  let boxed ← optionalWord "box"
  let byRef ← optionalWord "ref"
  let mutable_ ← optionalWord "mut"
  let bare := !boxed && !byRef && !mutable_
  let named ← if bare then fieldName else (fun _ => true) <$> identifier
  if (bare && (← ahead (.sign ":"))) || !named then
    sign ":"
    return [← alternatives g]
  return []

/-- The fields of a struct pattern. -/
def fieldPatterns (g : Grammar) : Reader (List Node) := do
  let found ← repeated [] fun (found : List (List Node)) => do
    if ← ahead Ahead.none then return (found, false)
    let attributes ← outerAttributes g
    if ← optionalSign ".." then return (attributes :: found, false)
    let found := (attributes ++ (← fieldPattern g)) :: found
    if ← ahead Ahead.none then return (found, false)
    sign ","
    return (found, true)
  return found.reverse.flatten

/-- A pattern that begins with a path. -/
def pathPattern (g : Grammar) : Reader Node := do
  let start ← here
  let p ← path g true
  if !p.qualified && p.plain && (← ahead (.sign "!")) && !(← ahead (.sign "!=")) then
    let (node, _) ← expansion g start p.name
    return .mk .other (← since start) [node]
  if ← ahead Ahead.brace then
    let fields ← inside .brace (fieldPatterns g)
    return .mk .other (← since start) (p.children ++ fields)
  if ← ahead Ahead.paren then
    let elements ← inside .parenthesis (commaList (alternatives g))
    return .mk .other (← since start) (p.children ++ elements)
  if ← ahead (.sign "..") then
    let lower := Node.mk .other (← since start) p.children
    return ← rangePattern g start [lower]
  return .mk .other (← since start) p.children

/-- A pattern without bars at its top. -/
def patternRule (g : Grammar) : Reader Node := do
  let start ← here
  let other (children : List Node) : Reader Node := return .mk .other (← since start) children
  let isPath ← ahead fun tokens =>
    (Ahead.identifier tokens &&
      ([Ahead.sign "::", .sign "!", Ahead.brace, Ahead.paren, .sign ".."].any
        fun test => Ahead.after 1 test tokens)) ||
    (Ahead.word "self" tokens && Ahead.after 1 (.sign "::") tokens) ||
    [Ahead.sign "::", .sign "<", .word "Self", .word "super", .word "crate"].any (· tokens)
  if isPath then pathPattern g
  else if ← optionalWord "_" then other []
  else if ← optionalWord "box" then
    let _ ← g .pattern
    other []
  else if ← aheadAny [.sign "-", Ahead.literal, .word "const"] then
    match ← rangeBound g with
    | none => failure
    | some lower =>
      if ← ahead (.sign "..") then rangePattern g start [lower] else return lower
  else if ← aheadAny [.word "ref", .word "mut", .word "self", Ahead.identifier] then
    let _ ← optionalWord "ref"
    let _ ← optionalWord "mut"
    if !(← optionalWord "self") then let _ ← identifier
    if ← optionalSign "@" then other [← g .pattern] else other []
  else if ← optionalSign "&" then
    let _ ← optionalWord "mut"
    other [← g .pattern]
  else if ← ahead Ahead.paren then
    other (← inside .parenthesis (commaList (alternatives g)))
  else if ← ahead Ahead.bracket then
    let elements ← inside .bracket (commaList (alternatives g))
    if elements.any (·.form == .openRange) then failure
    other elements
  else if (← ahead (.sign "..")) && !(← ahead (.sign "...")) then
    let closed ← patternLimits false
    match ← rangeBound g with
    | some upper => return .mk .openRange (← since start) [upper]
    | none => if closed then failure else other []
  else failure

end LintMend.Rust.Reader
