import LintMend.Rust.Grammar.Basic

/-!
# Paths and their arguments

Paths with generic arguments, bounds, and quantified lifetimes.
-/

namespace LintMend.Rust

/-- A path: whether it starts at the root or from another type, its names, whether the last name
has arguments in angle brackets or parentheses, and the nodes inside it. -/
structure Path where
  rooted : Bool
  qualified : Bool
  names : List String
  plain : Bool
  lastPlain : Bool
  children : List Node

/-- The names of the path. -/
def Path.name (p : Path) : String := String.intercalate "::" p.names

namespace Reader

/-- Lifetimes that a plus sign joins, until the test holds. -/
def lifetimeBounds (stop : Ahead) : Reader Unit :=
  repeated () fun _ => do
    if ← ahead stop then return ((), false)
    lifetime
    return ((), ← optionalSign "+")

/-- Quantified lifetimes in front of a bound or a function type, with the nodes of their
attributes. -/
def quantified (g : Grammar) : Reader (List Node) := do
  word "for"
  sign "<"
  let params ← separated "," (.sign ">") do
    let attributes ← outerAttributes g
    lifetime
    if ← optionalSign ":" then
      lifetimeBounds fun tokens => Ahead.sign "," tokens || Ahead.sign ">" tokens
    return attributes
  sign ">"
  return params.flatten

def optionalQuantified (g : Grammar) : Reader (Option (List Node)) := do
  if ← ahead (.word "for") then some <$> quantified g else return none

/-- Captured parameters of an opaque type. -/
def captures : Reader Unit := do
  word "use"
  sign "<"
  let _ ← separated "," (.sign ">") do
    if ← ahead Ahead.lifetime then lifetime
    else if ← aheadAny [Ahead.identifier, .word "Self"] then
      let _ ← anyWord
    else failure
  sign ">"

/-- The type after an arrow. -/
def arrowType (g : Grammar) (plus : Bool) : Reader (List Node) := do
  if ← optionalSign "->" then return [← g (.type plus)] else return []

/-- Types in parentheses and the type after an arrow, as arguments of a path. -/
def parenthesizedArguments (g : Grammar) : Reader (List Node) := do
  let inputs ← inside .parenthesis (commaList (g (.type true)))
  return inputs ++ (← arrowType g false)

/-- A constant as a generic argument: a literal or a block. -/
def constantArgument (g : Grammar) : Reader Node := do
  if ← ahead Ahead.literal then literal
  else if ← ahead Ahead.brace then g .attributedBlock
  else failure

/-- Parenthesised arguments follow a path whose last name has none. -/
def callArgumentsAhead : Ahead := fun tokens =>
  Ahead.paren tokens || (Ahead.sign "::" tokens && Ahead.after 2 Ahead.paren tokens)

/-- Parenthesised arguments after a path, if they are there and its last name has none. -/
def withCallArguments (g : Grammar) (p : Path) : Reader Path := do
  if p.lastPlain && (← ahead callArgumentsAhead) then
    let _ ← optionalSign "::"
    let arguments ← parenthesizedArguments g
    return { p with plain := false, lastPlain := false, children := p.children ++ arguments }
  return p

/-- One name of a path and its arguments in angle brackets. -/
def pathSegment (g : Grammar) (expressionStyle : Bool) : Reader (String × Option (List Node)) := do
  if ← aheadAny [.word "super", .word "self", .word "crate", .word "try"] then
    return (← anyWord, none)
  let name ← if ← ahead (.word "Self") then anyWord else identifier
  let opens ← ahead fun tokens =>
    (!expressionStyle && Ahead.sign "<" tokens && !Ahead.sign "<=" tokens) ||
      (Ahead.sign "::" tokens && Ahead.after 2 (.sign "<") tokens)
  if opens then
    let _ ← optionalSign "::"
    return (name, some (← g .arguments).children)
  return (name, none)

/-- The path that consists of segments. -/
def pathOf (rooted qualified : Bool) (segments : List (String × Option (List Node))) : Path where
  rooted := rooted
  qualified := qualified
  names := segments.map (·.1)
  plain := segments.all (·.2.isNone)
  lastPlain := (segments.getLast?.map (·.2.isNone)).getD true
  children := segments.flatMap fun s => s.2.getD []

/-- A segment and those after it, as long as the test holds. -/
def pathSegments (g : Grammar) (expressionStyle : Bool) (goesOn : Ahead) :
    Reader (List (String × Option (List Node))) := do
  let first ← pathSegment g expressionStyle
  let segments ← repeated [first] fun segments => do
    if ← ahead goesOn then
      sign "::"
      let segment ← pathSegment g expressionStyle
      return (segment :: segments, true)
    return (segments, false)
  return segments.reverse

/-- A path that does not start from another type. -/
def simplePath (g : Grammar) (expressionStyle : Bool) : Reader Path := do
  let rooted ← optionalSign "::"
  let segments ← pathSegments g expressionStyle fun tokens =>
    Ahead.sign "::" tokens && !Ahead.after 2 Ahead.paren tokens
  return pathOf rooted false segments

/-- A path, which may start from a type in angle brackets. -/
def path (g : Grammar) (expressionStyle : Bool) : Reader Path := do
  if ← optionalSign "<" then
    let type ← g (.type true)
    let before ← if ← optionalWord "as" then some <$> simplePath g false else pure none
    sign ">"
    sign "::"
    let after := pathOf true true (← pathSegments g expressionStyle (.sign "::"))
    match before with
    | some p =>
      return { after with
        rooted := p.rooted
        names := p.names ++ after.names
        plain := p.plain && after.plain
        children := type :: p.children ++ after.children }
    | none => return { after with children := type :: after.children }
  else simplePath g expressionStyle

/-- A trait as a bound, with the constness that `const` allows. -/
def traitBound (g : Grammar) (const : Bool) : Reader (List Node) := do
  let before ← optionalQuantified g
  if ← ahead Ahead.bracket then
    inside .bracket (word "const")
    if !const then failure
  else if ← ahead (.word "const") then
    word "const"
    if !const then failure
  else if (← ahead (.sign "~")) && (← ahead (.after 1 (.word "const"))) then
    sign "~"
    word "const"
    if !const then failure
  let maybe ← optionalSign "?"
  let after ← if before.isNone && maybe then optionalQuantified g else pure none
  let p ← withCallArguments g (← simplePath g false)
  return before.getD [] ++ after.getD [] ++ p.children

/-- A bound: a lifetime, captured parameters where they are allowed, or a trait. Tells whether it
is a trait. -/
def bound (g : Grammar) (capture const : Bool) : Reader (Bool × List Node) := do
  if ← ahead Ahead.lifetime then
    lifetime
    return (false, [])
  if ← ahead (.word "use") then
    captures
    if capture then return (false, []) else failure
  if ← ahead Ahead.paren then return (true, ← inside .parenthesis (traitBound g const))
  return (true, ← traitBound g const)

/-- Bounds that plus signs join, until the test holds. -/
def boundsUntil (g : Grammar) (const : Bool) (stop : Ahead) : Reader (List Node) := do
  let found ← repeated [] fun found => do
    if ← ahead stop then return (found, false)
    let (_, children) ← bound g false const
    return (children :: found, ← optionalSign "+")
  return found.reverse.flatten

/-- A further bound may follow a plus sign. -/
def boundAhead (const : Bool) : Ahead := fun tokens =>
  Ahead.anyWord tokens || Ahead.sign "::" tokens || Ahead.sign "?" tokens ||
    Ahead.lifetime tokens || Ahead.paren tokens || (const && Ahead.bracket tokens)

/-- One or more bounds, joined if `plus` allows. Tells whether one of them is a trait. -/
def boundList (g : Grammar) (plus capture const : Bool) : Reader (Bool × List Node) :=
  repeated (false, []) fun (isTrait, found) => do
    let (isOne, children) ← bound g capture const
    let state := (isTrait || isOne, found ++ children)
    if plus && (← optionalSign "+") then return (state, ← ahead (boundAhead const))
    return (state, false)

/-- One generic argument. -/
def genericArgument (g : Grammar) : Reader (List Node) := do
  if (← ahead Ahead.lifetime) && !(← ahead (.after 1 (.sign "+"))) then
    lifetime
    return []
  if ← aheadAny [Ahead.literal, Ahead.brace] then return [← constantArgument g]
  let type ← g (.type true)
  match type.form with
  | .typePath _ false true =>
    if ← optionalSign "=" then
      if ← aheadAny [Ahead.literal, Ahead.brace] then return [type, ← constantArgument g]
      return [type, ← g (.type true)]
    if ← optionalSign ":" then
      let bounds ← boundsUntil g true fun tokens => Ahead.sign "," tokens || Ahead.sign ">" tokens
      return type :: bounds
    return [type]
  | _ => return [type]

/-- Generic arguments in angle brackets. -/
def argumentsRule (g : Grammar) : Reader Node := do
  let start ← here
  sign "<"
  let arguments ← separated "," (.sign ">") (genericArgument g)
  sign ">"
  return .mk .other (← since start) arguments.flatten

end Reader

end LintMend.Rust
