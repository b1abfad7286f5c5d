import LintMend.Rust.Grammar.Path

/-!
# Types
-/

namespace LintMend.Rust.Reader

/-- The binary interface of a function: `extern` and its name. -/
def optionalInterface : Reader Unit := do
  if ← optionalWord "extern" then
    let named ← ahead fun tokens =>
      match tokens with
      | .literal t _ :: _ => literalKind t == .string
      | _ => false
    if named then
      let _ ← next

/-- One parameter of a function type. -/
def functionTypeParameter (g : Grammar) (first : Bool) : Reader (List Node) := do
  let attributes ← outerAttributes g
  let mutSelf ← ahead fun tokens =>
    first && Ahead.word "mut" tokens && Ahead.after 1 (.word "self") tokens
  if mutSelf then word "mut"
  let named ← ahead fun tokens =>
    (Ahead.identifier tokens || Ahead.word "_" tokens || (first && Ahead.word "self" tokens)) &&
      Ahead.after 1 (.sign ":") tokens && !Ahead.after 1 (.sign "::") tokens
  if named then
    let _ ← anyWord
    sign ":"
  if mutSelf && !named then
    word "self"
    return attributes
  return attributes ++ [← g (.type true)]

/-- The parameters of a function type. The last may stand for any number. -/
def functionTypeParameters (g : Grammar) : Reader (List Node) := do
  let (found, _) ← repeated ([], true) fun ((found, first) : List (List Node) × Bool) => do
    if ← ahead Ahead.none then return ((found, first), false)
    let attributes ← outerAttributes g
    let variadic ← ahead fun tokens =>
      Ahead.sign "..." tokens ||
        ((Ahead.identifier tokens || Ahead.word "_" tokens) && Ahead.after 1 (.sign ":") tokens &&
          Ahead.after 2 (.sign "...") tokens)
    if variadic then
      if ← ahead Ahead.anyWord then
        let _ ← anyWord
        sign ":"
      sign "..."
      let _ ← optionalSign ","
      return ((attributes :: found, first), false)
    let parameter ← functionTypeParameter g first
    let found := (attributes ++ parameter) :: found
    if ← ahead Ahead.none then return ((found, false), false)
    sign ","
    return ((found, false), true)
  return found.reverse.flatten

/-- A function type, after its quantified lifetimes. -/
def functionType (g : Grammar) : Reader (List Node) := do
  let quantifiers ← optionalQuantified g
  let _ ← optionalWord "unsafe"
  optionalInterface
  word "fn"
  let parameters ← inside .parenthesis (functionTypeParameters g)
  return quantifiers.getD [] ++ parameters ++ (← arrowType g false)

/-- Bounds that go on after a plus sign, as long as there is one. -/
def moreBounds (g : Grammar) : Reader (List Node) := do
  let found ← repeated [] fun found => do
    if ← optionalSign "+" then
      let (_, children) ← bound g false false
      return (children :: found, true)
    return (found, false)
  return found.reverse.flatten

/-- A type in parentheses, a tuple of types, or bounds of which the first is in parentheses. -/
def parenthesizedType (g : Grammar) (plus : Bool) : Reader Node := do
  let start ← here
  let (form, children, list) ← inside .parenthesis do
    if ← ahead Ahead.none then return (Form.other, [], true)
    if ← ahead Ahead.lifetime then
      let (isTrait, children) ← boundList g true false false
      if !isTrait then failure
      return (Form.other, children, true)
    if ← ahead (.sign "?") then return (Form.bounds false, ← traitBound g false, true)
    let first ← g (.type true)
    if ← optionalSign "," then
      return (Form.other, first :: (← commaList (g (.type true))), true)
    return (first.form, [first], false)
  match form, list with
  | .bounds _, true =>
    let more ← moreBounds g
    return .mk (.bounds false) (← since start) (children ++ more)
  | .typePath _ false _, false | .bounds true, false =>
    if plus && (← ahead (.sign "+")) then
      let more ← moreBounds g
      return .mk (.bounds false) (← since start) (children ++ more)
    return .mk .other (← since start) children
  | _, _ => return .mk .other (← since start) children

/-- A type that is a path, the use of a syntactic extension, or bounds that begin with a path. -/
def pathType (g : Grammar) (quantifiers : Option (List Node)) (plus : Bool) : Reader Node := do
  let start ← here
  let named ← path g false
  let p ← withCallArguments g named
  if p.qualified then
    return .mk (.typePath (p.names.getLast?.getD "") true false) (← since start) p.children
  if p.plain && (← ahead (.sign "!")) && !(← ahead (.sign "!=")) then
    let (node, _) ← expansion g start p.name
    return .mk .other (← since start) [node]
  if quantifiers.isSome || (plus && (← ahead (.sign "+"))) then
    let first := quantifiers.getD [] ++ p.children
    let (children, single) ← repeated (first, true) fun (found, single) => do
      if plus && (← optionalSign "+") then
        if ← ahead (boundAhead false) then
          let (_, children) ← bound g false false
          return ((found ++ children, false), true)
        return ((found, false), false)
      return ((found, single), false)
    return .mk (.bounds single) (← since start) children
  -- a single name may have arguments in angle brackets, but not in parentheses
  let single := p.names.length == 1 && !p.rooted && named.lastPlain == p.lastPlain
  return .mk (.typePath (p.names.getLast?.getD "") false single) (← since start) p.children

/-- A type. Bounds are joined only if `plus` allows it. -/
def typeRule (g : Grammar) (plus : Bool) : Reader Node := do
  let start ← here
  let quantifiers ← optionalQuantified g
  if quantifiers.isSome then
    require fun tokens =>
      Ahead.identifier tokens || ["fn", "unsafe", "extern", "super", "self", "Self", "crate"].any
        (Ahead.word · tokens)
  let other (children : List Node) : Reader Node := return .mk .other (← since start) children
  if ← ahead Ahead.paren then parenthesizedType g plus
  else if ← aheadAny [.word "fn", .word "unsafe", .word "extern"] then
    let children ← functionType g
    other (quantifiers.getD [] ++ children)
  else if ← aheadAny [Ahead.identifier, .word "super", .word "self", .word "Self", .word "crate",
      .sign "::", .sign "<"] then
    return (← pathType g quantifiers plus).startingAt start
  else if ← optionalWord "dyn" then
    let star ← optionalSign "*"
    let (isTrait, children) ← boundList g plus false false
    if !isTrait then failure
    other (if star then [] else children)
  else if ← ahead Ahead.bracket then
    let children ← inside .bracket do
      let element ← g (.type true)
      if ← optionalSign ";" then return [element, ← g (.expression true)]
      return [element]
    other children
  else if ← optionalSign "*" then
    if !(← optionalWord "const") then word "mut"
    other [← g (.type false)]
  else if ← optionalSign "&" then
    let _ ← optionalLifetime
    let _ ← optionalWord "mut"
    other [← g (.type false)]
  else if ← optionalSign "!" then other []
  else if ← optionalWord "impl" then
    let (isTrait, children) ← boundList g plus true true
    if !isTrait then failure
    other children
  else if ← optionalWord "_" then other []
  else if ← ahead Ahead.lifetime then
    let (isTrait, children) ← boundList g true false false
    if !isTrait then failure
    return .mk (.bounds false) (← since start) children
  else failure

end LintMend.Rust.Reader
