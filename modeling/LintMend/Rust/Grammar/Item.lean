import LintMend.Rust.Grammar.Statement
import LintMend.Rust.Grammar.Type

/-!
# Items

Functions, the members of types and traits, and modules are kept; all other items are only read.
-/

namespace LintMend.Rust.Reader

/-! ## Parameters and conditions -/

/-- A visibility in front of an item or field. Tells whether there is one. -/
def visibility : Reader Bool := do
  if !(← optionalWord "pub") then return false
  let _ ← attempt <| inside .parenthesis do
    if ← optionalWord "in" then
      let _ ← plainPath
    else if ← aheadAny [.word "crate", .word "self", .word "super"] then
      let _ ← anyWord
    else failure
  return true

/-- A constant may follow an equals sign. -/
def optionalDefault {α : Type} (r : Reader α) : Reader Bool := do
  if ← optionalSign "=" then
    let _ ← r
    return true
  return false

/-- One generic parameter. -/
def genericParameter (g : Grammar) : Reader Unit := do
  let _ ← outerAttributes g
  let ends : Ahead := fun tokens => Ahead.sign "," tokens || Ahead.sign ">" tokens
  if ← ahead Ahead.lifetime then
    lifetime
    if ← optionalSign ":" then lifetimeBounds ends
  else if ← ahead Ahead.identifier then
    let _ ← identifier
    if ← optionalSign ":" then
      let _ ← boundsUntil g true fun tokens => ends tokens || Ahead.sign "=" tokens
    let _ ← optionalDefault (g (.type true))
  else if ← optionalWord "const" then
    let _ ← identifier
    sign ":"
    let _ ← g (.type true)
    let _ ← optionalDefault (constantArgument g)
  else word "_"

/-- Generic parameters in angle brackets. Tells whether there are any brackets. -/
def genericParameters (g : Grammar) : Reader Bool := do
  if !(← optionalSign "<") then return false
  let _ ← separated "," (.sign ">") (genericParameter g)
  sign ">"
  return true

/-- The list of conditions ends here. -/
def conditionsEnd : Ahead := fun tokens =>
  tokens.isEmpty || Ahead.brace tokens || Ahead.sign "," tokens || Ahead.sign ";" tokens ||
    (Ahead.sign ":" tokens && !Ahead.sign "::" tokens) || Ahead.sign "=" tokens

/-- One condition on a lifetime or a type. -/
def condition (g : Grammar) : Reader Unit := do
  if (← ahead Ahead.lifetime) && (← ahead (.after 1 (.sign ":"))) then
    lifetime
    sign ":"
    lifetimeBounds fun tokens => conditionsEnd tokens || Ahead.sign ":" tokens
  else
    let _ ← optionalQuantified g
    let _ ← g (.type true)
    sign ":"
    let _ ← boundsUntil g true conditionsEnd

/-- Conditions after `where`. Tells whether the keyword is there. -/
def conditions (g : Grammar) : Reader Bool := do
  if !(← optionalWord "where") then return false
  repeated () fun _ => do
    if ← ahead conditionsEnd then return ((), false)
    condition g
    return ((), ← optionalSign ",")
  return true

/-! ## Functions -/

/-- The receiver of a method. -/
def receiver (g : Grammar) : Reader Unit := do
  let byRef ← optionalSign "&"
  if byRef then
    let _ ← optionalLifetime
  let _ ← optionalWord "mut"
  word "self"
  if !byRef && (← optionalSign ":") then
    let _ ← g (.type true)

/-- A comma unless the tokens end. -/
def commaOrEnd : Reader Unit := do
  if !(← ahead Ahead.none) then sign ","

/-- The parameters of a function. A receiver comes first, and the last one may stand for any
number. -/
def parameters (g : Grammar) : Reader Unit := do
  let _ ← repeated true fun first => do
    if ← ahead Ahead.none then return (first, false)
    let _ ← outerAttributes g
    if ← optionalSign "..." then
      commaOrEnd
      return (first, false)
    match ← attempt (receiver g) with
    | some () => if !first then failure
    | none =>
      if (← ahead Ahead.identifier) && (← ahead (.after 1 (.sign "<"))) then
        let _ ← g (.type true)
      else
        let _ ← g .pattern
        sign ":"
        if ← optionalSign "..." then
          commaOrEnd
          return (first, false)
        let _ ← g (.type true)
    if ← ahead Ahead.none then return (false, false)
    sign ","
    return (false, true)

/-- The keywords in front of `fn` are those of a signature; `safe` may be one of them. -/
def signatureAhead (safe : Bool) : Ahead := fun tokens =>
  let skip (k : String) (ts : List Token) := if Ahead.word k ts then ts.drop 1 else ts
  let tokens := skip "async" (skip "const" tokens)
  let tokens :=
    if Ahead.word "unsafe" tokens then tokens.drop 1
    else if safe && Ahead.word "safe" tokens then tokens.drop 1
    else tokens
  let tokens :=
    if Ahead.word "extern" tokens then
      match tokens.drop 1 with
      | .literal t e :: rest => if literalKind t == .string then rest else .literal t e :: rest
      | rest => rest
    else tokens
  Ahead.word "fn" tokens

/-- The signature of a function: its name. -/
def signature (g : Grammar) (safe : Bool) : Reader String := do
  let _ ← optionalWord "const"
  let _ ← optionalWord "async"
  if !(← optionalWord "unsafe") && safe then
    let _ ← optionalWord "safe"
  optionalInterface
  word "fn"
  let name ← identifier
  let _ ← genericParameters g
  inside .parenthesis (parameters g)
  let _ ← arrowType g true
  let _ ← conditions g
  return name

/-- A function from its signature on. Without a body it is an item like any other. -/
def function (g : Grammar) (attributes : List Node) : Reader Node := do
  let start ← here
  let name ← signature g false
  if ← optionalSign ";" then return .mk .item (← since start) []
  let body ← g .attributedBlock
  let derived := (attributes ++ body.children).any Node.marksDerived
  return .mk (.function name derived) (← since start) body.children.getLast?.toList

/-! ## Members -/

/-- A constant: name, parameters, type, value and conditions. -/
def constant (g : Grammar) : Reader Unit := do
  word "const"
  if !(← optionalWord "_") then
    let _ ← identifier
  let _ ← genericParameters g
  sign ":"
  let _ ← g (.type true)
  let _ ← optionalDefault (g (.expression true))
  let _ ← conditions g
  sign ";"

/-- A type alias or an associated type; conditions stand before or after the definition. -/
def typeAlias (g : Grammar) (conditionsFirst : Bool) : Reader Unit := do
  word "type"
  let _ ← identifier
  let _ ← genericParameters g
  if ← optionalSign ":" then
    let ends : Ahead := fun tokens =>
      Ahead.word "where" tokens || Ahead.sign "=" tokens || Ahead.sign ";" tokens
    let _ ← separated "+" ends (bound g false true)
  if conditionsFirst then let _ ← conditions g
  let _ ← optionalDefault (g (.type true))
  if !conditionsFirst then let _ ← conditions g
  sign ";"

/-- The use of a syntactic extension as an item or member. `named` allows a name before the
arguments. Arguments that are not in braces need a semicolon. -/
def expansionItem (named : Bool) : Reader Unit := do
  let _ ← plainPath
  sign "!"
  if named then
    if ← aheadAny [Ahead.identifier, .word "try"] then
      let _ ← anyWord
  let (delimiter, _) ← anyGroup
  if delimiter != .brace then sign ";"

/-- The use of a syntactic extension may begin here. -/
def expansionAhead : Ahead := fun tokens =>
  Ahead.identifier tokens ||
    [Ahead.word "self", .word "super", .word "crate", .sign "::"].any (· tokens)

/-- A member of a type. -/
def typeMember (g : Grammar) : Reader Node := do
  let begin_ ← here
  let item : Reader Node := return .mk .item (← since begin_) []
  let attributes ← outerAttributes g
  let visible ← visibility
  let isDefault ← ahead fun tokens =>
    Ahead.word "default" tokens && !Ahead.after 1 (.sign "!") tokens
  if isDefault then word "default"
  if ← ahead (signatureAhead false) then function g attributes
  else if ← ahead (.word "const") then
    constant g
    item
  else if ← ahead (.word "type") then
    typeAlias g false
    item
  else if !visible && !isDefault && (← ahead expansionAhead) then
    expansionItem false
    item
  else failure

/-- A member of a trait. One with a visibility or a default marker is only read. -/
def traitMember (g : Grammar) : Reader Node := do
  let begin_ ← here
  let item : Reader Node := return .mk .item (← since begin_) []
  let attributes ← outerAttributes g
  let visible ← visibility
  let isDefault ← optionalWord "default"
  if ← ahead (signatureAhead false) then
    let member ← function g attributes
    if visible || isDefault then item else return member
  else if ← ahead (.word "const") then
    constant g
    item
  else if ← ahead (.word "type") then
    typeAlias g false
    item
  else if !visible && !isDefault && (← ahead expansionAhead) then
    expansionItem false
    item
  else failure

/-- A member of a foreign interface. -/
def foreignMember (g : Grammar) : Reader Unit := do
  let _ ← outerAttributes g
  let visible ← visibility
  let isStatic ← ahead fun tokens =>
    Ahead.word "static" tokens ||
      ((Ahead.word "unsafe" tokens || Ahead.word "safe" tokens) &&
        Ahead.after 1 (.word "static") tokens)
  if ← ahead (signatureAhead true) then
    let _ ← signature g true
    if ← ahead Ahead.brace then
      let _ ← g .attributedBlock
    else sign ";"
  else if isStatic then
    if !(← optionalWord "unsafe") then
      let _ ← optionalWord "safe"
    word "static"
    let _ ← optionalWord "mut"
    let _ ← identifier
    sign ":"
    let _ ← g (.type true)
    let _ ← optionalDefault (g (.expression true))
    sign ";"
  else if ← ahead (.word "type") then typeAlias g true
  else if !visible && (← ahead expansionAhead) then expansionItem false
  else failure

/-! ## Types and traits -/

/-- The tokens that a reader takes, beside its result. -/
def withTokens {α : Type} (r : Reader α) : Reader (α × List Token) := do
  let before := (← get).rest
  let a ← r
  return (a, before.take (before.length - (← get).rest.length))

/-- The name under which a type is known: the last name of a path, or its text without blanks. -/
def typeName (type : Node) (tokens : List Token) : String :=
  match type.form with
  | .typePath name _ _ => name
  | _ => String.ofList ((Token.compactAll tokens).toList.filter (· != ' '))

/-- An angle bracket after `impl` opens parameters and not a path. -/
def parametersAhead : Ahead := fun tokens =>
  Ahead.sign "<" tokens &&
    (Ahead.after 1 (.sign ">") tokens || Ahead.after 1 (.sign "#") tokens ||
      ((Ahead.after 1 Ahead.lifetime tokens || Ahead.after 1 Ahead.identifier tokens) &&
        (Ahead.after 2 (.sign ">") tokens || Ahead.after 2 (.sign ",") tokens ||
          (Ahead.after 2 (.sign ":") tokens && !Ahead.after 2 (.sign "::") tokens) ||
          Ahead.after 2 (.sign "=") tokens)) ||
      Ahead.after 1 (.word "const") tokens)

/-- The members of a type. It is only read when it has a visibility, is constant, or names no
trait where it should. -/
def implementation (g : Grammar) (attributes : List Node) : Reader Node := do
  let visible ← visibility
  let _ ← optionalWord "default"
  let _ ← optionalWord "unsafe"
  let start ← here
  word "impl"
  if ← ahead parametersAhead then
    let _ ← genericParameters g
  let isConst ← ahead fun tokens =>
    Ahead.word "const" tokens || (Ahead.sign "?" tokens && Ahead.after 1 (.word "const") tokens)
  if isConst then
    let _ ← optionalSign "?"
    word "const"
  let (first, firstTokens) ← withTokens do
    let negative ← ahead fun tokens => Ahead.sign "!" tokens && !Ahead.after 1 Ahead.brace tokens
    if negative then sign "!"
    let type ← g (.type true)
    return (type, negative)
  let (owner, isTrait) ←
    if ← optionalWord "for" then
      let (type, tokens) ← withTokens (g (.type true))
      let isPath :=
        match first.1.form with
        | .typePath _ false _ => true
        | _ => false
      pure (typeName type tokens, isPath)
    else if first.2 then pure (typeName (.mk .other first.1.extent []) firstTokens, true)
    else pure (typeName first.1 firstTokens, true)
  let _ ← conditions g
  let (inner, members) ← inside .brace do
    let inner ← innerAttributes g
    return (inner, ← until_ Ahead.none (typeMember g))
  if visible || isConst || !isTrait then return .mk .item (← since start) []
  let derived := (attributes ++ inner).any Node.marksDerived
  return .mk (.implementation owner derived) (← since start) members

/-- A trait with its members, or a trait alias. -/
def traitItem (g : Grammar) : Reader Node := do
  let _ ← visibility
  let isUnsafe ← optionalWord "unsafe"
  let isAuto ← optionalWord "auto"
  let start ← here
  word "trait"
  let name ← identifier
  let _ ← genericParameters g
  if !isUnsafe && !isAuto && (← optionalSign "=") then
    let ends : Ahead := fun tokens => Ahead.word "where" tokens || Ahead.sign ";" tokens
    let _ ← separated "+" ends (bound g false true)
    let _ ← conditions g
    sign ";"
    return .mk .item (← since start) []
  if ← optionalSign ":" then
    let ends : Ahead := fun tokens => Ahead.word "where" tokens || Ahead.brace tokens
    let _ ← separated "+" ends (bound g false true)
  let _ ← conditions g
  let members ← inside .brace do
    let _ ← innerAttributes g
    until_ Ahead.none (traitMember g)
  return .mk (.traitMembers name) (← since start) members

/-- A field with a name. -/
def namedField (g : Grammar) : Reader Unit := do
  let _ ← outerAttributes g
  let _ ← visibility
  if !(← optionalWord "_") then
    let _ ← identifier
  sign ":"
  let _ ← g (.type true)

/-- A field without a name. -/
def unnamedField (g : Grammar) : Reader Unit := do
  let _ ← outerAttributes g
  let _ ← visibility
  let _ ← g (.type true)

def namedFields (g : Grammar) : Reader Unit := do
  let _ ← inside .brace (commaList (namedField g))

def unnamedFields (g : Grammar) : Reader Unit := do
  let _ ← inside .parenthesis (commaList (unnamedField g))

def structItem (g : Grammar) : Reader Unit := do
  let _ ← visibility
  word "struct"
  let _ ← identifier
  let _ ← genericParameters g
  let conditioned ← conditions g
  if !conditioned && (← ahead Ahead.paren) then
    unnamedFields g
    let _ ← conditions g
    sign ";"
  else if ← ahead Ahead.brace then namedFields g
  else sign ";"

/-- A variant of an enumeration. -/
def variant (g : Grammar) : Reader Unit := do
  let _ ← outerAttributes g
  let _ ← visibility
  let _ ← identifier
  if ← ahead Ahead.brace then namedFields g
  else if ← ahead Ahead.paren then unnamedFields g
  let _ ← optionalDefault (g (.expression true))

def enumItem (g : Grammar) : Reader Unit := do
  let _ ← visibility
  word "enum"
  let _ ← identifier
  let _ ← genericParameters g
  let _ ← conditions g
  let _ ← inside .brace (commaList (variant g))

def unionItem (g : Grammar) : Reader Unit := do
  let _ ← visibility
  word "union"
  let _ ← identifier
  let _ ← genericParameters g
  let _ ← conditions g
  namedFields g

/-! ## Other items -/

/-- A tree of imported names, nested at most `depth` deep. `root` allows trees in braces to start
at the root. -/
def importTree (root : Bool) : Nat → Reader Unit
  | 0 => failure
  | depth + 1 => do
    if ← aheadAny [Ahead.identifier, .word "self", .word "super", .word "crate", .word "try"] then
      let _ ← anyWord
      if ← optionalSign "::" then importTree false depth
      else if ← optionalWord "as" then
        if !(← optionalWord "_") then
          let _ ← identifier
    else if ← optionalSign "*" then return
    else
      let trees : Reader (List Unit) := commaList do
        let rooted ← if root then optionalSign "::" else pure false
        importTree (root && !rooted) depth
      let _ ← inside .brace trees

def importItem : Reader Unit := do
  let _ ← visibility
  word "use"
  let rooted ← optionalSign "::"
  let depth := Token.countAll (← get).rest + 1
  importTree (!rooted) depth
  sign ";"

def externCrate : Reader Unit := do
  let _ ← visibility
  word "extern"
  word "crate"
  if !(← optionalWord "self") then
    let _ ← identifier
  if ← optionalWord "as" then
    if !(← optionalWord "_") then
      let _ ← identifier
  sign ";"

/-- A foreign interface. -/
def foreignItem (g : Grammar) : Reader Unit := do
  let _ ← optionalWord "unsafe"
  require (.word "extern")
  optionalInterface
  let _ ← inside .brace do
    let _ ← innerAttributes g
    until_ Ahead.none (foreignMember g)

def staticItem (g : Grammar) : Reader Unit := do
  let _ ← visibility
  word "static"
  let _ ← optionalWord "mut"
  let _ ← identifier
  if ← optionalSign ":" then
    let _ ← g (.type true)
    let _ ← optionalDefault (g (.expression true))
  else
    sign "="
    let _ ← g (.expression true)
  sign ";"

/-- A module, with its items if they are given here. -/
def moduleItem (g : Grammar) : Reader Node := do
  let start ← here
  let _ ← visibility
  let _ ← optionalWord "unsafe"
  word "mod"
  let name ← if ← ahead (.word "try") then anyWord else identifier
  if ← optionalSign ";" then return .mk .item (← since start) []
  let items ← inside .brace do
    let _ ← innerAttributes g
    until_ Ahead.none (g .item)
  return .mk (.module name) (← since start) items

/-- The definition of a syntactic extension by a keyword. -/
def extensionItem : Reader Unit := do
  let _ ← visibility
  word "macro"
  let _ ← identifier
  if ← ahead Ahead.paren then
    let _ ← next
  require Ahead.brace
  let _ ← next

/-- An item with its attributes. -/
def itemRule (g : Grammar) : Reader Node := do
  let begin_ ← here
  let only (r : Reader Unit) : Reader Node := do
    r
    return .mk .item (← since begin_) []
  let attributes ← outerAttributes g
  -- what decides comes after the visibility
  let before ← get
  let visible ← visibility
  let tokens := (← get).rest
  set before
  if signatureAhead false tokens then
    let _ ← visibility
    function g attributes
  else if Ahead.word "extern" tokens then
    if Ahead.after 1 (.word "crate") tokens then only externCrate
    else only (foreignItem g)
  else if Ahead.word "use" tokens then only importItem
  else if Ahead.word "static" tokens then only (staticItem g)
  else if Ahead.word "const" tokens then
    only do
      let _ ← visibility
      constant g
  else if Ahead.word "unsafe" tokens then
    let tokens := tokens.drop 1
    if Ahead.word "trait" tokens ||
        (Ahead.word "auto" tokens && Ahead.after 1 (.word "trait") tokens) then traitItem g
    else if Ahead.word "impl" tokens then implementation g attributes
    else if Ahead.word "extern" tokens then only (foreignItem g)
    else if Ahead.word "mod" tokens then moduleItem g
    else failure
  else if Ahead.word "mod" tokens then moduleItem g
  else if Ahead.word "type" tokens then
    only do
      let _ ← visibility
      typeAlias g true
  else if Ahead.word "struct" tokens then only (structItem g)
  else if Ahead.word "enum" tokens then only (enumItem g)
  else if Ahead.word "union" tokens && Ahead.after 1 Ahead.identifier tokens then
    only (unionItem g)
  else if Ahead.word "trait" tokens ||
      (Ahead.word "auto" tokens && Ahead.after 1 (.word "trait") tokens) then traitItem g
  else if Ahead.word "impl" tokens ||
      (Ahead.word "default" tokens && !Ahead.after 1 (.sign "!") tokens) then
    implementation g attributes
  else if Ahead.word "macro" tokens then only extensionItem
  else if !visible && expansionAhead tokens then only (expansionItem true)
  else failure

end LintMend.Rust.Reader
