import LintMend.Rust.Node

/-!
# Reading tokens

A `Reader` takes tokens from the front of a sequence, or fails. It remembers where the last token
taken ends. A group is read by a reader of its own, which has to use it up.

Looking ahead is done by tests on the tokens that are left. A sign of several characters is a
sequence of marks, all but the last of which are joint to the next.
-/

namespace LintMend.Rust

/-- The tokens that are left, the end of the last token taken, and whether that was a group in
braces. -/
structure Cursor where
  rest : List Token
  last : Position
  braced : Bool

abbrev Reader := StateT Cursor Option

/-- A test on the tokens ahead. -/
abbrev Ahead := List Token → Bool

/-! ## Looking ahead -/

/-- Words with a meaning of their own, which are not identifiers. -/
def keywords : List String :=
  ["_", "abstract", "as", "async", "await", "become", "box", "break", "const", "continue", "crate",
   "do", "dyn", "else", "enum", "extern", "false", "final", "fn", "for", "if", "impl", "in", "let",
   "loop", "macro", "match", "mod", "move", "mut", "override", "priv", "pub", "ref", "return",
   "Self", "self", "static", "struct", "super", "trait", "true", "try", "type", "typeof", "unsafe",
   "unsized", "use", "virtual", "where", "while", "yield"]

namespace Ahead

/-- The given word. -/
def word (text : String) : Ahead
  | .word t _ :: _ => t == text
  | _ => false

/-- Any word. -/
def anyWord : Ahead
  | .word _ _ :: _ => true
  | _ => false

/-- A word that is no keyword. -/
def identifier : Ahead
  | .word t _ :: _ => !keywords.contains t
  | _ => false

def lifetime : Ahead
  | .lifetime _ _ :: _ => true
  | _ => false

/-- A group in the given brackets. -/
def group (delimiter : Delimiter) : Ahead
  | .group d _ _ :: _ => d == delimiter
  | _ => false

def paren : Ahead := group .parenthesis

def bracket : Ahead := group .bracket

def brace : Ahead := group .brace

/-- A sign of one or more marks. -/
def signChars : List Char → Ahead
  | [], _ => false
  | [c], .mark d _ _ :: _ => c == d
  | c :: cs, .mark d joint _ :: rest => c == d && joint && signChars cs rest
  | _, _ => false

/-- A sign of one or more marks. -/
def sign (text : String) : Ahead := signChars text.toList

/-- A literal, a truth value, or a negative number. -/
def literal : Ahead
  | .literal _ _ :: _ => true
  | .word t _ :: _ => t == "true" || t == "false"
  | .mark '-' _ _ :: .literal t _ :: _ => (t.toList.head?.map Char.isDigit).getD false
  | _ => false

/-- No token is left. -/
def none : Ahead := List.isEmpty

/-- The test holds after `n` tokens. -/
def after (n : Nat) (test : Ahead) : Ahead := fun tokens => test (tokens.drop n)

end Ahead

/-! ## Taking tokens -/

namespace Reader

/-- The outcome of a test on the tokens ahead. -/
def ahead (test : Ahead) : Reader Bool := return test (← get).rest

/-- The outcome of a test that is one of several. -/
def aheadAny (tests : List Ahead) : Reader Bool := return tests.any (· (← get).rest)

/-- Where the next token begins; at the end, where the last one ends. -/
def here : Reader Position := do
  match (← get).rest with
  | t :: _ => return t.extent.start
  | [] => return (← get).last

/-- The extent from a position to the end of the last token taken. -/
def since (start : Position) : Reader Extent := return ⟨start, (← get).last⟩

/-- The result of a reader, or nothing; then no token is taken. -/
def attempt {α : Type} (r : Reader α) : Reader (Option α) := fun c =>
  match r c with
  | some (a, c') => some (some a, c')
  | .none => some (.none, c)

/-- Succeeds only if the test holds. -/
def require (test : Ahead) : Reader Unit := do
  if !(← ahead test) then failure

/-- Takes one token, whatever it is. -/
def next : Reader Token := fun c =>
  match c.rest with
  | t :: rest => some (t, ⟨rest, t.extent.stop, Ahead.brace c.rest⟩)
  | [] => .none

/-- Takes the given word. -/
def word (text : String) : Reader Unit := do
  require (Ahead.word text)
  let _ ← next

/-- Takes the given word if it is there. -/
def optionalWord (text : String) : Reader Bool := do
  if ← ahead (Ahead.word text) then
    let _ ← next
    return true
  return false

/-- Takes any word. -/
def anyWord : Reader String := do
  match ← next with
  | .word t _ => return t
  | _ => failure

/-- Takes a word that is no keyword. -/
def identifier : Reader String := do
  require Ahead.identifier
  anyWord

def lifetime : Reader Unit := do
  require Ahead.lifetime
  let _ ← next

def optionalLifetime : Reader Bool := do
  if ← ahead Ahead.lifetime then
    let _ ← next
    return true
  return false

/-- Takes as many tokens as there are characters. -/
def takeMarks : List Char → Reader Unit
  | [] => return
  | _ :: cs => do
    let _ ← next
    takeMarks cs

/-- Takes a sign. -/
def sign (text : String) : Reader Unit := do
  require (Ahead.sign text)
  takeMarks text.toList

/-- Takes a sign if it is there. -/
def optionalSign (text : String) : Reader Bool := do
  if ← ahead (Ahead.sign text) then
    takeMarks text.toList
    return true
  return false

/-- Takes a group in the given brackets, whose tokens the reader has to use up. -/
def inside {α : Type} (delimiter : Delimiter) (r : Reader α) : Reader α := fun c =>
  match c.rest with
  | .group d inner e :: rest =>
    if d = delimiter then
      match r ⟨inner, e.start, false⟩ with
      | some (a, ⟨[], _, _⟩) => some (a, ⟨rest, e.stop, d == .brace⟩)
      | _ => .none
    else .none
  | _ => .none

/-- Takes a group in any brackets and gives its kind and its tokens. -/
def anyGroup : Reader (Delimiter × List Token) := do
  match ← next with
  | .group d inner _ => return (d, inner)
  | _ => failure

/-! ## Repetition -/

/-- Repeats a step that says whether to go on, at most `fuel` times. -/
def loop {σ : Type} (step : σ → Reader (σ × Bool)) : Nat → σ → Reader σ
  | 0, _ => failure
  | fuel + 1, s => do
    let (s, more) ← step s
    if more then loop step fuel s else return s

/-- Repeats a step that takes at least one token each time but the last. -/
def repeated {σ : Type} (s : σ) (step : σ → Reader (σ × Bool)) : Reader σ := do
  loop step ((← get).rest.length + 2) s

/-- Reads one thing after the other until the test holds. -/
def until_ {α : Type} (stop : Ahead) (r : Reader α) : Reader (List α) := do
  let found ← repeated [] fun found => do
    if ← ahead stop then return (found, false)
    let a ← r
    return (a :: found, true)
  return found.reverse

/-- Reads things that a sign separates until the test holds, after a thing or after a sign. -/
def separated {α : Type} (separator : String) (stop : Ahead) (r : Reader α) : Reader (List α) := do
  let found ← repeated [] fun found => do
    if ← ahead stop then return (found, false)
    let a ← r
    if ← ahead stop then return (a :: found, false)
    sign separator
    return (a :: found, true)
  return found.reverse

/-- Reads things that commas separate, to the end of the tokens. -/
def commaList {α : Type} (r : Reader α) : Reader (List α) := separated "," Ahead.none r

end Reader

end LintMend.Rust
