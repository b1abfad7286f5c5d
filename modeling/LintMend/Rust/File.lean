import LintMend.Rust.Grammar.Item

/-!
# Source files

The grammar with its knot tied, and the items of a whole source text. A byte order mark at the start
is dropped, and so is a first line that names an interpreter; the newline after it stays, so that
lines keep their numbers.
-/

namespace LintMend.Rust

/-- The rule for each goal, given readers for all of them. -/
def rules (g : Grammar) : Grammar
  | .expression structs => Reader.expressionRule g structs
  | .operand structs => Reader.operandRule g structs
  | .operators left structs base => Reader.operatorsRule g left structs base
  | .statementExpression => Reader.statementExpressionRule g
  | .block => Reader.blockRule g
  | .attributedBlock => Reader.attributedBlockRule g
  | .type plus => Reader.typeRule g plus
  | .arguments => Reader.argumentsRule g
  | .pattern => Reader.patternRule g
  | .item => Reader.itemRule g

/-- The grammar for goals that nest at most `depth` deep. -/
def grammar : Nat → Grammar
  | 0 => fun _ => failure
  | depth + 1 => fun goal => rules (grammar depth) goal

/-- Goals cannot nest deeper than this: of eight goals one inside the other, at least one took a
token before it reached the next. -/
def nestingBound (tokens : List Token) : Nat := 8 * Token.countAll tokens + 16

/-- The text without a byte order mark. -/
def dropMark : List Char → List Char
  | '\ufeff' :: cs => cs
  | cs => cs

/-- The text without a first line that names an interpreter. An attribute of the whole file begins
alike. -/
def dropInterpreter : List Char → List Char
  | '#' :: '!' :: cs =>
    if firstSolid 0 cs == some '[' then '#' :: '!' :: cs else cs.dropWhile (· != '\n')
  | cs => cs

/-- The tokens of a source file. A second byte order mark is passed over, but counts as a
character of its line. -/
def fileTokens? (source : String) : Option (List Token) := do
  match dropInterpreter (dropMark source.toList) with
  | '\ufeff' :: cs => do
    let lexemes ← lexFrom 0 ⟨1, 1⟩ [] cs
    assemble [] [] lexemes.reverse
  | cs => lex? cs

/-- The items of a source file. -/
def items? (source : String) : Option (List Node) := do
  let tokens ← fileTokens? source
  let g := grammar (nestingBound tokens)
  let file : Reader (List Node) := do
    let _ ← Reader.innerAttributes g
    Reader.until_ Ahead.none (g .item)
  let (items, _) ← file ⟨tokens, ⟨1, 0⟩, false⟩
  return items

end LintMend.Rust
