import LintMend.Text.Line

/-!
# Tokens of Rust source

Source text is read as a tree of tokens: words, lifetimes, single marks, literals, and groups of
tokens in brackets. Every token knows where it stands. Lines count from one, columns count
characters from zero.
-/

namespace LintMend.Rust

/-- From the first to the last character of a piece of source. -/
structure Extent where
  start : Position
  stop : Position
deriving DecidableEq, Repr, Inhabited

/-- The three kinds of brackets. -/
inductive Delimiter where
  | parenthesis
  | bracket
  | brace
deriving DecidableEq, Repr

/-- Tokens. A mark is `joint` when another mark follows it without a gap. -/
inductive Token where
  | word (text : String) (extent : Extent)
  | lifetime (text : String) (extent : Extent)
  | mark (char : Char) (joint : Bool) (extent : Extent)
  | literal (text : String) (extent : Extent)
  | group (delimiter : Delimiter) (inner : List Token) (extent : Extent)

namespace Token

def extent : Token → Extent
  | word _ e | lifetime _ e | mark _ _ e | literal _ e | group _ _ e => e

mutual

/-- Number of tokens in a tree, the tree itself included. -/
def count : Token → Nat
  | word _ _ | lifetime _ _ | mark _ _ _ | literal _ _ => 1
  | group _ inner _ => countAll inner + 1

/-- Number of tokens in a sequence of trees. -/
def countAll : List Token → Nat
  | [] => 0
  | t :: ts => count t + countAll ts

end

mutual

/-- The text of a token without the gaps between its parts. -/
def compact : Token → String
  | word text _ | lifetime text _ | literal text _ => text
  | mark c _ _ => String.singleton c
  | group .parenthesis inner _ => "(" ++ compactAll inner ++ ")"
  | group .bracket inner _ => "[" ++ compactAll inner ++ "]"
  | group .brace inner _ => "\x7b" ++ compactAll inner ++ "\x7d"

/-- The text of a sequence of tokens without gaps. -/
def compactAll : List Token → String
  | [] => ""
  | t :: ts => compact t ++ compactAll ts

end

end Token

end LintMend.Rust
