import LintMend.Text.Blank
import LintMend.Text.CaseFold
import LintMend.Text.Identifier

/-!
# Patterns

Patterns over text, of which only single characters can be repeated. Alternatives are tried in
order, and repetitions and options take as much as they can first. A search finds the leftmost place
where the pattern fits, and there the first way in this order.
-/

namespace LintMend.Text

/-- A pattern. -/
inductive Pattern where
  /-- Nothing. -/
  | empty
  /-- One character. -/
  | one (test : Char → Bool)
  /-- At least so many characters. -/
  | many (least : Nat) (test : Char → Bool)
  /-- A place between a word character and something else, or the end of the text. -/
  | wordEdge
  | seq (first second : Pattern)
  | alt (first second : Pattern)
  /-- A part whose text is of interest. -/
  | group (index : Nat) (inner : Pattern)

/-- A place in a text: the character before it, the characters after it and the number of those
before it. Groups are those passed, each with the places where it begins and ends. -/
structure Place where
  before : Option Char
  rest : List Char
  count : Nat
  groups : List (Nat × Nat × Nat)

namespace Place

def ofText (cs : List Char) : Place := ⟨none, cs, 0, []⟩

/-- The place after the next character. -/
def next? (p : Place) : Option Place :=
  match p.rest with
  | [] => none
  | c :: cs => some { p with before := some c, rest := cs, count := p.count + 1 }

/-- The place is between a word character and something else. -/
def isWordEdge (p : Place) : Bool :=
  p.before.any isWordChar != p.rest.head?.any isWordChar

end Place

namespace Pattern

/-- Continues after as many more characters as possible. The rest of the text is given beside the
place; `needed` characters are still missing. -/
def runMany {β : Type} (test : Char → Bool) (k : Place → Option β) (p : Place) (needed : Nat) :
    List Char → Option β
  | [] => if needed = 0 then k { p with rest := [] } else none
  | c :: cs =>
    let stop (_ : Unit) := if needed = 0 then k { p with rest := c :: cs } else none
    if test c then
      match runMany test k { p with before := some c, count := p.count + 1 } (needed - 1) cs with
      | some result => some result
      | none => stop ()
    else stop ()

/-- Continues with `k` at each place to which the pattern leads, in order, up to the first
success. -/
def run {β : Type} : Pattern → (Place → Option β) → Place → Option β
  | .empty, k, p => k p
  | .one test, k, p =>
    match p.rest with
    | [] => none
    | c :: _ => if test c then p.next?.bind k else none
  | .many least test, k, p => runMany test k p least p.rest
  | .wordEdge, k, p => if p.isWordEdge then k p else none
  | .seq first second, k, p => first.run (second.run k) p
  | .alt first second, k, p => (first.run k p).orElse fun _ => second.run k p
  | .group index inner, k, p =>
    inner.run (fun q => k { q with groups := (index, p.count, q.count) :: q.groups }) p

/-- The place where the pattern ends at its leftmost occurrence. -/
def searchFrom (pattern : Pattern) (before : Option Char) (count : Nat) :
    List Char → Option Place
  | [] => pattern.run some ⟨before, [], count, []⟩
  | c :: cs =>
    match pattern.run some ⟨before, c :: cs, count, []⟩ with
    | some p => some p
    | none => pattern.searchFrom (some c) (count + 1) cs

/-- The texts of the groups of the leftmost occurrence. -/
def search? (pattern : Pattern) (cs : List Char) : Option (Nat → List Char) :=
  (pattern.searchFrom none 0 cs).map fun p index =>
    match p.groups.find? (·.1 == index) with
    | some (_, start, stop) => (cs.drop start).take (stop - start)
    | none => []

/-- The pattern fits somewhere. -/
def occurs (pattern : Pattern) (cs : List Char) : Bool := (pattern.searchFrom none 0 cs).isSome

/-- The patterns one after another. -/
def all (ps : List Pattern) : Pattern := ps.foldr seq empty

/-- One of the patterns, of which there has to be one. -/
def any : List Pattern → Pattern
  | [] => one fun _ => false
  | [p] => p
  | p :: ps => alt p (any ps)

def optional (p : Pattern) : Pattern := alt p empty

/-- A given character. -/
def char (c : Char) : Pattern := one (· == c)

/-- A given text. -/
def literal (s : String) : Pattern := all (s.toList.map char)

/-- A given character in any case. -/
def foldedChar (c : Char) : Pattern := one (sameFolded c)

/-- A given text in any case. -/
def folded (s : String) : Pattern := all (s.toList.map foldedChar)

/-- White space, if any. -/
def blanks : Pattern := many 0 isBlank

/-- Word characters, if any. -/
def wordChars : Pattern := many 0 isWordChar

end Pattern

end LintMend.Text
