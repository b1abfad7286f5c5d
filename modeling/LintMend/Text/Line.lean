import LintMend.Text.Bytes

/-!
# Lines and positions

`lines` are the lines of a text without their ends. A `LineIndex` converts between byte offsets and
positions of a line and a column. Lines count from one. Byte columns count from one, character
columns from zero.
-/

namespace LintMend.Text

/-- Reads on in a line of which the characters `line` were read, last first, after the lines
`done`, last first. -/
def linesFrom (line : List Char) (done : List (List Char)) : List Char → List (List Char)
  | [] => (if line.isEmpty then done else line.reverse :: done).reverse
  | '\n' :: cs =>
    match line with
    | '\r' :: line => linesFrom [] (line.reverse :: done) cs
    | line => linesFrom [] (line.reverse :: done) cs
  | c :: cs => linesFrom (c :: line) done cs

/-- The lines of a text. A line ends with a newline, which a carriage return may precede; what
follows the last newline is a line unless it is empty. -/
def lines (cs : List Char) : List (List Char) := linesFrom [] [] cs

/-- The beginnings of the lines of a text, last first, after those found before and `base` bytes. -/
def lineStartsFrom (found : List (Nat × List Char)) (base : Nat) :
    List Char → List (Nat × List Char)
  | [] => found
  | '\n' :: cs => lineStartsFrom ((base + 1, cs) :: found) (base + 1) cs
  | c :: cs => lineStartsFrom found (base + c.utf8Size) cs

/-- The byte offsets at which the lines of a text begin, each with the text from there on. The first
line begins at the start of the text and each other one after a newline. -/
def lineStarts (cs : List Char) : List (Nat × List Char) := (lineStartsFrom [(0, cs)] 0 cs).reverse

/-- The bytes of the first characters of a text, added to `total`, if there are that many. -/
def bytesOfFirstFrom (total : Nat) : Nat → List Char → Option Nat
  | 0, _ => some total
  | _ + 1, [] => none
  | n + 1, c :: cs => bytesOfFirstFrom (total + c.utf8Size) n cs

end LintMend.Text

namespace LintMend

/-- The lines of a text. -/
def textLines (s : String) : List String := (Text.lines s.toList).map String.ofList

/-- A line and a column. -/
structure Position where
  line : Nat
  column : Nat
deriving DecidableEq, Repr, Inhabited

/-- Positions are ordered by line, then by column. -/
def Position.lt (a b : Position) : Bool :=
  a.line < b.line || (a.line == b.line && a.column < b.column)

/-- Where the lines of a text begin, in bytes, and the text from each of these places on. -/
structure LineIndex where
  starts : List (Nat × List Char)
deriving DecidableEq, Repr

namespace LineIndex

/-- The index of a text. -/
def ofText (s : String) : LineIndex := ⟨Text.lineStarts s.toList⟩

/-- Number of lines, where the part after the last newline counts as a line even if empty. -/
def lineCount (index : LineIndex) : Nat := index.starts.length

/-- Byte offset of a line and a character column. The column may run past the end of its line; it
must not run past the end of the text. -/
def offset? (index : LineIndex) (line column : Nat) : Option Nat :=
  match line with
  | 0 => none
  | n + 1 => do
    let (start, rest) ← index.starts[n]?
    Text.bytesOfFirstFrom start column rest

/-- Line and byte column of an offset. An offset past the end belongs to the last line. -/
def position (index : LineIndex) (offset : Nat) : Position :=
  let before := index.starts.takeWhile (·.1 ≤ offset)
  ⟨before.length, offset - (before.getLastD (0, [])).1 + 1⟩

end LineIndex

end LintMend
