import LintMend.Text.Line

/-!
# Positions in an editor

An editor counts lines and characters from zero, where the rest of the library counts lines from one
and columns in bytes from one.
-/

namespace LintMend

/-- A place in a text, between two characters. -/
structure Cursor where
  line : Nat
  character : Nat
deriving DecidableEq, Repr

/-- A stretch of text between two places. -/
structure CursorRange where
  start : Cursor
  stop : Cursor
deriving DecidableEq, Repr

namespace Cursor

/-- Places are ordered by line, then by character. -/
def lt (a b : Cursor) : Bool :=
  a.line < b.line || (a.line == b.line && a.character < b.character)

/-- Numbers in messages to an editor are below this one. -/
def limit : Nat := 4294967296

/-- The number of characters that begin before a byte. -/
def charactersBefore (byte : Nat) : List Char → Nat
  | [] => 0
  | c :: cs => if byte == 0 then 0 else charactersBefore (byte - c.utf8Size) cs + 1

/-- The place of a line and a column in bytes, both counted from one. A column past the end of the
line is at its end, and a line past the end of the text is empty. -/
def ofColumn (text : String) (line column : Nat) : Cursor where
  line := (line - 1) % limit
  character :=
    let lineText := (textLines text).getD (line - 1) ""
    charactersBefore (min (column - 1) (byteLength lineText)) lineText.toList % limit

/-- The place of a byte offset. -/
def ofOffset (text : String) (index : LineIndex) (offset : Nat) : Cursor :=
  let p := index.position offset
  ofColumn text p.line p.column

end Cursor

namespace CursorRange

/-- The two stretches have a place in common; touching is enough. -/
def touches (a b : CursorRange) : Bool := !a.stop.lt b.start && !b.stop.lt a.start

end CursorRange

end LintMend
