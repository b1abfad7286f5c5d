import LintMend.Program.Splice
import LintMend.Program.Unit
import LintMend.Text.Blank

/-!
# Printing edited units

Printing copies the source and changes only the spans of edited statements. A removed statement that
is alone on its lines takes the lines with it.
-/

namespace LintMend

/-- Why a unit cannot be printed. -/
inductive PrintError where
  | overlappingEdits (first second : Nat)
  | spanOutOfRange (id : Nat)
deriving DecidableEq, Repr

def PrintError.message : PrintError → String
  | .overlappingEdits first second =>
    s!"statement {first} and statement {second} have overlapping edits"
  | .spanOutOfRange id => s!"statement {id} has a span outside the unit source"

/-- A change of the source: the statement it comes from, the range it replaces and the new text. -/
structure Change where
  id : Nat
  span : Span
  text : String
deriving DecidableEq, Repr

namespace Printer

/-- The part of a text after its last newline. -/
def lastLine (cs : List Char) : List Char := (cs.reverse.takeWhile (· != '\n')).reverse

/-- The span widened to its full lines if nothing but white space shares them. The newline at the
end belongs to them. -/
def ownedLines (source : String) (span : Span) : Span :=
  let cs := source.toList
  match Text.charsBefore? cs span.start, Text.charsBefore? cs span.stop with
  | some i, some j =>
    let before := lastLine (cs.take i)
    let after := cs.drop j
    let tail := after.takeWhile (· != '\n')
    if Text.allBlank before && Text.allBlank tail then
      let newline := if (after.dropWhile (· != '\n')).isEmpty then 0 else 1
      ⟨span.start - Text.bytes before, span.stop + Text.bytes tail + newline⟩
    else span
  | _, _ => span

/-- The change that an edit makes to the source. -/
def changeOf (source : String) (s : Statement) : Edit → Change
  | .replace text => ⟨s.id, s.origin.span, text⟩
  | .remove => ⟨s.id, ownedLines source s.origin.span, ""⟩

/-- The changes of a sequence of statements. Spans of edited statements have to fit the source. -/
def changes (source : String) : List Statement → Except PrintError (List Change)
  | [] => .ok []
  | s :: rest =>
    match s.edit with
    | none => changes source rest
    | some edit =>
      if s.origin.span.fits source then
        (changes source rest).map (changeOf source s edit :: ·)
      else .error (.spanOutOfRange s.id)

/-- Changes go by the place where they begin, then by statement. -/
def Change.le (a b : Change) : Bool :=
  a.span.start < b.span.start || (a.span.start == b.span.start && a.id ≤ b.id)

/-- The first two neighbours that are in each other's way. -/
def clash? : List Change → Option (Change × Change)
  | a :: b :: rest =>
    if a.span.overlaps b.span || a.span == b.span then some (a, b) else clash? (b :: rest)
  | _ => none

/-- The source of the unit with all pending edits made. -/
def print (u : ProgramUnit) : Outcome (Except PrintError String) :=
  match changes u.source u.statements with
  | .error e => .ok (.error e)
  | .ok changes =>
    let sorted := changes.mergeSort Change.le
    match clash? sorted with
    | some (a, b) => .ok (.error (.overlappingEdits a.id b.id))
    | none => (replaceRanges u.source (sorted.map fun c => (c.span, c.text))).map .ok

end Printer

end LintMend
