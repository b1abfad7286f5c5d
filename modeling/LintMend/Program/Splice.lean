import LintMend.Outcome
import LintMend.Program.Span

/-!
# Replacing parts of a text

Several ranges of a text are replaced in place, from the last one to the first, so that the offsets
of those still to be replaced stay good.
-/

namespace LintMend

/-- Replaces a range of a text. A range that does not fit the text cannot be replaced. -/
def replaceRange (source : String) (span : Span) (text : String) : Outcome String :=
  match spliceBytes? source span.start span.stop text with
  | some result => .ok result
  | none =>
    if byteLength source < span.stop then
      abort s!"range end index {span.stop} out of range for slice of length {byteLength source}"
    else if !isByteBoundary source span.start then
      abort "start of range should be a character boundary"
    else abort "end of range should be a character boundary"

/-- Replaces ranges of a text one after the other, the last one first. -/
def replaceRanges (source : String) (ordered : List (Span × String)) : Outcome String :=
  ordered.reverse.foldlM (fun text r => replaceRange text r.1 r.2) source

end LintMend
