import LintMend.Defect.Issue
import LintMend.Program.Splice

/-!
# Applying patches

A patch is applied to a text as a whole or not at all. Every edit must lie inside the text, the text
must still hold what the edit expects, and no two edits may be in each other's way.
-/

namespace LintMend

/-- Why a patch cannot be applied. Edits are counted in the order of the patch, from zero. -/
inductive PatchError where
  | outOfBounds (index : Nat) (span : Span) (length : Nat)
  | overlap (first second : Nat)
  | staleAnchor (index : Nat)
deriving DecidableEq, Repr

def PatchError.message : PatchError → String
  | .outOfBounds index span length =>
    s!"patch edit {index} is out of bounds ({span.start}..{span.stop} in {length} bytes)"
  | .overlap first second => s!"patch edits {first} and {second} overlap"
  | .staleAnchor index => s!"patch edit {index} anchor no longer matches the source"

namespace Patch

/-- Edits go by the place where they begin, then by the place where they end. -/
def placeLe (a b : PatchEdit × Nat) : Bool :=
  a.1.span.start < b.1.span.start ||
    (a.1.span.start == b.1.span.start && a.1.span.stop ≤ b.1.span.stop)

/-- The edits with their numbers, by place. -/
def inOrder (p : Patch) : List (PatchEdit × Nat) := p.edits.zipIdx.mergeSort placeLe

/-- What is wrong with an edit by itself. -/
def editError? (source : String) (e : PatchEdit × Nat) : Option PatchError :=
  if !e.1.span.fits source then some (.outOfBounds e.2 e.1.span (byteLength source))
  else if e.1.span.text? source != some e.1.anchor then some (.staleAnchor e.2)
  else none

/-- The first two neighbours that are in each other's way. Two insertions at one place are. -/
def overlap? : List (PatchEdit × Nat) → Option PatchError
  | a :: b :: rest =>
    if a.1.span.overlaps b.1.span || a.1.span.start == b.1.span.start then
      some (.overlap a.2 b.2)
    else overlap? (b :: rest)
  | _ => none

/-- What is wrong with the patch. A fault of a single edit goes before edits in each other's way. -/
def error? (p : Patch) (source : String) : Option PatchError :=
  (p.inOrder.findSome? (editError? source)).orElse fun _ => overlap? p.inOrder

/-- The text with all edits made. -/
def apply (p : Patch) (source : String) : Outcome (Except PatchError String) :=
  match p.error? source with
  | some e => .ok (.error e)
  | none => (replaceRanges source (p.inOrder.map fun e => (e.1.span, e.1.replacement))).map .ok

end Patch

end LintMend
