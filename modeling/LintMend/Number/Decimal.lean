import LintMend.Outcome

/-!
# Decimal numbers in text
-/

namespace LintMend

/-- The number that a text writes: decimal digits, which a plus sign may precede, and nothing else.
It has to fit a machine word. -/
def wordOfText? (s : String) : Option Nat :=
  let digits :=
    match s.toList with
    | '+' :: cs => cs
    | cs => cs
  if digits.isEmpty || !digits.all Char.isDigit then none
  else
    let n := digits.foldl (fun n d => n * 10 + (d.toNat - '0'.toNat)) 0
    if n < wordLimit then some n else none

end LintMend
