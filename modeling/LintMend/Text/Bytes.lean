/-!
# Byte offsets in text

Texts are sequences of characters, but positions in them count the bytes of their UTF-8 form. An
offset is a *boundary* when it lies between two characters, and only a pair of boundaries cuts a
piece out of a text.
-/

namespace LintMend.Text

/-- Bytes that a sequence of characters takes in UTF-8. -/
def bytes (cs : List Char) : Nat := cs.foldl (fun total c => total + c.utf8Size) 0

theorem foldl_utf8Size (cs : List Char) (total : Nat) :
    cs.foldl (fun total c => total + c.utf8Size) total = total + bytes cs := by
  induction cs generalizing total with
  | nil => rfl
  | cons c cs ih =>
    rw [bytes, List.foldl_cons, List.foldl_cons, ih, ih (0 + c.utf8Size)]
    omega

@[simp] theorem bytes_nil : bytes [] = 0 := rfl

@[simp] theorem bytes_cons (c : Char) (cs : List Char) :
    bytes (c :: cs) = c.utf8Size + bytes cs := by
  rw [bytes, List.foldl_cons, foldl_utf8Size, Nat.zero_add]

@[simp] theorem bytes_append (xs ys : List Char) : bytes (xs ++ ys) = bytes xs + bytes ys := by
  induction xs with
  | nil => simp
  | cons c cs ih => simp [ih, Nat.add_assoc]

/-- Counts characters until `offset` bytes are used up; `seen` have been counted before. -/
def charsBeforeFrom (seen : Nat) : List Char → Nat → Option Nat
  | _, 0 => some seen
  | [], _ + 1 => none
  | c :: cs, n + 1 =>
    if c.utf8Size ≤ n + 1 then charsBeforeFrom (seen + 1) cs (n + 1 - c.utf8Size) else none

/-- The number of characters that make up the first `offset` bytes, when `offset` is a boundary. -/
def charsBefore? (cs : List Char) (offset : Nat) : Option Nat :=
  charsBeforeFrom 0 cs offset

/-- The offset lies between two characters of the text, or at one of its ends. -/
def isBoundary (cs : List Char) (offset : Nat) : Bool :=
  (charsBefore? cs offset).isSome

/-- The characters between two offsets, when both are boundaries in order. -/
def slice? (cs : List Char) (start stop : Nat) : Option (List Char) :=
  if start ≤ stop then do
    let i ← charsBefore? cs start
    let j ← charsBefore? cs stop
    return (cs.drop i).take (j - i)
  else none

/-- The text with the characters between two offsets replaced, when both are boundaries in order. -/
def splice? (cs : List Char) (start stop : Nat) (replacement : List Char) : Option (List Char) :=
  if start ≤ stop then do
    let i ← charsBefore? cs start
    let j ← charsBefore? cs stop
    return cs.take i ++ replacement ++ cs.drop j
  else none

/-- The characters from a boundary to the end. -/
def dropBytes? (cs : List Char) (offset : Nat) : Option (List Char) :=
  (charsBefore? cs offset).map cs.drop

end LintMend.Text

namespace LintMend

/-- Length of a text in bytes. -/
def byteLength (s : String) : Nat := s.utf8ByteSize

/-- The text between two byte offsets, when both are boundaries in order. -/
def sliceBytes? (s : String) (start stop : Nat) : Option String :=
  (Text.slice? s.toList start stop).map String.ofList

/-- The text with the part between two byte offsets replaced. -/
def spliceBytes? (s : String) (start stop : Nat) (replacement : String) : Option String :=
  (Text.splice? s.toList start stop replacement.toList).map String.ofList

/-- The byte offset lies between two characters of the text. -/
def isByteBoundary (s : String) (offset : Nat) : Bool := Text.isBoundary s.toList offset

end LintMend
