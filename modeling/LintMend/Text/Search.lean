import LintMend.Text.Bytes

/-!
# Searching in text

Occurrences of one text in another, found from the left or from the right, and the pieces between
them. Offsets are in bytes.
-/

namespace LintMend.Text

/-- Byte offset of the first occurrence, where `base` bytes stand before the text. -/
def findFrom (needle : List Char) (base : Nat) : List Char → Option Nat
  | [] => if needle.isEmpty then some base else none
  | c :: cs =>
    if needle.isPrefixOf (c :: cs) then some base else findFrom needle (base + c.utf8Size) cs

/-- Byte offset of the first occurrence of `needle`. -/
def find? (needle cs : List Char) : Option Nat := findFrom needle 0 cs

/-- Byte offset of the last occurrence, where `base` bytes stand before the text and `last` is
the last one found there. -/
def rfindFrom (needle : List Char) (base : Nat) (last : Option Nat) : List Char → Option Nat
  | [] => if needle.isEmpty then some base else last
  | c :: cs =>
    rfindFrom needle (base + c.utf8Size)
      (if needle.isPrefixOf (c :: cs) then some base else last) cs

/-- Byte offset of the last occurrence of `needle`. -/
def rfind? (needle cs : List Char) : Option Nat := rfindFrom needle 0 none cs

/-- Some part of the text is `needle`. -/
def contains (needle cs : List Char) : Bool := (find? needle cs).isSome

/-- The pieces between the characters that satisfy `p`; one more piece than there are such
characters. -/
def splitWhen (p : Char → Bool) : List Char → List (List Char)
  | [] => [[]]
  | c :: cs =>
    if p c then [] :: splitWhen p cs
    else
      match splitWhen p cs with
      | [] => [[c]]
      | piece :: pieces => (c :: piece) :: pieces

/-- Lower case for the letters of ASCII only. -/
def lowerAscii (cs : List Char) : List Char := cs.map Char.toLower

end LintMend.Text

namespace LintMend

/-- Some part of `s` is `needle`. -/
def hasText (s needle : String) : Bool := Text.contains needle.toList s.toList

/-- The text starts with `start`. -/
def startsWithText (s start : String) : Bool := start.toList.isPrefixOf s.toList

/-- The text ends with `ending`. -/
def endsWithText (s ending : String) : Bool := ending.toList.isSuffixOf s.toList

/-- The pieces of `s` between the characters `c`. -/
def splitAtChar (s : String) (c : Char) : List String :=
  (Text.splitWhen (· == c) s.toList).map String.ofList

end LintMend
