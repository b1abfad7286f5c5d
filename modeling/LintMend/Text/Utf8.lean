/-!
# Where bytes stop being text

The first place at which a sequence of bytes is not UTF-8. A faulty sequence has a length: the bytes
that could still have begun a character. One that is cut off by the end of the bytes has none.
-/

namespace LintMend.Text

/-- The first fault of a sequence of bytes. -/
structure Utf8Fault where
  index : Nat
  length : Option Nat
deriving DecidableEq, Repr

/-- A byte that goes on with a character. -/
def isContinuation (b : UInt8) : Bool := 0x80 ≤ b && b ≤ 0xBF

/-- The second byte may follow the first. Overlong forms, surrogates and numbers that are too great
are ruled out by it. -/
def mayFollow (first second : UInt8) : Bool :=
  if first == 0xE0 then 0xA0 ≤ second && second ≤ 0xBF
  else if first == 0xED then 0x80 ≤ second && second ≤ 0x9F
  else if first == 0xF0 then 0x90 ≤ second && second ≤ 0xBF
  else if first == 0xF4 then 0x80 ≤ second && second ≤ 0x8F
  else isContinuation second

/-- Number of bytes of a character, by its first byte; zero if no character begins with it. -/
def widthOf (first : UInt8) : Nat :=
  if first < 0x80 then 1
  else if 0xC2 ≤ first && first ≤ 0xDF then 2
  else if 0xE0 ≤ first && first ≤ 0xEF then 3
  else if 0xF0 ≤ first && first ≤ 0xF4 then 4
  else 0

/-- Checks the bytes after the second of a character: `missing` are to come, `read` were read. -/
def tailFault? (index read : Nat) : Nat → List UInt8 → Option Utf8Fault
  | 0, _ => none
  | _ + 1, [] => some ⟨index, none⟩
  | missing + 1, b :: bs =>
    if isContinuation b then tailFault? index (read + 1) missing bs else some ⟨index, some read⟩

/-- The fault of the character at the front, if it has one. -/
def charFault? (index : Nat) (first : UInt8) (rest : List UInt8) : Option Utf8Fault :=
  match widthOf first with
  | 0 => some ⟨index, some 1⟩
  | 1 => none
  | width + 2 =>
    match rest with
    | [] => some ⟨index, none⟩
    | second :: rest =>
      if mayFollow first second then tailFault? index 2 width rest else some ⟨index, some 1⟩

/-- The first fault, where `index` bytes stand before; `skip` bytes of the last character are still
to be passed over. -/
def utf8FaultFrom (index skip : Nat) : List UInt8 → Option Utf8Fault
  | [] => none
  | b :: bs =>
    if 0 < skip then utf8FaultFrom (index + 1) (skip - 1) bs
    else
      match charFault? index b bs with
      | some fault => some fault
      | none => utf8FaultFrom (index + 1) (widthOf b - 1) bs

/-- The first fault of a sequence of bytes. -/
def utf8Fault? (bytes : List UInt8) : Option Utf8Fault := utf8FaultFrom 0 0 bytes

/-- The words for a fault. -/
def Utf8Fault.message (f : Utf8Fault) : String :=
  match f.length with
  | some length => s!"invalid utf-8 sequence of {length} bytes from index {f.index}"
  | none => s!"incomplete utf-8 byte sequence from index {f.index}"

end LintMend.Text
