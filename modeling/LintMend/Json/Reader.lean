import LintMend.Json.Value
import LintMend.Text.Blank

/-!
# Reading JSON

A reader of one value and nothing after it but white space. Arrays and objects are read with fuel
that every item uses up; as every item takes a character, the length of the text is enough.

Values may nest to any depth. A limit on the depth, such as the 128 levels of other readers, would
make no difference to what is read: such a limit holds for the values that are kept, those of a
model nest to a fixed depth far below it, and the fields that are passed over have none.
-/

namespace LintMend.Json

open Text (hexDigit?)

/-- White space between the signs of a text. -/
def isSpace (c : Char) : Bool := c == ' ' || c == '\n' || c == '\t' || c == '\r'

def skipSpace (cs : List Char) : List Char := cs.dropWhile isSpace

/-- The number that four hexadecimal digits write. -/
def fourHex? : List Char → Option (Nat × List Char)
  | a :: b :: c :: d :: rest => do
    let a ← hexDigit? a
    let b ← hexDigit? b
    let c ← hexDigit? c
    let d ← hexDigit? d
    return (((a * 16 + b) * 16 + c) * 16 + d, rest)
  | _ => none

def isHighSurrogate (n : Nat) : Bool := 0xD800 ≤ n && n ≤ 0xDBFF

def isLowSurrogate (n : Nat) : Bool := 0xDC00 ≤ n && n ≤ 0xDFFF

/-- The character that two surrogates name. -/
def joinSurrogates (high low : Nat) : Char :=
  Char.ofNat ((high - 0xD800) * 0x400 + (low - 0xDC00) + 0x10000)

/-- What a single character after a backslash stands for. -/
def shortEscape? : Char → Option Char
  | '"' => some '"'
  | '\\' => some '\\'
  | '/' => some '/'
  | 'b' => some '\x08'
  | 'f' => some '\x0c'
  | 'n' => some '\n'
  | 'r' => some '\r'
  | 't' => some '\t'
  | _ => none

/-- Reads the rest of a string of which `done` was read, last first; `whole` says that no half of a
surrogate pair was among it. -/
def readStringFrom (fuel : Nat) (done : List Char) (whole : Bool) :
    List Char → Option (Option String × List Char)
  | [] => none
  | c :: cs =>
    match fuel with
    | 0 => none
    | fuel + 1 =>
      if c == '"' then some (if whole then some (String.ofList done.reverse) else none, cs)
      else if c == '\\' then
        match cs with
        | 'u' :: cs =>
          match fourHex? cs with
          | none => none
          | some (n, cs) =>
            if isLowSurrogate n then readStringFrom fuel done false cs
            else if isHighSurrogate n then
              match cs with
              | '\\' :: 'u' :: after =>
                match fourHex? after with
                | some (m, rest) =>
                  if isLowSurrogate m then
                    readStringFrom fuel (joinSurrogates n m :: done) whole rest
                  else readStringFrom fuel done false cs
                | none => none
              | _ => readStringFrom fuel done false cs
            else readStringFrom fuel (Char.ofNat n :: done) whole cs
        | e :: cs =>
          match shortEscape? e with
          | some c => readStringFrom fuel (c :: done) whole cs
          | none => none
        | [] => none
      else if c.toNat < 0x20 then none
      else readStringFrom fuel (c :: done) whole cs

/-- Reads a string after its opening quote. The text is missing if it escapes half of a surrogate
pair. -/
def readString (cs : List Char) : Option (Option String × List Char) :=
  readStringFrom (cs.length + 1) [] true cs

def isDigit (c : Char) : Bool := '0' ≤ c && c ≤ '9'

/-- The number that digits write. -/
def natOfDigits (ds : List Char) : Nat :=
  ds.foldl (fun n d => n * 10 + (d.toNat - '0'.toNat)) 0

/-- The digits at the front, of which there has to be one. -/
def digits? (cs : List Char) : Option (List Char × List Char) :=
  match cs.takeWhile isDigit with
  | [] => none
  | ds => some (ds, cs.dropWhile isDigit)

/-- The fraction of a number, with its point; empty if there is none. -/
def fraction? : List Char → Option (List Char × List Char)
  | '.' :: cs => (digits? cs).map fun (ds, rest) => ('.' :: ds, rest)
  | cs => some ([], cs)

/-- The exponent of a number, with its mark; empty if there is none. -/
def exponent? : List Char → Option (List Char × List Char)
  | c :: cs =>
    if c == 'e' || c == 'E' then
      let (sign, cs) :=
        match cs with
        | '+' :: cs => (['+'], cs)
        | '-' :: cs => (['-'], cs)
        | cs => ([], cs)
      (digits? cs).map fun (ds, rest) => (c :: sign ++ ds, rest)
    else some ([], c :: cs)
  | [] => some ([], [])

/-- The sign of a number: whether it is a minus, and the text after it. -/
def splitSign : List Char → Bool × List Char
  | '-' :: cs => (true, cs)
  | cs => (false, cs)

/-- The digits before a fraction or an exponent. A zero stands alone. -/
def whole? : List Char → Option (List Char × List Char)
  | '0' :: cs => some (['0'], cs)
  | cs => digits? cs

/-- Reads a number. -/
def readNumber (cs : List Char) : Option (Json × List Char) := do
  let (negative, cs) := splitSign cs
  let (whole, cs) ← whole? cs
  let (fraction, cs) ← fraction? cs
  let (exponent, cs) ← exponent? cs
  let n := natOfDigits whole
  if fraction.isEmpty && exponent.isEmpty && !(negative && n == 0) then
    return (.integer (if negative then -n else n), cs)
  else
    let sign := if negative then ['-'] else []
    return (.decimal (String.ofList (sign ++ whole ++ fraction ++ exponent)), cs)

/-- The rest of a text that starts with a word. -/
def afterWord? (word : String) (cs : List Char) : Option (List Char) :=
  if word.toList.isPrefixOf cs then some (cs.drop word.length) else none

/-- The object of fields read, last first. A key without text breaks it. -/
def objectOf (fields : List (Option String × Json)) : Json :=
  match fields.reverse.mapM fun (key, value) => key.map fun k => (k, value) with
  | some fields => .object fields
  | none => .broken

mutual

/-- Reads a value, after white space. -/
def readValue (fuel : Nat) (cs : List Char) : Option (Json × List Char) :=
  match fuel with
  | 0 => none
  | fuel + 1 =>
    match skipSpace cs with
    | '"' :: cs =>
      (readString cs).map fun (text, rest) =>
        match text with
        | some s => (.string s, rest)
        | none => (.broken, rest)
    | '[' :: cs =>
      match skipSpace cs with
      | ']' :: rest => some (.array [], rest)
      | cs => readItems fuel [] cs
    | '\x7b' :: cs =>
      match skipSpace cs with
      | '\x7d' :: rest => some (.object [], rest)
      | cs => readFields fuel [] cs
    | 't' :: cs => (afterWord? "rue" cs).map fun rest => (.bool true, rest)
    | 'f' :: cs => (afterWord? "alse" cs).map fun rest => (.bool false, rest)
    | 'n' :: cs => (afterWord? "ull" cs).map fun rest => (.null, rest)
    | cs => readNumber cs

/-- Reads the rest of an array, of which `done` was read, last first. -/
def readItems (fuel : Nat) (done : List Json) (cs : List Char) : Option (Json × List Char) :=
  match fuel with
  | 0 => none
  | fuel + 1 =>
    match readValue fuel cs with
    | none => none
    | some (item, rest) =>
      match skipSpace rest with
      | ',' :: rest => readItems fuel (item :: done) rest
      | ']' :: rest => some (.array (item :: done).reverse, rest)
      | _ => none

/-- Reads the rest of an object, of which `done` was read, last first. -/
def readFields (fuel : Nat) (done : List (Option String × Json)) (cs : List Char) :
    Option (Json × List Char) :=
  match fuel with
  | 0 => none
  | fuel + 1 =>
    match skipSpace cs with
    | '"' :: cs =>
      match readString cs with
      | none => none
      | some (key, rest) =>
        match skipSpace rest with
        | ':' :: rest =>
          match readValue fuel rest with
          | none => none
          | some (value, rest) =>
            match skipSpace rest with
            | ',' :: rest => readFields fuel ((key, value) :: done) rest
            | '\x7d' :: rest => some (objectOf ((key, value) :: done), rest)
            | _ => none
        | _ => none
    | _ => none

end

/-- The value that a text writes, if it writes one and nothing else. -/
def parse? (s : String) : Option Json := do
  let cs := s.toList
  let (value, rest) ← readValue (2 * cs.length + 2) cs
  if (skipSpace rest).isEmpty then return value else none

end LintMend.Json
