import LintMend.Json.Value

/-!
# Writing JSON

A value on one line, or spread over lines with an indentation of two blanks. Only quotes,
backslashes and control characters are escaped.
-/

namespace LintMend.Json

/-- A hexadecimal digit in lower case. -/
def hexChar (n : Nat) : Char := Nat.digitChar n

/-- A character inside a string. -/
def escapeChar (c : Char) : List Char :=
  match c with
  | '"' => ['\\', '"']
  | '\\' => ['\\', '\\']
  | '\x08' => ['\\', 'b']
  | '\x0c' => ['\\', 'f']
  | '\n' => ['\\', 'n']
  | '\r' => ['\\', 'r']
  | '\t' => ['\\', 't']
  | c =>
    if c.toNat < 0x20 then ['\\', 'u', '0', '0', hexChar (c.toNat / 16), hexChar (c.toNat % 16)]
    else [c]

/-- A string with its quotes. -/
def quote (s : String) : String :=
  String.ofList ('"' :: s.toList.flatMap escapeChar ++ ['"'])

mutual

/-- The value on one line. -/
def compact : Json → String
  | .null | .broken => "null"
  | .bool b => if b then "true" else "false"
  | .integer n => toString n
  | .decimal spelling => spelling
  | .string s => quote s
  | .array items => "[" ++ ",".intercalate (compactItems items) ++ "]"
  | .object fields => "\x7b" ++ ",".intercalate (compactFields fields) ++ "\x7d"

def compactItems : List Json → List String
  | [] => []
  | item :: items => item.compact :: compactItems items

def compactFields : List (String × Json) → List String
  | [] => []
  | (key, value) :: fields => (quote key ++ ":" ++ value.compact) :: compactFields fields

end

/-- Lines between an opening and a closing sign, at a depth of indentation. -/
def spread (opening closing : String) (depth : Nat) (lines : List String) : String :=
  let indent (n : Nat) : String := String.ofList (List.replicate (2 * n) ' ')
  opening ++ "\n" ++ ",\n".intercalate (lines.map (indent (depth + 1) ++ ·)) ++ "\n" ++
    indent depth ++ closing

mutual

/-- The value over several lines, where the first line is already at the depth of indentation. -/
def prettyAt (depth : Nat) : Json → String
  | .array [] => "[]"
  | .object [] => "\x7b\x7d"
  | .array items => spread "[" "]" depth (prettyItems (depth + 1) items)
  | .object fields => spread "\x7b" "\x7d" depth (prettyFields (depth + 1) fields)
  | .null => "null"
  | .broken => "null"
  | .bool b => if b then "true" else "false"
  | .integer n => toString n
  | .decimal spelling => spelling
  | .string s => quote s

def prettyItems (depth : Nat) : List Json → List String
  | [] => []
  | item :: items => prettyAt depth item :: prettyItems depth items

def prettyFields (depth : Nat) : List (String × Json) → List String
  | [] => []
  | (key, value) :: fields =>
    (quote key ++ ": " ++ prettyAt depth value) :: prettyFields depth fields

end

/-- The value over several lines. -/
def pretty (j : Json) : String := j.prettyAt 0

end LintMend.Json
