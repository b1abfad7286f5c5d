import LintMend.Toml.Value

/-!
# Writing TOML

Tables become sections under headers; a section holds its plain values first and is left out if it
holds nothing but other sections. Arrays of several items take a line for each item. Strings are
written in the plainest way that needs no escapes.
-/

namespace LintMend.Toml

/-! ## Strings -/

/-- Length of the longest run of a character. -/
def longestRun (c : Char) (cs : List Char) : Nat :=
  (cs.foldl (fun (best, run) d => if d == c then (max best (run + 1), run + 1) else (best, 0))
    (0, 0)).1

/-- Control characters that have to be escaped wherever they stand. -/
def isControl (c : Char) : Bool :=
  (c.toNat ≤ 0x1F && c != '\t' && c != '\n') || c.toNat == 0x7F

/-- An escape with four hexadecimal digits in upper case. -/
def unicodeEscape (c : Char) : List Char :=
  let digit (n : Nat) : Char := (Nat.digitChar (n % 16)).toUpper
  let n := c.toNat
  ['\\', 'u', digit (n / 4096), digit (n / 256), digit (n / 16), digit n]

/-- The text between double quotes. In a block newlines stand for themselves and up to two quotes
in a row do; `quotes` have been written in a row. -/
def escapeFrom (inBlock : Bool) (quotes : Nat) : List Char → List Char
  | [] => []
  | '"' :: cs =>
    if inBlock && quotes < 2 then '"' :: escapeFrom inBlock (quotes + 1) cs
    else '\\' :: '"' :: escapeFrom inBlock 0 cs
  | '\n' :: cs => (if inBlock then ['\n'] else ['\\', 'n']) ++ escapeFrom inBlock 0 cs
  | c :: cs =>
    (match c with
      | '\x08' => ['\\', 'b']
      | '\t' => ['\\', 't']
      | '\x0c' => ['\\', 'f']
      | '\r' => ['\\', 'r']
      | '\\' => ['\\', '\\']
      | c => if isControl c then unicodeEscape c else [c]) ++ escapeFrom inBlock 0 cs

/-- A block in three quotes. A text of several lines starts on a line of its own. -/
def inBlock (quote : Char) (hasNewline : Bool) (body : List Char) : String :=
  let marks := List.replicate 3 quote
  String.ofList (marks ++ (if hasNewline then ['\n'] else []) ++ body ++ marks)

/-- A string: in double quotes if nothing needs an escape, else in single quotes, else in a block,
else with escapes. -/
def quoteText (s : String) : String :=
  let cs := s.toList
  let control := cs.any isControl
  let backslash := cs.contains '\\'
  let newline := cs.contains '\n'
  let doubles := longestRun '"' cs
  let singles := longestRun '\'' cs
  let basic := String.ofList ('"' :: escapeFrom false 0 cs ++ ['"'])
  if !control && !backslash && doubles == 0 && !newline then basic
  else if !control && singles == 0 && !newline then String.ofList ('\'' :: cs ++ ['\''])
  else if !control && !backslash && doubles ≤ 2 then inBlock '"' newline (escapeFrom true 0 cs)
  else if !control && singles ≤ 2 then inBlock '\'' newline cs
  else if newline then inBlock '"' newline (escapeFrom true 0 cs)
  else basic

/-- A key: bare if it can be, else in quotes. -/
def quoteKey (s : String) : String :=
  let cs := s.toList
  let isBare (c : Char) : Bool := c.isAlphanum || c == '-' || c == '_'
  let special := cs.any fun c => isControl c || c == '\n'
  if !cs.isEmpty && cs.all isBare then s
  else if !special && !cs.contains '\\' && !cs.contains '"' then
    String.ofList ('"' :: escapeFrom false 0 cs ++ ['"'])
  else if !special && !cs.contains '\'' then String.ofList ('\'' :: cs ++ ['\''])
  else String.ofList ('"' :: escapeFrom false 0 cs ++ ['"'])

/-! ## Values -/

def isTable : Toml → Bool
  | .table _ => true
  | _ => false

/-- An array some of whose items are tables. -/
def hasTables : Toml → Bool
  | .array items => items.any isTable
  | _ => false

/-- An array of tables and nothing else, which gets sections of its own. -/
def isSectionArray : Toml → Bool
  | .array items => !items.isEmpty && items.all isTable
  | _ => false

/-- The value gets a section of its own. -/
def isSection (v : Toml) : Bool := v.isTable || v.isSectionArray

/-- Entries of a table inside the options of a rule: those without tables, then arrays with tables,
then tables. -/
def arranged (entries : List (String × Toml)) : List (String × Toml) :=
  entries.filter (fun e => !e.2.isTable && !e.2.hasTables) ++
    entries.filter (fun e => e.2.hasTables) ++ entries.filter (fun e => e.2.isTable)

mutual

/-- A value on the right of an equals sign. -/
def inline : Toml → String
  | .string s => quoteText s
  | .integer n => toString n
  | .float x => x.render
  | .boolean b => if b then "true" else "false"
  | .datetime spelling => spelling
  | .array items =>
    match inlineItems items with
    | [] => "[]"
    | [item] => "[" ++ item ++ "]"
    | items => "[" ++ String.join (items.map fun item => "\n    " ++ item ++ ",") ++ "\n]"
  | .table entries =>
    let written := inlineEntries entries
    let plain (e : String × String × Bool × Bool) : Bool := !e.2.2.1 && !e.2.2.2
    let ordered := written.filter plain ++ written.filter (fun e => e.2.2.2) ++
      written.filter (fun e => e.2.2.1)
    match ordered with
    | [] => "\x7b\x7d"
    | ordered =>
      "\x7b " ++ ", ".intercalate (ordered.map fun e => e.1 ++ " = " ++ e.2.1) ++ " \x7d"

def inlineItems : List Toml → List String
  | [] => []
  | item :: items => item.inline :: inlineItems items

/-- Entries as key and value, each with whether it is a table and whether it is an array with
tables. -/
def inlineEntries : List (String × Toml) → List (String × String × Bool × Bool)
  | [] => []
  | (key, v) :: entries =>
    (quoteKey key, v.inline, v.isTable, v.hasTables) :: inlineEntries entries

end

/-! ## Sections -/

/-- A section: the header, unless it is the root or left out, and its lines. -/
structure Section where
  header : Option String
  lines : List String

/-- The lines of the plain values of a table. -/
def plainLines (entries : List (String × Toml)) : List String :=
  (entries.filter fun e => !e.2.isSection).map fun e => quoteKey e.1 ++ " = " ++ e.2.inline

/-- The section of a table itself. It is left out if it holds nothing but other sections. -/
def ownSection (path : List String) (inArray : Bool) (entries : List (String × Toml)) : Section :=
  let lines := plainLines entries
  let name := ".".intercalate (path.map quoteKey)
  if path.isEmpty then ⟨none, lines⟩
  else if inArray then ⟨some ("[[" ++ name ++ "]]"), lines⟩
  else if lines.isEmpty && !entries.isEmpty then ⟨none, []⟩
  else ⟨some ("[" ++ name ++ "]"), lines⟩

mutual

/-- The sections of a value under a path. The entries of tables inside it are arranged. -/
def sections (path : List String) : Toml → List Section
  | .table entries => ownSection path false (arranged entries) :: tableSections path entries
  | .array items => arraySections path items
  | _ => []

/-- The sections inside a table: those of arrays of tables, then those of tables. -/
def tableSections (path : List String) (entries : List (String × Toml)) : List Section :=
  arrayEntrySections path entries ++ tableEntrySections path entries

def arrayEntrySections (path : List String) : List (String × Toml) → List Section
  | [] => []
  | (key, v) :: rest =>
    (if v.isSectionArray then v.sections (path ++ [key]) else []) ++ arrayEntrySections path rest

def tableEntrySections (path : List String) : List (String × Toml) → List Section
  | [] => []
  | (key, v) :: rest =>
    (if v.isTable then v.sections (path ++ [key]) else []) ++ tableEntrySections path rest

/-- The sections of the items of an array of tables. -/
def arraySections (path : List String) : List Toml → List Section
  | [] => []
  | .table entries :: rest =>
    ownSection path true (arranged entries) :: tableSections path entries ++ arraySections path rest
  | _ :: rest => arraySections path rest

end

/-- The text of sections. An empty line stands before each header but the first. -/
def renderSections (sections : List Section) : String :=
  (sections.foldl (fun (text, first) s =>
    match s.header with
    | none => (text ++ String.join (s.lines.map (· ++ "\n")), first && s.lines.isEmpty)
    | some header =>
      (text ++ (if first then "" else "\n") ++ header ++ "\n" ++
        String.join (s.lines.map (· ++ "\n")), false)) ("", true)).1

end LintMend.Toml
