import LintMend.Text.Blank
import LintMend.Toml.Value

/-!
# Reading TOML

The text of a document is read into sections: a header and the pairs of keys and values under it.
The sections are then put together to one table. A table is made once: by a header, by dotted keys,
or by what is written inside it; a table that only stands on the way to another may still be made.

Reading a part of the text gives what was read and the rest of the text.
-/

namespace LintMend.Toml

open Text (hexDigit?)

/-! ## White space and comments -/

/-- White space inside a line. -/
def isWhite (c : Char) : Bool := c == ' ' || c == '\t'

def skipWhite (cs : List Char) : List Char := cs.dropWhile isWhite

/-- Characters that may stand in a comment. -/
def isCommentChar (c : Char) : Bool := c == '\t' || (0x20 ≤ c.toNat && c.toNat != 0x7F)

/-- The rest after the end of a line. -/
def newline? : List Char → Option (List Char)
  | '\n' :: cs => some cs
  | '\r' :: '\n' :: cs => some cs
  | _ => none

/-- The rest after a comment, if there is one. -/
def skipComment : List Char → List Char
  | '#' :: cs => cs.dropWhile isCommentChar
  | cs => cs

/-- The rest after what may end a line: white space, a comment, and a newline or the end of the
text. -/
def lineEnd? (cs : List Char) : Option (List Char) :=
  match skipComment (skipWhite cs) with
  | [] => some []
  | cs => newline? cs

/-- Skips white space, comments and newlines. -/
def skipLines (fuel : Nat) (cs : List Char) : List Char :=
  match fuel with
  | 0 => cs
  | fuel + 1 =>
    let rest := skipComment (skipWhite cs)
    match newline? rest with
    | some after => skipLines fuel after
    | none => rest

/-! ## Strings -/

/-- The number that hexadecimal digits write. -/
def hexNumber? (ds : List Char) : Option Nat :=
  ds.foldlM (fun n d => (hexDigit? d).map (n * 16 + ·)) 0

/-- The character that a given number of hexadecimal digits names. -/
def codePoint? (count : Nat) (cs : List Char) : Option (Char × List Char) := do
  let ds := cs.take count
  if ds.length < count then none
  else
    let n ← hexNumber? ds
    if n.isValidChar then return (Char.ofNat n, cs.drop count) else none

/-- The character that an escape stands for, after its backslash. -/
def escape? : List Char → Option (Char × List Char)
  | 'b' :: cs => some ('\x08', cs)
  | 't' :: cs => some ('\t', cs)
  | 'n' :: cs => some ('\n', cs)
  | 'f' :: cs => some ('\x0c', cs)
  | 'r' :: cs => some ('\r', cs)
  | '"' :: cs => some ('"', cs)
  | '\\' :: cs => some ('\\', cs)
  | 'u' :: cs => codePoint? 4 cs
  | 'U' :: cs => codePoint? 8 cs
  | _ => none

/-- Characters that may stand in a string as they are. -/
def isPlain (c : Char) : Bool := isCommentChar c

/-- Reads the rest of a string in double quotes; `done` was read, last first. -/
def basicString? (fuel : Nat) (done : List Char) (cs : List Char) : Option (String × List Char) :=
  match fuel, cs with
  | fuel + 1, c :: cs =>
    if c == '"' then some (String.ofList done.reverse, cs)
    else if c == '\\' then
      match escape? cs with
      | some (e, rest) => basicString? fuel (e :: done) rest
      | none => none
    else if isPlain c then basicString? fuel (c :: done) cs
    else none
  | _, _ => none

/-- A string in single quotes, after the first of them. -/
def literalString? (cs : List Char) : Option (String × List Char) :=
  match cs.dropWhile fun c => c != '\'' && isPlain c with
  | '\'' :: rest =>
    some (String.ofList (cs.takeWhile fun c => c != '\'' && isPlain c), rest)
  | _ => none

/-- Skips the rest of a line after a backslash, and white space and newlines after it. -/
def skipContinuation (fuel : Nat) (cs : List Char) : List Char :=
  match fuel with
  | 0 => cs
  | fuel + 1 =>
    match newline? (skipWhite cs) with
    | some rest => skipContinuation fuel rest
    | none => skipWhite cs

/-- Reads the rest of a string in three quotes of a kind; `done` was read, last first. Up to two
quotes may stand before the closing ones. -/
def blockString? (quote : Char) (fuel : Nat) (done : List Char) (cs : List Char) :
    Option (String × List Char) :=
  match fuel with
  | 0 => none
  | fuel + 1 =>
    match newline? cs with
    | some rest => blockString? quote fuel ('\n' :: done) rest
    | none =>
      match cs with
      | [] => none
      | c :: rest =>
        if c == quote then
          let count := (cs.takeWhile (· == quote)).length
          if count < 3 then blockString? quote fuel (c :: done) rest
          else if count ≤ 5 then
            some (String.ofList (List.replicate (count - 3) quote ++ done).reverse, cs.drop count)
          else none
        else if c == '\\' && quote == '"' then
          match newline? (skipWhite rest) with
          | some after => blockString? quote fuel done (skipContinuation fuel after)
          | none =>
            match escape? rest with
            | some (e, rest) => blockString? quote fuel (e :: done) rest
            | none => none
        else if isPlain c then blockString? quote fuel (c :: done) rest
        else none

/-- A string after an opening quote of three; a newline right after it does not count. -/
def block? (quote : Char) (cs : List Char) : Option (String × List Char) :=
  blockString? quote (cs.length + 1) [] ((newline? cs).getD cs)

/-- A string of any kind. -/
def anyString? : List Char → Option (String × List Char)
  | '"' :: '"' :: '"' :: cs => block? '"' cs
  | '\'' :: '\'' :: '\'' :: cs => block? '\'' cs
  | '"' :: cs => basicString? (cs.length + 1) [] cs
  | '\'' :: cs => literalString? cs
  | _ => none

/-! ## Keys -/

/-- Characters of keys that need no quotes. -/
def isBare (c : Char) : Bool := c.isAlphanum || c == '-' || c == '_'

/-- A key without dots. -/
def simpleKey? : List Char → Option (String × List Char)
  | '"' :: cs => basicString? (cs.length + 1) [] cs
  | '\'' :: cs => literalString? cs
  | cs =>
    match cs.takeWhile isBare with
    | [] => none
    | key => some (String.ofList key, cs.dropWhile isBare)

/-- Nesting beyond this depth is refused. -/
def depthLimit : Nat := 80

/-- The parts of a dotted key, with white space around them. -/
def keyParts? (fuel : Nat) (cs : List Char) : Option (List String × List Char) :=
  match fuel with
  | 0 => none
  | fuel + 1 =>
    match simpleKey? (skipWhite cs) with
    | none => none
    | some (key, rest) =>
      match skipWhite rest with
      | '.' :: rest => (keyParts? fuel rest).map fun (keys, rest) => (key :: keys, rest)
      | rest => some ([key], rest)

/-- A dotted key: the keys on the way, and the last one. -/
def key? (cs : List Char) : Option ((List String × String) × List Char) := do
  let (parts, rest) ← keyParts? (cs.length + 1) cs
  if parts.length < depthLimit then return ((parts.dropLast, ← parts.getLast?), rest) else none

/-! ## Numbers -/

def isDecimal (c : Char) : Bool := '0' ≤ c && c ≤ '9'

/-- Digits of a kind, where an underscore may stand between two; they are given without
underscores. At least one digit has to be there. -/
def digitRun? (isDigit : Char → Bool) : List Char → Option (List Char × List Char)
  | c :: '_' :: d :: cs =>
    if isDigit c then
      if isDigit d then (digitRun? isDigit (d :: cs)).map fun (ds, rest) => (c :: ds, rest)
      else none
    else none
  | [_, '_'] => none
  | c :: d :: cs =>
    if isDigit c then
      if isDigit d then (digitRun? isDigit (d :: cs)).map fun (ds, rest) => (c :: ds, rest)
      else some ([c], d :: cs)
    else none
  | [c] => if isDigit c then some ([c], []) else none
  | [] => none

/-- The number that decimal digits write. -/
def decimalOf (ds : List Char) : Nat :=
  ds.foldl (fun n d => n * 10 + (d.toNat - '0'.toNat)) 0

/-- A sign, and whether it is a minus. -/
def sign : List Char → Bool × List Char
  | '-' :: cs => (true, cs)
  | '+' :: cs => (false, cs)
  | cs => (false, cs)

/-- Decimal digits of which the first is not zero unless it is the only one. -/
def wholeDigits? : List Char → Option (List Char × List Char)
  | '0' :: cs => some (['0'], cs)
  | cs => digitRun? isDecimal cs

/-- The exponent of a float, zero if there is none; tells whether there is one. -/
def exponent? : List Char → Option (Option Int × List Char)
  | c :: cs =>
    if c == 'e' || c == 'E' then do
      let (negative, cs) := sign cs
      let (ds, rest) ← digitRun? isDecimal cs
      let n : Int := decimalOf ds
      return (some (if negative then -n else n), rest)
    else some (none, c :: cs)
  | [] => some (none, [])

/-- A float. It has a fraction or an exponent; positive ones beyond the range are refused. -/
def float? (cs : List Char) : Option (Option Toml × List Char) := do
  let (negative, cs) := sign cs
  let (whole, cs) ← wholeDigits? cs
  match cs with
  | '.' :: rest =>
    let (fraction, rest) ← digitRun? isDecimal rest
    let (exponent, rest) ← exponent? rest
    finish negative (whole ++ fraction) (exponent.getD 0 - fraction.length) rest
  | _ =>
    let (exponent, rest) ← exponent? cs
    match exponent with
    | some e => finish negative whole e rest
    | none => return (none, rest)
where
  /-- The nearest number. -/
  finish (negative : Bool) (ds : List Char) (e : Int) (rest : List Char) :
      Option (Option Toml × List Char) :=
    match Double.ofDecimal negative (decimalOf ds) e with
    | .infinite false => none
    | x => some (some (.float x), rest)

/-- An integer that fits 64 bits with a sign. -/
def int64? (n : Int) : Option Toml :=
  if -signedLimit ≤ n ∧ n < signedLimit then some (.integer n) else none

/-- An integer in the base of its letter. -/
def basedInteger? (base : Nat) (cs : List Char) : Option (Toml × List Char) := do
  let (ds, rest) ← digitRun? (fun c => (hexDigit? c).any (· < base)) cs
  let n := ds.foldl (fun n d => n * base + (hexDigit? d).getD 0) 0
  return (← int64? n, rest)

/-- An integer. -/
def integer? : List Char → Option (Toml × List Char)
  | '0' :: 'x' :: cs => basedInteger? 16 cs
  | '0' :: 'o' :: cs => basedInteger? 8 cs
  | '0' :: 'b' :: cs => basedInteger? 2 cs
  | cs => do
    let (negative, cs) := sign cs
    let (ds, rest) ← wholeDigits? cs
    let n : Int := decimalOf ds
    return (← int64? (if negative then -n else n), rest)

/-! ## Dates and times -/

/-- Exactly so many decimal digits. -/
def digits? (count : Nat) (cs : List Char) : Option (Nat × List Char) :=
  let ds := cs.take count
  if ds.length = count ∧ ds.all isDecimal then some (decimalOf ds, cs.drop count) else none

def isLeapYear (year : Nat) : Bool := year % 4 == 0 && (year % 100 != 0 || year % 400 == 0)

def daysIn (year month : Nat) : Nat :=
  match month with
  | 2 => if isLeapYear year then 29 else 28
  | 4 | 6 | 9 | 11 => 30
  | _ => 31

/-- A number with zeros in front up to a width. -/
def padded (width n : Nat) : String :=
  let ds := Nat.toDigits 10 n
  String.ofList (List.replicate (width - ds.length) '0' ++ ds)

/-- The text begins like a date. -/
def looksLikeDate (cs : List Char) : Bool :=
  (digits? 4 cs).isSome && cs[4]? == some '-'

/-- The text begins like a time of day. -/
def looksLikeTime (cs : List Char) : Bool :=
  match digits? 2 cs with
  | some (hour, ':' :: _) => hour ≤ 23
  | _ => false

/-- A date in its usual spelling. -/
def date? (cs : List Char) : Option (String × List Char) := do
  let (year, cs) ← digits? 4 cs
  match cs with
  | '-' :: cs =>
    let (month, cs) ← digits? 2 cs
    match cs with
    | '-' :: cs =>
      let (day, cs) ← digits? 2 cs
      if 1 ≤ month ∧ month ≤ 12 ∧ 1 ≤ day ∧ day ≤ daysIn year month then
        return (s!"{padded 4 year}-{padded 2 month}-{padded 2 day}", cs)
      else none
    | _ => none
  | _ => none

/-- A fraction of a second in its usual spelling: nine digits at most and no zeros at the end. -/
def secondFraction? : List Char → Option (String × List Char)
  | '.' :: cs =>
    match cs.takeWhile isDecimal with
    | [] => none
    | ds =>
      let kept := ((ds.take 9).reverse.dropWhile (· == '0')).reverse
      some (if kept.isEmpty then "" else "." ++ String.ofList kept, cs.dropWhile isDecimal)
  | cs => some ("", cs)

/-- A time of day in its usual spelling. -/
def time? (cs : List Char) : Option (String × List Char) := do
  let (hour, cs) ← digits? 2 cs
  match cs with
  | ':' :: cs =>
    let (minute, cs) ← digits? 2 cs
    match cs with
    | ':' :: cs =>
      let (second, cs) ← digits? 2 cs
      let (fraction, rest) ← secondFraction? cs
      if hour ≤ 23 ∧ minute ≤ 59 ∧ second ≤ 60 then
        return (s!"{padded 2 hour}:{padded 2 minute}:{padded 2 second}{fraction}", rest)
      else none
    | _ => none
  | _ => none

/-- The distance from universal time in its usual spelling; empty if there is none. -/
def offset? : List Char → Option (String × List Char)
  | c :: cs =>
    if c == 'Z' || c == 'z' then some ("Z", cs)
    else if c == '+' || c == '-' then do
      let (hour, cs) ← digits? 2 cs
      match cs with
      | ':' :: cs =>
        let (minute, rest) ← digits? 2 cs
        if hour ≤ 23 ∧ minute ≤ 59 then
          let mark := if c == '-' && hour + minute != 0 then "-" else "+"
          return (s!"{mark}{padded 2 hour}:{padded 2 minute}", rest)
        else none
      | _ => none
    else some ("", c :: cs)
  | [] => some ("", [])

/-- A date, a time, or both. -/
def datetime? (cs : List Char) : Option (Toml × List Char) := do
  if looksLikeDate cs then
    let (date, rest) ← date? cs
    match rest with
    | c :: after =>
      if (c == 'T' || c == 't' || c == ' ') && looksLikeTime after then
        let (time, rest) ← time? after
        let (offset, rest) ← offset? rest
        return (.datetime s!"{date}T{time}{offset}", rest)
      else return (.datetime date, rest)
    | [] => return (.datetime date, rest)
  else
    let (time, rest) ← time? cs
    return (.datetime time, rest)

/-! ## Tables -/

/-- A table being put together. It is *passing* if it only stands on the way to another one, and
*dotted* if dotted keys made it. -/
inductive Draft where
  | value (v : Toml)
  | table (passing dotted : Bool) (entries : List (String × Draft))
  | tables (items : List (List (String × Draft)))

namespace Draft

/-- Entries with the value of a key set, in place if the key is there. -/
def set (key : String) (d : Draft) : List (String × Draft) → List (String × Draft)
  | [] => [(key, d)]
  | (k, e) :: rest => if k == key then (key, d) :: rest else (k, e) :: set key d rest

/-- Changes the table to which a path leads. Missing tables on the way are made. Dotted keys do not
lead into tables that were made otherwise; a path into an array of tables leads to the last one. -/
def descend (dotted : Bool)
    (change : Bool → List (String × Draft) → Option (List (String × Draft))) :
    List String → Bool → List (String × Draft) → Option (List (String × Draft))
  | [], here, entries => change here entries
  | key :: path, _, entries => do
    match lookup? entries key with
    | none =>
      let inner ← descend dotted change path dotted []
      return set key (.table true dotted inner) entries
    | some (.value _) => none
    | some (.table passing wasDotted inner) =>
      if dotted && !passing then none
      else
        let inner ← descend dotted change path wasDotted inner
        return set key (.table passing wasDotted inner) entries
    | some (.tables items) =>
      let last ← items.getLast?
      let inner ← descend dotted change path false last
      return set key (.tables (items.dropLast ++ [inner])) entries

/-- Adds a pair under a dotted key to a table. -/
def addPair (path : List String) (key : String) (v : Toml) (entries : List (String × Draft)) :
    Option (List (String × Draft)) :=
  descend true (fun here inner =>
    if here == path.isEmpty then none
    else if (lookup? inner key).isSome then none
    else some (inner ++ [(key, .value v)])) path false entries

/-- Adds pairs to a table. -/
def addPairs (pairs : List ((List String × String) × Toml)) (entries : List (String × Draft)) :
    Option (List (String × Draft)) :=
  pairs.foldlM (fun entries ((path, key), v) => addPair path key v entries) entries

mutual

/-- The value of what was put together. -/
def toToml : Draft → Toml
  | .value v => v
  | .table _ _ entries => .table (sortEntries (entriesToToml entries))
  | .tables items => .array (itemsToToml items)

def entriesToToml : List (String × Draft) → List (String × Toml)
  | [] => []
  | (key, d) :: rest => (key, d.toToml) :: entriesToToml rest

def itemsToToml : List (List (String × Draft)) → List Toml
  | [] => []
  | entries :: rest => .table (sortEntries (entriesToToml entries)) :: itemsToToml rest

end

end Draft

/-- The table of the pairs written inside braces. -/
def inlineTable? (pairs : List ((List String × String) × Toml)) : Option Toml :=
  (Draft.addPairs pairs []).map fun entries =>
    .table (sortEntries (Draft.entriesToToml entries))

/-! ## Values -/

/-- A value that starts with a sign or a digit. -/
def numeric? (cs : List Char) : Option (Toml × List Char) :=
  if looksLikeDate cs || looksLikeTime cs then datetime? cs
  else
    let (negative, rest) := sign cs
    match rest with
    | 'i' :: 'n' :: 'f' :: rest => some (.float (.infinite negative), rest)
    | 'n' :: 'a' :: 'n' :: rest => some (.float .nan, rest)
    | _ =>
      match cs with
      | '0' :: 'x' :: _ | '0' :: 'o' :: _ | '0' :: 'b' :: _ => integer? cs
      | _ =>
        match float? cs with
        | some (some x, rest) => some (x, rest)
        | some (none, _) => integer? cs
        | none => none

mutual

/-- A value; `depth` arrays and tables are around it. -/
def value? (fuel depth : Nat) (cs : List Char) : Option (Toml × List Char) :=
  match fuel with
  | 0 => none
  | fuel + 1 =>
    match cs with
    | '[' :: cs => if depth + 1 < depthLimit then items? fuel (depth + 1) [] cs else none
    | '\x7b' :: cs =>
      if depth + 1 < depthLimit then
        match skipWhite cs with
        | '\x7d' :: rest => some (.table [], rest)
        | cs => pairs? fuel (depth + 1) [] cs
      else none
    | 't' :: 'r' :: 'u' :: 'e' :: rest => some (.boolean true, rest)
    | 'f' :: 'a' :: 'l' :: 's' :: 'e' :: rest => some (.boolean false, rest)
    | 'i' :: 'n' :: 'f' :: rest => some (.float (.infinite false), rest)
    | 'n' :: 'a' :: 'n' :: rest => some (.float .nan, rest)
    | c :: _ =>
      if c == '"' || c == '\'' then (anyString? cs).map fun (s, rest) => (.string s, rest)
      else if c == '+' || c == '-' || isDecimal c then numeric? cs
      else none
    | [] => none

/-- The rest of an array, of which `done` was read, last first. -/
def items? (fuel depth : Nat) (done : List Toml) (cs : List Char) : Option (Toml × List Char) :=
  match fuel with
  | 0 => none
  | fuel + 1 =>
    match skipLines (cs.length + 1) cs with
    | ']' :: rest => some (.array done.reverse, rest)
    | cs =>
      match value? fuel depth cs with
      | none => none
      | some (item, rest) =>
        match skipLines (rest.length + 1) rest with
        | ',' :: rest => items? fuel depth (item :: done) rest
        | ']' :: rest => some (.array (item :: done).reverse, rest)
        | _ => none

/-- The rest of a table in braces, of which `done` was read, last first. -/
def pairs? (fuel depth : Nat) (done : List ((List String × String) × Toml)) (cs : List Char) :
    Option (Toml × List Char) :=
  match fuel with
  | 0 => none
  | fuel + 1 =>
    match key? cs with
    | none => none
    | some (key, rest) =>
      match skipWhite rest with
      | '=' :: rest =>
        match value? fuel depth (skipWhite rest) with
        | none => none
        | some (v, rest) =>
          match skipWhite rest with
          | ',' :: rest => pairs? fuel depth ((key, v) :: done) rest
          | '\x7d' :: rest =>
            (inlineTable? ((key, v) :: done).reverse).map fun table => (table, rest)
          | _ => none
      | _ => none

end

/-! ## Documents -/

/-- A line of a document that is not empty. -/
inductive Line where
  | pair (key : List String × String) (value : Toml)
  | header (path : List String × String)
  | arrayHeader (path : List String × String)

/-- A header after its opening bracket. -/
def header? (cs : List Char) : Option (Line × List Char) :=
  match cs with
  | '[' :: cs => do
    let (path, rest) ← key? cs
    match rest with
    | ']' :: ']' :: rest => return (.arrayHeader path, rest)
    | _ => none
  | cs => do
    let (path, rest) ← key? cs
    match rest with
    | ']' :: rest => return (.header path, rest)
    | _ => none

/-- A pair of a key and a value. -/
def pair? (cs : List Char) : Option (Line × List Char) := do
  let (key, rest) ← key? cs
  match skipWhite rest with
  | '=' :: rest =>
    let rest := skipWhite rest
    let (v, rest) ← value? (2 * rest.length + 2) 0 rest
    return (.pair key v, rest)
  | _ => none

/-- The lines of a document. -/
def lines? (fuel : Nat) (done : List Line) (cs : List Char) : Option (List Line) :=
  match fuel with
  | 0 => none
  | fuel + 1 =>
    match skipLines (cs.length + 1) cs with
    | [] => some done.reverse
    | cs =>
      let line :=
        match cs with
        | '[' :: rest => header? rest
        | cs => pair? cs
      match line with
      | none => none
      | some (line, rest) =>
        match lineEnd? rest with
        | some rest => lines? fuel (line :: done) rest
        | none => none

/-- Where pairs go: the root table, a table, or the last item of an array of tables. The table that
is being filled is kept apart from the rest. -/
structure Filling where
  root : List (String × Draft) := []
  path : Option (List String × String) := none
  inArray : Bool := false
  current : List (String × Draft) := []

namespace Filling

/-- Puts the table that was being filled in its place. -/
def close? (f : Filling) : Option (List (String × Draft)) :=
  match f.path with
  | none => some f.current
  | some (path, key) =>
    Draft.descend false (fun _ entries =>
      if f.inArray then
        match lookup? entries key with
        | none => some (Draft.set key (.tables [f.current]) entries)
        | some (.tables items) => some (Draft.set key (.tables (items ++ [f.current])) entries)
        | some _ => none
      else some (Draft.set key (.table false false f.current) entries)) path false f.root

/-- The entries of a table that a header is to make. It must not be there, or only be passing. -/
def startOf? (key : String) (entries : List (String × Draft)) : Option (List (String × Draft)) :=
  match lookup? entries key with
  | none => some []
  | some (.table true false inner) => some inner
  | some _ => none

/-- The table to which a path leads. -/
def follow? : List String → List (String × Draft) → Option (List (String × Draft))
  | [], entries => some entries
  | key :: path, entries =>
    match lookup? entries key with
    | none => some []
    | some (.value _) => none
    | some (.table _ _ inner) => follow? path inner
    | some (.tables items) => items.getLast?.bind (follow? path)

/-- Takes in one line. -/
def step? (f : Filling) : Line → Option Filling
  | .pair (path, key) v =>
    (Draft.addPair path key v f.current).map fun current => { f with current }
  | .header (path, key) => do
    let root ← f.close?
    let parent ← follow? path root
    let current ← startOf? key parent
    return { root, path := some (path, key), inArray := false, current }
  | .arrayHeader (path, key) => do
    let root ← f.close?
    let parent ← follow? path root
    match lookup? parent key with
    | none | some (.tables _) =>
      return { root, path := some (path, key), inArray := true, current := [] }
    | some _ => none

end Filling

/-- The text without a byte order mark in front. -/
def dropMark : List Char → List Char
  | '\ufeff' :: cs => cs
  | cs => cs

/-- The table that a text writes. -/
def parse? (s : String) : Option Toml := do
  let cs := dropMark s.toList
  let lines ← lines? (cs.length + 1) [] cs
  let filled ← lines.foldlM Filling.step? {}
  let root ← filled.close?
  return .table (sortEntries (Draft.entriesToToml root))

end LintMend.Toml
