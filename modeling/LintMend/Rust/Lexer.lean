import LintMend.Rust.Token
import LintMend.Text.Blank
import LintMend.Text.Identifier

/-!
# From characters to tokens

The lexer walks over the text once. At each place where no lexeme is open it asks `scan` what
begins there and how many characters it takes. White space and comments vanish, except that a
documentation comment stands for the attribute that it abbreviates. The lexemes are then folded
into trees at the brackets.

Scanners count characters. They take the text from the place on and return the length of what they
recognise.
-/

namespace LintMend.Rust

open Text (isIdentifierStart isIdentifierPart isBlank hexDigit?)

/-! ## Words and numbers -/

/-- Length of an identifier without the raw marker. -/
def plainWordLength? : List Char → Option Nat
  | c :: cs =>
    if isIdentifierStart c then some (1 + (cs.takeWhile isIdentifierPart).length) else none
  | [] => none

/-- Words that a raw marker cannot turn into identifiers. -/
def neverRaw : List String := ["_", "super", "self", "Self", "crate"]

/-- Length of an identifier, with or without the raw marker. -/
def wordLength? : List Char → Option Nat
  | 'r' :: '#' :: cs => do
    let n ← plainWordLength? cs
    if neverRaw.contains (String.ofList (cs.take n)) then none else return n + 2
  | cs => plainWordLength? cs

/-- A literal may carry a word as its suffix, directly behind it. -/
def suffixLength (cs : List Char) : Nat := (plainWordLength? cs).getD 0

/-- A number of `n` characters with its suffix, unless the rest would go on with it. -/
def finishNumber (n : Nat) (rest : List Char) : Option Nat :=
  let suffix := suffixLength rest
  match rest.drop suffix with
  | c :: _ => if isIdentifierPart c then none else some (n + suffix)
  | [] => some (n + suffix)

/-- The characters of an exponent: an optional sign, then digits and underscores. Gives the length
read and whether there was a digit; `none` when a second sign stands before the first digit. -/
def exponent (n : Nat) (sign digit : Bool) : List Char → Option (Nat × Bool)
  | c :: cs =>
    if c == '+' || c == '-' then
      if digit then some (n, true)
      else if sign then none
      else exponent (n + 1) true false cs
    else if c.isDigit then exponent (n + 1) sign true cs
    else if c == '_' then exponent (n + 1) sign digit cs
    else some (n, digit)
  | [] => some (n, digit)

/-- Length of a number with a point or an exponent, of which `n` characters were read. `whole` is
the text of the number from its first character on. -/
def floatFrom (whole : List Char) (n : Nat) (point : Bool) : List Char → Option Nat
  | c :: cs =>
    if c.isDigit || c == '_' then floatFrom whole (n + 1) point cs
    else if c == '.' && !point then
      match cs with
      | d :: _ => if d == '.' || isIdentifierStart d then none else floatFrom whole (n + 1) true cs
      | [] => floatFrom whole (n + 1) true cs
    else if c == 'e' || c == 'E' then
      match exponent (n + 1) false false cs with
      | some (m, true) => finishNumber m (whole.drop m)
      | _ => if point then finishNumber n (c :: cs) else none
    else if point then finishNumber n (c :: cs)
    else none
  | [] => if point then some n else none

/-- Length of a number with a point or an exponent. -/
def floatLength? : List Char → Option Nat
  | c :: cs => if c.isDigit then floatFrom (c :: cs) 1 false cs else none
  | [] => none

/-- Length of digits of a base, `n` characters before them. A decimal digit that the base lacks is
an error, a letter that it lacks begins a suffix. -/
def digitsFrom (base n : Nat) (empty : Bool) : List Char → Option Nat
  | c :: cs =>
    if c == '_' then
      if empty && base == 10 then none else digitsFrom base (n + 1) empty cs
    else
      match hexDigit? c with
      | some d =>
        if d < base then digitsFrom base (n + 1) false cs
        else if c.isDigit || empty then none
        else some n
      | none => if empty then none else some n
  | [] => if empty then none else some n

/-- Length of a whole number, with its base and suffix. -/
def integerLength? (cs : List Char) : Option Nat := do
  let n ←
    match cs with
    | '0' :: 'x' :: rest => digitsFrom 16 2 true rest
    | '0' :: 'o' :: rest => digitsFrom 8 2 true rest
    | '0' :: 'b' :: rest => digitsFrom 2 2 true rest
    | _ => digitsFrom 10 0 true cs
  finishNumber n (cs.drop n)

/-! ## Quoted literals -/

/-- What a quoted literal holds: characters, bytes, or characters without a zero. -/
inductive Quoted where
  | text
  | bytes
  | terminated
deriving DecidableEq

/-- Where the reader of a quoted literal stands. -/
inductive QuotedState where
  | plain
  /-- After a carriage return, which a newline has to follow. -/
  | afterReturn
  /-- After a backslash. -/
  | escape
  | firstHex
  | secondHex (first : Nat)
  | openUnicode
  | unicode (digits value : Nat)
  /-- After a backslash at the end of a line: white space is passed over. -/
  | gap
  | gapReturn

/-- Code points of characters, surrogates excluded. -/
def isScalar (n : Nat) : Bool := n < 0xD800 || (0xE000 ≤ n && n < 0x110000)

/-- One plain character of a quoted literal. -/
def Quoted.plainStep (kind : Quoted) (c : Char) : Option QuotedState :=
  if c == '\r' then some .afterReturn
  else if c == '\\' then some .escape
  else
    match kind with
    | .text => some .plain
    | .bytes => if c.toNat < 128 then some .plain else none
    | .terminated => if c == '\x00' then none else some .plain

/-- The character after a backslash. -/
def Quoted.escapeStep (kind : Quoted) (c : Char) : Option QuotedState :=
  if c == 'x' then some .firstHex
  else if ['n', 'r', 't', '\\', '\'', '"'].contains c then some .plain
  else if c == '0' then if kind == .terminated then none else some .plain
  else if c == 'u' then if kind == .bytes then none else some .openUnicode
  else if c == '\n' then some .gap
  else if c == '\r' then some .gapReturn
  else none

/-- One character of a quoted literal; the closing quote is not given to it. -/
def Quoted.step (kind : Quoted) (state : QuotedState) (c : Char) : Option QuotedState :=
  match state with
  | .plain => kind.plainStep c
  | .afterReturn => if c == '\n' then some .plain else none
  | .escape => kind.escapeStep c
  | .firstHex =>
    match hexDigit? c with
    | some d => if kind == .text && 8 ≤ d then none else some (.secondHex d)
    | none => none
  | .secondHex first =>
    match hexDigit? c with
    | some d => if kind == .terminated && first == 0 && d == 0 then none else some .plain
    | none => none
  | .openUnicode => if c == '\x7b' then some (.unicode 0 0) else none
  | .unicode digits value =>
    match hexDigit? c with
    | some d => if digits == 6 then none else some (.unicode (digits + 1) (value * 16 + d))
    | none =>
      if digits == 0 then none
      else if c == '_' then some state
      else if c == '\x7d' then
        if !isScalar value || (kind == .terminated && value == 0) then none else some .plain
      else none
  | .gap =>
    if c == ' ' || c == '\t' || c == '\n' then some .gap
    else if c == '\r' then some .gapReturn
    else kind.plainStep c
  | .gapReturn => if c == '\n' then some .gap else none

/-- A quote in this state closes the literal. -/
def QuotedState.closes : QuotedState → Bool
  | .plain | .gap => true
  | _ => false

/-- Length of a quoted literal with its suffix, of which `n` characters were read. -/
def quotedFrom (kind : Quoted) (state : QuotedState) (n : Nat) : List Char → Option Nat
  | [] => none
  | c :: cs =>
    if c == '"' && state.closes then some (n + 1 + suffixLength cs)
    else
      match kind.step state c with
      | some next => quotedFrom kind next (n + 1) cs
      | none => none

/-- Length of the body of a raw literal that a quote and `hashes` number signs close. -/
def rawFrom (kind : Quoted) (hashes n : Nat) : List Char → Option Nat
  | [] => none
  | '"' :: cs =>
    if (List.replicate hashes '#').isPrefixOf cs then
      some (n + 1 + hashes + suffixLength (cs.drop hashes))
    else rawFrom kind hashes (n + 1) cs
  | '\r' :: '\n' :: cs => rawFrom kind hashes (n + 2) cs
  | c :: cs =>
    if c == '\r' || (kind == .bytes && 128 ≤ c.toNat) || (kind == .terminated && c == '\x00') then
      none
    else rawFrom kind hashes (n + 1) cs

/-- Length of a raw literal, `n` characters before its number signs. -/
def rawLength? (kind : Quoted) (n : Nat) (cs : List Char) : Option Nat :=
  let hashes := (cs.takeWhile (· == '#')).length
  match cs.drop hashes with
  | '"' :: body => if hashes ≤ 255 then rawFrom kind hashes (n + hashes + 1) body else none
  | _ => none

/-- Length of the code point in braces of an escape, `n` characters before it. -/
def unicodeEscapeFrom (n digits value : Nat) : List Char → Option Nat
  | c :: cs =>
    match hexDigit? c with
    | some d =>
      if digits == 6 then none
      else unicodeEscapeFrom (n + 1) (digits + 1) (value * 16 + d) cs
    | none =>
      if digits == 0 then none
      else if c == '_' then unicodeEscapeFrom (n + 1) digits value cs
      else if c == '\x7d' && isScalar value then some (n + 1)
      else none
  | [] => none

/-- Length of the single character, written plainly or as an escape, between single quotes. -/
def characterLength? : List Char → Option Nat
  | '\\' :: 'x' :: a :: b :: _ =>
    match hexDigit? a, hexDigit? b with
    | some d, some _ => if d < 8 then some 4 else none
    | _, _ => none
  | '\\' :: 'u' :: '\x7b' :: cs => unicodeEscapeFrom 3 0 0 cs
  | '\\' :: c :: _ => if ['n', 'r', 't', '\\', '0', '\'', '"'].contains c then some 2 else none
  | '\\' :: [] => none
  | _ :: _ => some 1
  | [] => none

/-- Length of the single byte between single quotes. -/
def byteLength? : List Char → Option Nat
  | '\\' :: 'x' :: a :: b :: _ =>
    if (hexDigit? a).isSome && (hexDigit? b).isSome then some 4 else none
  | '\\' :: c :: _ => if ['n', 'r', 't', '\\', '0', '\'', '"'].contains c then some 2 else none
  | '\\' :: [] => none
  | c :: _ => if c.toNat < 128 then some 1 else none
  | [] => none

/-- A literal between single quotes: `n` characters before the body, which has the given length. -/
def closeSingle (n : Nat) (length : Option Nat) (cs : List Char) : Option Nat := do
  let m ← length
  match cs.drop m with
  | '\'' :: rest => return n + m + 1 + suffixLength rest
  | _ => none

/-- Length of a literal. -/
def literalLength? (cs : List Char) : Option Nat :=
  let quoted :=
    match cs with
    | '"' :: rest => quotedFrom .text .plain 1 rest
    | 'b' :: '"' :: rest => quotedFrom .bytes .plain 2 rest
    | 'c' :: '"' :: rest => quotedFrom .terminated .plain 2 rest
    | 'b' :: '\'' :: rest => closeSingle 2 (byteLength? rest) rest
    | '\'' :: rest => closeSingle 1 (characterLength? rest) rest
    | 'b' :: 'r' :: rest => rawLength? .bytes 2 rest
    | 'c' :: 'r' :: rest => rawLength? .terminated 2 rest
    | 'r' :: rest => rawLength? .text 1 rest
    | _ => none
  quoted <|> floatLength? cs <|> integerLength? cs

/-! ## Gaps and comments -/

/-- Characters up to the end of the line. A carriage return before the newline is the second
component. -/
def lineLength (n : Nat) : List Char → Nat × Bool
  | [] => (n, false)
  | '\n' :: _ => (n, false)
  | '\r' :: '\n' :: _ => (n, true)
  | _ :: cs => lineLength (n + 1) cs

/-- Length of a block comment; block comments nest. -/
def blockCommentFrom (depth n : Nat) : List Char → Option Nat
  | '/' :: '*' :: cs => blockCommentFrom (depth + 1) (n + 2) cs
  | '*' :: '/' :: cs => if depth ≤ 1 then some (n + 2) else blockCommentFrom (depth - 1) (n + 2) cs
  | _ :: cs => blockCommentFrom depth (n + 1) cs
  | [] => none

/-- White space between tokens; the two direction marks count. -/
def isGap (c : Char) : Bool := isBlank c || c == '\u200e' || c == '\u200f'

/-- Every carriage return is followed by a newline. -/
def returnsPaired : List Char → Bool
  | '\r' :: '\n' :: cs => returnsPaired cs
  | c :: cs => c != '\r' && returnsPaired cs
  | [] => true

/-- Comments that document what follows them, or what they stand in. -/
inductive Comment where
  | plain (length : Nat)
  | doc (inner : Bool) (text : List Char) (length : Nat)

/-- A line comment that documents: its text stops before the end of the line, its length takes a
carriage return along. -/
def lineDoc (inner : Bool) (cs : List Char) : Comment :=
  let (n, carriage) := lineLength 0 cs
  .doc inner (cs.take n) (3 + n + carriage.toNat)

/-- A block comment that documents. -/
def blockDoc? (inner : Bool) (cs : List Char) : Option Comment :=
  (blockCommentFrom 0 0 cs).map fun n => .doc inner ((cs.take (n - 2)).drop 3) n

/-- The comment that begins here. Four slashes or three asterisks do not document. -/
def comment? (cs : List Char) : Option Comment :=
  match cs with
  | '/' :: '/' :: '/' :: '/' :: _ => some (.plain (lineLength 0 cs).1)
  | '/' :: '/' :: '/' :: rest => some (lineDoc false rest)
  | '/' :: '/' :: '!' :: rest => some (lineDoc true rest)
  | '/' :: '/' :: _ => some (.plain (lineLength 0 cs).1)
  | '/' :: '*' :: '*' :: '/' :: _ => some (.plain 4)
  | '/' :: '*' :: '*' :: '*' :: _ => (blockCommentFrom 0 0 cs).map .plain
  | '/' :: '*' :: '*' :: _ => blockDoc? false cs
  | '/' :: '*' :: '!' :: _ => blockDoc? true cs
  | '/' :: '*' :: _ => (blockCommentFrom 0 0 cs).map .plain
  | _ => none

/-- Length of the white space or plain comment that begins here; zero if there is none. -/
def gapLength (cs : List Char) : Nat :=
  match cs with
  | c :: _ =>
    if isGap c then 1
    else
      match comment? cs with
      | some (.plain n) => n
      | _ => 0
  | [] => 0

/-- The first character that is neither in white space nor in a plain comment; `skip` characters
are known to be in one. -/
def firstSolid (skip : Nat) : List Char → Option Char
  | [] => none
  | c :: cs =>
    if 0 < skip then firstSolid (skip - 1) cs
    else
      match gapLength (c :: cs) with
      | 0 => some c
      | n + 1 => firstSolid n cs

/-! ## Lexemes -/

/-- What the lexer finds in the text. -/
inductive Lexeme where
  | gap
  | token (make : Extent → Token)
  | doc (inner : Bool) (text : List Char)
  | opening (delimiter : Delimiter)
  | closing (delimiter : Delimiter)

/-- Marks of one character. -/
def isMark (c : Char) : Bool := "~!@#$%^&*-=+|;:,<.>/?'".toList.contains c

/-- A mark begins here, and not a comment. -/
def marksHere : List Char → Bool
  | '/' :: '/' :: _ => false
  | '/' :: '*' :: _ => false
  | c :: _ => isMark c
  | [] => false

/-- Beginnings of literals, which are not words even when the literal is malformed. -/
def literalOpenings : List (List Char) :=
  ["r\"", "r#\"", "r##", "b\"", "b'", "br\"", "br#", "c\"", "cr\"", "cr#"].map String.toList

/-- A lifetime: an apostrophe and a word that no further apostrophe follows. -/
def lifetimeLength? (cs : List Char) : Option Nat := do
  let n ← wordLength? cs
  match cs.drop n with
  | '\'' :: _ => none
  | '#' :: _ => if ['r', '#'].isPrefixOf cs then return n + 1 else none
  | _ => return n + 1

/-- The lexeme that begins here and its length. -/
def scan (cs : List Char) : Option (Lexeme × Nat) :=
  match cs with
  | [] => none
  | c :: rest =>
    match c with
    | '(' => some (.opening .parenthesis, 1)
    | '[' => some (.opening .bracket, 1)
    | '\x7b' => some (.opening .brace, 1)
    | ')' => some (.closing .parenthesis, 1)
    | ']' => some (.closing .bracket, 1)
    | '\x7d' => some (.closing .brace, 1)
    | _ =>
      if isGap c then some (.gap, 1)
      else
        match comment? cs with
        | some (.plain n) => some (.gap, n)
        | some (.doc inner text n) => if returnsPaired text then some (.doc inner text, n) else none
        | none =>
          match literalLength? cs with
          | some n => some (.token (.literal (String.ofList (cs.take n))), n)
          | none =>
            if c == '\'' then
              (lifetimeLength? rest).map fun n =>
                (.token (.lifetime (String.ofList (cs.take n))), n)
            else if marksHere cs then some (.token (.mark c (marksHere rest)), 1)
            else if literalOpenings.any (·.isPrefixOf cs) then none
            else (wordLength? cs).map fun n => (.token (.word (String.ofList (cs.take n))), n)

/-- The position after a character. -/
def advance (p : Position) (c : Char) : Position :=
  if c == '\n' then ⟨p.line + 1, 0⟩ else ⟨p.line, p.column + 1⟩

/-- The lexemes of a text, last first, after those found before; `skip` characters still belong to
the last one. -/
def lexFrom (skip : Nat) (p : Position) (found : List (Lexeme × Extent)) :
    List Char → Option (List (Lexeme × Extent))
  | [] => some found
  | c :: cs =>
    if 0 < skip then lexFrom (skip - 1) (advance p c) found cs
    else
      match scan (c :: cs) with
      | none => none
      | some (.gap, n) => lexFrom (n - 1) (advance p c) found cs
      | some (lexeme, n) =>
        let stop := ((c :: cs).take n).foldl advance p
        lexFrom (n - 1) (advance p c) ((lexeme, ⟨p, stop⟩) :: found) cs

/-! ## Trees -/

/-- A character as it stands between quotes. -/
def escapeChar (c : Char) : List Char :=
  match c with
  | '"' => ['\\', '"']
  | '\\' => ['\\', '\\']
  | '\n' => ['\\', 'n']
  | '\r' => ['\\', 'r']
  | '\t' => ['\\', 't']
  | '\x00' => ['\\', '0']
  | c => [c]

/-- The attribute for which a documentation comment stands, last token first. -/
def docTokens (inner : Bool) (text : List Char) (e : Extent) : List Token :=
  let quoted := String.ofList ('"' :: text.flatMap escapeChar ++ ['"'])
  let body := Token.group .bracket [.word "doc" e, .mark '=' false e, .literal quoted e] e
  if inner then [body, .mark '!' false e, .mark '#' false e] else [body, .mark '#' false e]

/-- Brackets that are open: their kind, their place, and the tokens before them, last first. -/
structure OpenGroup where
  delimiter : Delimiter
  start : Position
  before : List Token

/-- Folds lexemes into trees. `tokens` are those of the innermost open group, last first. -/
def assemble (groups : List OpenGroup) (tokens : List Token) :
    List (Lexeme × Extent) → Option (List Token)
  | [] => if groups.isEmpty then some tokens.reverse else none
  | (lexeme, e) :: rest =>
    match lexeme with
    | .gap => assemble groups tokens rest
    | .token make => assemble groups (make e :: tokens) rest
    | .doc inner text => assemble groups (docTokens inner text e ++ tokens) rest
    | .opening delimiter => assemble (⟨delimiter, e.start, tokens⟩ :: groups) [] rest
    | .closing delimiter =>
      match groups with
      | [] => none
      | open_ :: outer =>
        if open_.delimiter = delimiter then
          let group := Token.group delimiter tokens.reverse ⟨open_.start, e.stop⟩
          assemble outer (group :: open_.before) rest
        else none

/-- The token trees of a text, unless a lexeme is malformed or the brackets do not match. -/
def lex? (cs : List Char) : Option (List Token) := do
  let lexemes ← lexFrom 0 ⟨1, 0⟩ [] cs
  assemble [] [] lexemes.reverse

end LintMend.Rust
