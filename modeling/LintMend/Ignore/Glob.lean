import LintMend.Text.Search

/-!
# Globs

Patterns for paths. A star or a question mark stands for bytes other than a slash; two stars between
slashes stand for any number of directories. Sets in brackets and alternatives in braces are
understood, and a backslash takes away the meaning of the character after it.

Paths are matched byte by byte.
-/

namespace LintMend

/-- A part of a glob. -/
inductive GlobToken where
  | byte (b : UInt8)
  /-- One byte other than a slash. -/
  | any
  /-- Any number of bytes other than a slash. -/
  | many
  /-- Directories at the front, or none. -/
  | anyFront
  /-- A slash and what follows. -/
  | anyRest
  /-- A slash, or directories between slashes. -/
  | anyMiddle
  | set (negated : Bool) (ranges : List (UInt8 × UInt8))
  | choice (branches : List (List GlobToken))

abbrev Glob := List GlobToken

namespace Glob

/-! ## Matching -/

def slash : UInt8 := 0x2F

/-- Continues at every place after any number of bytes that pass the test. -/
def afterMany (test : UInt8 → Bool) (k : List UInt8 → Bool) : List UInt8 → Bool
  | [] => k []
  | b :: bs => k (b :: bs) || (test b && afterMany test k bs)

/-- Continues after every slash. -/
def afterSlash (k : List UInt8 → Bool) : List UInt8 → Bool
  | [] => false
  | b :: bs => (b == slash && k bs) || afterSlash k bs

mutual

/-- Some way to match the token leads on to a success of `k`. -/
def runToken : GlobToken → (List UInt8 → Bool) → List UInt8 → Bool
  | .byte c, k, bs =>
    match bs with
    | b :: rest => b == c && k rest
    | [] => false
  | .any, k, bs =>
    match bs with
    | b :: rest => b != slash && k rest
    | [] => false
  | .many, k, bs => afterMany (· != slash) k bs
  | .anyFront, k, bs => k bs || afterSlash k bs
  | .anyRest, k, bs =>
    match bs with
    | b :: rest => b == slash && afterMany (fun _ => true) k rest
    | [] => false
  | .anyMiddle, k, bs =>
    match bs with
    | b :: rest => b == slash && (k rest || afterSlash k rest)
    | [] => false
  | .set negated ranges, k, bs =>
    match bs with
    | b :: rest => (ranges.any fun (low, high) => low ≤ b && b ≤ high) != negated && k rest
    | [] => false
  | .choice branches, k, bs =>
    match branches with
    | [] => k bs
    | _ :: _ => runChoice branches k bs

def runTokens : List GlobToken → (List UInt8 → Bool) → List UInt8 → Bool
  | [], k, bs => k bs
  | t :: ts, k, bs => runToken t (runTokens ts k) bs

def runChoice : List (List GlobToken) → (List UInt8 → Bool) → List UInt8 → Bool
  | [], _, _ => false
  | branch :: branches, k, bs => runTokens branch k bs || runChoice branches k bs

end

/-- The glob matches the whole path. Two stars alone match everything. -/
def accepts (g : Glob) (path : List UInt8) : Bool :=
  match g with
  | [.anyFront] => true
  | g => runTokens g List.isEmpty path

/-! ## Reading -/

/-- The bytes of a character. -/
def bytesOf (c : Char) : List UInt8 := String.utf8EncodeChar c

/-- The ranges of bytes that a range of characters is written with. -/
def byteRanges (low high : Char) : List (UInt8 × UInt8) :=
  if low == high then (bytesOf low).map fun b => (b, b)
  else
    let front := (bytesOf low).dropLast.map fun b => (b, b)
    let back := (bytesOf high).tail.map fun b => (b, b)
    let middle := (bytesOf low).getLast?.toList.flatMap fun l =>
      (bytesOf high).head?.toList.map fun h => (l, h)
    front ++ middle ++ back

/-- What reading a set in brackets comes to. -/
inductive SetResult where
  | set (ranges : List (Char × Char)) (rest : List Char)
  | unclosed
  | invalid

/-- Reads a set after its opening bracket. Ranges are kept last first; `inRange` says that a dash
waits for its end. A closing bracket or a dash in the first place stands for itself. -/
def readSet (first inRange : Bool) (ranges : List (Char × Char)) : List Char → SetResult
  | [] => .unclosed
  | c :: cs =>
    if c == ']' && !first then
      .set ((if inRange then ('-', '-') :: ranges else ranges).reverse) cs
    else if c == '-' && !first && !inRange then readSet false true ranges cs
    else if inRange then
      match ranges with
      | (low, _) :: earlier =>
        if c < low then .invalid else readSet false false ((low, c) :: earlier) cs
      | [] => .invalid
    else readSet false false ((c, c) :: ranges) cs

/-- The state of reading: the tokens of the open branches, each last first and the innermost branch
first; for each open brace how many branches were there before it; the last character read; and
whether a bracket without an end was met. -/
structure Reading where
  branches : List (List GlobToken) := [[]]
  groups : List Nat := []
  last : Option Char := none
  strayBracket : Bool := false

namespace Reading

/-- Adds a token to the innermost branch. -/
def push (r : Reading) (t : GlobToken) : Reading :=
  match r.branches with
  | branch :: rest => { r with branches := (t :: branch) :: rest }
  | [] => { r with branches := [[t]] }

def pushChar (r : Reading) (c : Char) : Reading :=
  (bytesOf c).foldl (fun r b => r.push (.byte b)) r

/-- The innermost branch holds something. -/
def hasTokens (r : Reading) : Bool :=
  match r.branches with
  | branch :: _ => !branch.isEmpty
  | [] => false

/-- A branch that matches nothing but the empty text has no say in a choice. -/
def isVoid (branch : List GlobToken) : Bool :=
  branch.all fun
    | .choice [] => true
    | _ => false

/-- Closes the innermost brace. -/
def closeGroup? (r : Reading) : Option Reading :=
  match r.groups with
  | [] => none
  | before :: groups =>
    let inner := r.branches.take (r.branches.length - before)
    let rest := r.branches.drop (r.branches.length - before)
    let branches := (inner.reverse.map List.reverse).filter (!isVoid ·)
    some ({ r with branches := rest, groups }.push (.choice branches))

/-- Two stars that are not between slashes are two single ones. -/
def pushStars (r : Reading) : Reading := (r.push .many).push .many

/-- Puts a token for directories in place of the slash before it. -/
def replaceSlash (r : Reading) (t : GlobToken) : Reading :=
  match r.branches with
  | (.anyFront :: branch) :: rest => { r with branches := (.anyFront :: branch) :: rest }
  | (.anyRest :: branch) :: rest => { r with branches := (.anyRest :: branch) :: rest }
  | (_ :: branch) :: rest => { r with branches := (t :: branch) :: rest }
  | _ => r.push t

/-- Takes in two stars, after which `cs` follows. Gives the rest. -/
def readStars (r : Reading) (cs : List Char) : Reading × List Char :=
  let before := r.last
  let r := { r with last := some '*' }
  if !r.hasTokens then
    match cs with
    | [] => (r.push .anyFront, [])
    | '/' :: rest => ({ r.push .anyFront with last := some '/' }, rest)
    | _ => (r.pushStars, cs)
  else if before != some '/' &&
      (r.groups.isEmpty || (before != some ',' && before != some '\x7b')) then (r.pushStars, cs)
  else
    match cs with
    | [] => (r.replaceSlash .anyRest, [])
    | '/' :: rest => ({ r.replaceSlash .anyMiddle with last := some '/' }, rest)
    | c :: _ =>
      if !r.groups.isEmpty && (c == ',' || c == '\x7d') then (r.replaceSlash .anyRest, cs)
      else (r.pushStars, cs)

end Reading

/-- Reads a glob. With `lenient`, a bracket that is never closed stands for itself. -/
def readFrom (lenient : Bool) (fuel : Nat) (r : Reading) (cs : List Char) : Option Glob :=
  match fuel with
  | 0 => none
  | fuel + 1 =>
    match cs with
    | [] =>
      match r.groups, r.branches with
      | [], [branch] => some branch.reverse
      | _, _ => none
    | c :: cs =>
      let after (r : Reading) : Reading := { r with last := some c }
      match c with
      | '?' => readFrom lenient fuel (after (r.push .any)) cs
      | '*' =>
        match cs with
        | '*' :: cs =>
          let (r, cs) := r.readStars cs
          readFrom lenient fuel r cs
        | cs => readFrom lenient fuel (after (r.push .many)) cs
      | '[' =>
        if r.strayBracket then readFrom lenient fuel (after (r.pushChar '[')) cs
        else
          let (negated, inner) :=
            match cs with
            | '!' :: cs => (true, cs)
            | '^' :: cs => (true, cs)
            | cs => (false, cs)
          match readSet true false [] inner with
          | .set ranges rest =>
            let bytes := ranges.flatMap fun (low, high) => byteRanges low high
            readFrom lenient fuel { r.push (.set negated bytes) with last := some ']' } rest
          | .unclosed =>
            if lenient then
              readFrom lenient fuel { after (r.pushChar '[') with strayBracket := true } cs
            else none
          | .invalid => none
      | '\x7b' =>
        let opened :=
          { r with branches := [] :: r.branches, groups := r.branches.length :: r.groups }
        readFrom lenient fuel (after opened) cs
      | '\x7d' =>
        match r.closeGroup? with
        | some r => readFrom lenient fuel (after r) cs
        | none => none
      | ',' =>
        if r.groups.isEmpty then readFrom lenient fuel (after (r.pushChar ',')) cs
        else readFrom lenient fuel (after { r with branches := [] :: r.branches }) cs
      | '\\' =>
        match cs with
        | [] => none
        | d :: cs => readFrom lenient fuel { r.pushChar d with last := some d } cs
      | c => readFrom lenient fuel (after (r.pushChar c)) cs

/-- The glob that a text writes. -/
def parse? (lenient : Bool) (s : String) : Option Glob :=
  readFrom lenient (s.toList.length + 1) {} s.toList

end Glob

end LintMend
