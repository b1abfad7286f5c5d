import LintMend.Text.Search

/-!
# Paths

A path is text with slashes. Its parts are what the text means: doubled slashes, dots between
slashes and a slash at the end mean nothing. Only a dot at the very front is a part of its own.
-/

namespace LintMend

/-- One step of a path. -/
inductive PathPart where
  | root
  | here
  | up
  | name (text : String)
deriving DecidableEq, Repr

namespace PathPart

/-- How the part is written. -/
def text : PathPart → String
  | .root => "/"
  | .here => "."
  | .up => ".."
  | .name s => s

/-- The place of a kind of part in the order of parts. -/
def rank : PathPart → Nat
  | .root => 0
  | .here => 1
  | .up => 2
  | .name _ => 3

/-- Parts are ordered by kind, and names by their characters. -/
def lt (a b : PathPart) : Bool :=
  match a, b with
  | .name s, .name t => decide (s < t)
  | a, b => a.rank < b.rank

end PathPart

namespace Path

def isAbsolute (p : String) : Bool := startsWithText p "/"

/-- The part that a piece between slashes stands for, if it stands for one. -/
def partOf? (piece : String) : Option PathPart :=
  if piece == "" || piece == "." then none
  else if piece == ".." then some .up
  else some (.name piece)

/-- The parts that the pieces between slashes stand for. -/
def partsOfPieces (pieces : List String) : List PathPart := pieces.filterMap partOf?

/-- The parts of a path. -/
def parts (p : String) : List PathPart :=
  let pieces := splitAtChar p '/'
  if isAbsolute p then .root :: partsOfPieces pieces
  else if pieces.head? == some "." then .here :: partsOfPieces pieces
  else partsOfPieces pieces

/-- The path with the parts, written without anything superfluous. -/
def ofParts : List PathPart → String
  | [] => ""
  | .root :: rest => "/" ++ "/".intercalate (rest.map PathPart.text)
  | rest => "/".intercalate (rest.map PathPart.text)

/-- The name of the file that a path leads to. A path that ends by going up leads to none. -/
def fileName? (p : String) : Option String :=
  match (parts p).getLast? with
  | some (.name s) => some s
  | _ => none

/-- What stands after the last dot of the file's name, unless the name starts with that dot. -/
def extension? (p : String) : Option String := do
  let name ← fileName? p
  let reversed := name.toList.reverse
  let ending := reversed.takeWhile (· != '.')
  match reversed.dropWhile (· != '.') with
  | '.' :: _ :: _ => return String.ofList ending.reverse
  | _ => none

/-- The path without its last part. -/
def parent? (p : String) : Option String :=
  match (parts p).reverse with
  | [] => none
  | [.root] => none
  | _ :: rest => some (ofParts rest.reverse)

/-- The path that leads to `q` from `p`; an absolute `q` leads to itself. -/
def join (p q : String) : String :=
  if isAbsolute q then q
  else if p == "" || endsWithText p "/" then p ++ q
  else p ++ "/" ++ q

/-- The parts of `p` after those of `base`. -/
def relativeParts? (base p : String) : Option (List PathPart) :=
  if (parts base).isPrefixOf (parts p) then some ((parts p).drop (parts base).length) else none

/-- Paths are ordered part by part. -/
def ltParts : List PathPart → List PathPart → Bool
  | _, [] => false
  | [], _ :: _ => true
  | a :: as, b :: bs => a.lt b || (a == b && ltParts as bs)

def lt (p q : String) : Bool := ltParts (parts p) (parts q)

def le (p q : String) : Bool := !lt q p

/-- The name of a unit: its path from the root of the analysis, or its whole path if it is not
below the root. -/
def unitName (root p : String) : String :=
  "/".intercalate (((relativeParts? root p).getD (parts p)).map PathPart.text)

end Path

end LintMend
