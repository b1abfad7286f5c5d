import LintMend.Disk.Path
import LintMend.Text.Blank

/-!
# Names of documents

An editor names documents by URIs. Two ways to write a URI that mean the same are brought to one
form: the scheme in small letters, the path without steps that lead nowhere, and characters that
must not stand in it written as percent signs with two digits.
-/

namespace LintMend

/-- A URI. The path is written in escaped form; `suffix` is what follows it. -/
structure Uri where
  scheme : String
  authority : Option String
  path : String
  suffix : String
deriving DecidableEq, Repr

namespace Uri

/-- How the URI is written. -/
def text (u : Uri) : String :=
  let authority :=
    match u.authority with
    | some a => "//" ++ a
    | none => ""
  u.scheme ++ ":" ++ authority ++ u.path ++ u.suffix

/-! ## Escapes -/

def hexDigit (n : Nat) : Char := (Nat.digitChar n).toUpper

/-- A byte as a percent sign and two digits. -/
def escapeByte (b : UInt8) : List Char := ['%', hexDigit (b.toNat / 16), hexDigit (b.toNat % 16)]

/-- Escapes a character unless it may stand for itself. -/
def escapeChar (bare : Char → Bool) (c : Char) : List Char :=
  if bare c then [c] else (String.utf8EncodeChar c).flatMap escapeByte

/-- Printable characters of the first 128. -/
def isPrintable (c : Char) : Bool := ' ' ≤ c && c ≤ '~'

/-- Characters that stand for themselves in a path. -/
def isBareInPath (c : Char) : Bool := isPrintable c && !" \"#<>?`\x7b\x7d".toList.contains c

/-- Characters that stand for themselves after the path. -/
def isBareInSuffix (c : Char) : Bool := isPrintable c && !" \"<>".toList.contains c

/-- The value of a hexadecimal digit. -/
def digit? (c : Char) : Option Nat :=
  if '0' ≤ c && c ≤ '9' then some (c.toNat - 48)
  else if 'a' ≤ c && c ≤ 'f' then some (c.toNat - 87)
  else if 'A' ≤ c && c ≤ 'F' then some (c.toNat - 55)
  else none

/-- The bytes that escaped text stands for. A percent sign without two digits stands for itself. -/
def unescape : List Char → List UInt8
  | [] => []
  | '%' :: a :: b :: cs =>
    match digit? a, digit? b with
    | some m, some n => UInt8.ofNat (m * 16 + n) :: unescape cs
    | _, _ => 0x25 :: unescape (a :: b :: cs)
  | c :: cs => String.utf8EncodeChar c ++ unescape cs

/-! ## Reading -/

/-- Schemes whose URIs always have an authority and a path. -/
def isWeb (scheme : String) : Bool := ["http", "https", "ws", "wss", "ftp"].contains scheme

/-- The segment stands for no step; a dot may be escaped. -/
def isHere (segment : String) : Bool :=
  [".", "%2e"].contains (String.ofList (Text.lowerAscii segment.toList))

/-- The segment stands for a step up. -/
def isUp (segment : String) : Bool :=
  ["..", ".%2e", "%2e.", "%2e%2e"].contains (String.ofList (Text.lowerAscii segment.toList))

/-- Walks segments, those before them last first; the last segment leaves an empty one behind if it
is a step. -/
def resolve (done : List String) : List String → List String
  | [] => done.reverse
  | [s] =>
    if isUp s then ("" :: done.drop 1).reverse
    else if isHere s then ("" :: done).reverse
    else (s :: done).reverse
  | s :: rest =>
    if isUp s then resolve (done.drop 1) rest
    else if isHere s then resolve done rest
    else resolve (s :: done) rest

/-- A path that begins with a slash, escaped and without steps. -/
def normalPath (cs : List Char) : String :=
  let segments := splitAtChar (String.ofList (cs.flatMap (escapeChar isBareInPath))) '/'
  "/" ++ "/".intercalate (resolve [] segments)

/-- Text before and from the first character that passes the test. -/
def cutWhen (test : Char → Bool) (cs : List Char) : List Char × List Char :=
  (cs.takeWhile (!test ·), cs.dropWhile (!test ·))

/-- Reads a URI. Text without a scheme is none. -/
def parse? (s : String) : Option Uri :=
  let cs := Text.trimRight (· ≤ ' ') (s.toList.dropWhile (· ≤ ' '))
  let cs := cs.filter fun c => c != '\t' && c != '\n' && c != '\r'
  match cutWhen (· == ':') cs with
  | (first :: name, _ :: rest) =>
    if first.isAlpha && name.all fun c => c.isAlphanum || c == '+' || c == '-' || c == '.' then
      let scheme := String.ofList (Text.lowerAscii (first :: name))
      let (body, suffix) := cutWhen (fun c => c == '?' || c == '#') rest
      let suffix := String.ofList (suffix.flatMap (escapeChar isBareInSuffix))
      let slashes := scheme == "file" || isWeb scheme
      let body := if slashes then body.map fun c => if c == '\\' then '/' else c else body
      match body with
      | '/' :: '/' :: body =>
        let body := if isWeb scheme then body.dropWhile (· == '/') else body
        let (host, path) := cutWhen (· == '/') body
        let host := String.ofList (if slashes then Text.lowerAscii host else host)
        let host := if scheme == "file" && host == "localhost" then "" else host
        let path :=
          match path with
          | _ :: path => normalPath path
          | [] => if slashes then "/" else ""
        some ⟨scheme, some host, path, suffix⟩
      | '/' :: path =>
        some ⟨scheme, if slashes then some "" else none, normalPath path, suffix⟩
      | path =>
        if slashes then some ⟨scheme, some "", normalPath path, suffix⟩
        else some ⟨scheme, none, String.ofList (path.flatMap (escapeChar isPrintable)), suffix⟩
    else none
  | _ => none

/-- The path of the file that a URI names. A file on another machine has none. -/
def filePath? (u : Uri) : Option String :=
  let isLocal := u.authority.getD "" == "" || u.authority == some "localhost"
  if startsWithText u.path "/" && isLocal then
    String.fromUTF8? ⟨(unescape u.path.toList).toArray⟩
  else none

end Uri

end LintMend
