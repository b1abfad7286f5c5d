import LintMend.Ignore.Glob
import LintMend.Text.Blank
import LintMend.Text.Line

/-!
# Ignore rules

A line of an ignore file is a rule: a glob that is matched against the path from the directory of
the file. A rule with a slash inside or at the front belongs to that directory alone; others apply
at any depth. An exclamation mark in front turns a rule around, and a slash at the end restricts it
to directories. Of the rules that match, the last one decides.
-/

namespace LintMend

/-- What rules say about a path. -/
inductive Verdict where
  | unmatched
  | ignored
  | kept
deriving DecidableEq, Repr

/-- The first verdict unless it says nothing. -/
def Verdict.orElse (a b : Verdict) : Verdict := if a == .unmatched then b else a

/-- A rule of an ignore file. -/
structure IgnoreRule where
  glob : Glob
  keeps : Bool
  onlyDirectories : Bool

namespace IgnoreRule

/-- What reading a line comes to. -/
inductive LineResult where
  | none
  | rule (r : IgnoreRule)
  | invalid

/-- The text of a line without white space at its end, unless that is escaped. -/
def trimEnd (cs : List Char) : List Char :=
  if "\\ ".toList.isSuffixOf cs then cs else Text.trimRight Text.isBlank cs

/-- The glob of a rule that may apply at any depth. -/
def anyDepth (anchored : Bool) (line : List Char) : List Char :=
  if anchored || line.contains '/' || "**/".toList.isPrefixOf line || line == "**".toList then line
  else "**/".toList ++ line

/-- A glob that ends with two stars is for what is inside a directory and not for the directory. -/
def insideOnly (glob : List Char) : List Char :=
  if "/**".toList.isSuffixOf glob then glob ++ "/*".toList else glob

/-- A line without its slash at the end, and whether it has one. An escape before the slash goes
with it. -/
def dropSlash (line : List Char) : List Char × Bool :=
  match line.reverse with
  | '/' :: '\\' :: rest => (rest.reverse, true)
  | '/' :: rest => (rest.reverse, true)
  | _ => (line, false)

/-- Reads a line. Empty lines and comments hold no rule. -/
def ofLine (lenient : Bool) (line : List Char) : LineResult :=
  if line.head? == some '#' then .none
  else
    match trimEnd line with
    | [] => .none
    | line =>
      let (keeps, anchored, line) :=
        match line with
        | '\\' :: '!' :: rest => (false, false, '!' :: rest)
        | '\\' :: '#' :: rest => (false, false, '#' :: rest)
        | '!' :: '/' :: rest => (true, true, rest)
        | '!' :: rest => (true, false, rest)
        | '/' :: rest => (false, true, rest)
        | line => (false, false, line)
      let (line, onlyDirectories) := dropSlash line
      match Glob.parse? lenient (String.ofList (insideOnly (anyDepth anchored line))) with
      | some glob => .rule ⟨glob, keeps, onlyDirectories⟩
      | none => .invalid

end IgnoreRule

/-- Rules in order. -/
abbrev IgnoreRules := List IgnoreRule

namespace IgnoreRules

/-- The rules of the lines of a file. Lines that cannot be read are passed over. -/
def ofLines (lines : List (List Char)) : IgnoreRules :=
  lines.filterMap fun line =>
    match IgnoreRule.ofLine true line with
    | .rule r => some r
    | _ => none

/-- The verdict on a path from the directory of the rules. -/
def verdict (rules : IgnoreRules) (path : List UInt8) (isDirectory : Bool) : Verdict :=
  match rules.reverse.find? fun r =>
      (!r.onlyDirectories || isDirectory) && r.glob.accepts path with
  | some r => if r.keeps then .kept else .ignored
  | none => .unmatched

end IgnoreRules

end LintMend
