import LintMend.Check.Checker

/-!
# Size limits

Methods with too many statements or paths, classes with too many methods and files with too many
lines. Each limit is an option of its rule.
-/

namespace LintMend.Size

/-- A finding about a method that has a place in the source. -/
def methodIssue (c : Context) (m : Method) (o : Origin) (description : String) :
    Outcome (List Issue) := do
  return [⟨← c.defectAt o m.name description, none⟩]

/-- Checks a number that belongs to a method against a limit. -/
def checkMethod (count : Method → Nat) (limit : Nat) (words : Nat → String) (c : Context) :
    Entity → Outcome (List Issue)
  | .method cls m =>
    match m.origin with
    | none => .ok []
    | some o =>
      if limit < count m then
        methodIssue c m o s!"Method '{cls.name}::{m.name}' has {words (count m)} (max: {limit})"
      else .ok []
  | _ => .ok []

def longMethodId : String := "long-method"

/-- Methods with too many statements. -/
def longMethod (settings : RuleSettings) : Checker where
  id := longMethodId
  severity := .warning
  description := "Method body has too many statements"
  matchers := [⟨.method, none⟩]
  check c e := .ofFound (checkMethod Method.statementCount
    ((settings.number? "max_statements").getD 50) (fun n => s!"{n} statements") c e)

def complexityId : String := "cyclomatic-complexity"

/-- Methods with too many independent paths. -/
def complexity (settings : RuleSettings) : Checker where
  id := complexityId
  severity := .warning
  description := "Method has too many independent paths"
  matchers := [⟨.method, none⟩]
  check c e := .ofFound (checkMethod (·.graph.complexity)
    ((settings.number? "max_complexity").getD 10) (fun n => s!"cyclomatic complexity of {n}") c e)

/-- Methods of a class that have source of their own. -/
def ownMethods (c : Class) : Nat := (c.methods.filter (!·.isSynthetic)).length

def checkClass (limit : Nat) (c : Context) : Entity → Outcome (List Issue)
  | .classDef cls =>
    if limit < ownMethods cls then do
      let defect ← c.defect (cls.origin.getD c.unitOrigin)
        s!"'{cls.name}' has {ownMethods cls} methods (max: {limit})"
      return [⟨defect, none⟩]
    else .ok []
  | _ => .ok []

def largeClassId : String := "large-class"

/-- Classes with too many methods. -/
def largeClass (settings : RuleSettings) : Checker where
  id := largeClassId
  severity := .info
  description := "Class declares too many methods"
  matchers := [⟨.classDef, none⟩]
  check c e := .ofFound (checkClass ((settings.number? "max_methods").getD 30) c e)

def checkFile (limit : Nat) (c : Context) : Entity → Outcome (List Issue)
  | .file u =>
    if limit < u.lines.length then do
      let defect ← c.defect c.unitOrigin s!"File has {u.lines.length} lines (max: {limit})"
      return [⟨defect, none⟩]
    else .ok []
  | _ => .ok []

def largeUnitId : String := "large-unit"

/-- Files with too many lines. -/
def largeUnit (settings : RuleSettings) : Checker where
  id := largeUnitId
  severity := .info
  description := "Source file is too long"
  matchers := [⟨.file, none⟩]
  check c e := .ofFound (checkFile ((settings.number? "max_lines").getD 1000) c e)

end LintMend.Size
