import LintMend.Json.Value

/-!
# Severities
-/

namespace LintMend

/-- How much a finding matters. -/
inductive Severity where
  | error
  | warning
  | info
deriving DecidableEq, Repr

namespace Severity

def all : List Severity := [error, warning, info]

def name : Severity → String
  | .error => "error"
  | .warning => "warning"
  | .info => "info"

/-- The number of a severity; one is the gravest. -/
def ordinal : Severity → Nat
  | .error => 1
  | .warning => 2
  | .info => 3

/-- The severity of a number. Numbers out of range stand for the nearest severity. -/
def ofOrdinal (n : Int) : Severity :=
  if n ≤ 1 then .error else if n ≤ 2 then .warning else .info

/-- The severity with the name. -/
def ofName? (name : String) : Option Severity := all.find? (·.name == name)

/-- The level of a notice in the annotations of a build. -/
def annotationLevel : Severity → String
  | .error => "error"
  | .warning => "warning"
  | .info => "notice"

/-- A severity as settings give it: by number or by name. -/
def ofJson? : Json → Option Severity
  | .integer n => if -signedLimit ≤ n ∧ n < signedLimit then some (ofOrdinal n) else none
  | j => j.choice? ofName?

/-- A number for each severity. -/
structure Tally where
  error : Nat := 0
  warning : Nat := 0
  info : Nat := 0
deriving DecidableEq, Repr

namespace Tally

def get (t : Tally) : Severity → Nat
  | .error => t.error
  | .warning => t.warning
  | .info => t.info

/-- One more of a severity. -/
def bump (t : Tally) : Severity → Tally
  | .error => { t with error := t.error + 1 }
  | .warning => { t with warning := t.warning + 1 }
  | .info => { t with info := t.info + 1 }

/-- One more for each of some severities. -/
def bumpAll (t : Tally) (severities : List Severity) : Tally := severities.foldl bump t

/-- All numbers together. -/
def total (t : Tally) : Nat := t.error + t.warning + t.info

end Tally

theorem ofOrdinal_ordinal (s : Severity) : ofOrdinal s.ordinal = s := by cases s <;> decide

theorem ofName?_name (s : Severity) : ofName? s.name = some s := by cases s <;> decide

end Severity

end LintMend
