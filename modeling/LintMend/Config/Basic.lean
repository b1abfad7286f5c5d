import LintMend.Defect.Severity
import LintMend.Directive
import LintMend.Disk.Path
import LintMend.Text.Blank
import LintMend.Toml.Value

/-!
# Settings of a run
-/

namespace LintMend

/-- Settings of a rule. Options are for the rule itself to read. -/
structure RuleSettings where
  enabled : Bool := true
  severity : Option Severity := none
  options : List (String × Toml) := []

namespace RuleSettings

/-- The severity that is set, or the rule's own. -/
def severityOr (s : RuleSettings) (own : Severity) : Severity := s.severity.getD own

/-- An option that is a number and not negative. -/
def number? (s : RuleSettings) (key : String) : Option Nat :=
  (Toml.lookup? s.options key).bind Toml.natural?

/-- An option that is a list of texts. Other items are passed over. -/
def texts? (s : RuleSettings) (key : String) : Option (List String) :=
  match Toml.lookup? s.options key with
  | some (.array items) => some (items.filterMap Toml.text?)
  | _ => none

end RuleSettings

/-- Settings of automatic fixing. -/
structure FixSettings where
  enabled : Bool := false
  mode : String := "unit-fix"
  outputDir : String := "target/checkfix"
  suggestionTimeout : Nat := 5000
deriving DecidableEq, Repr

/-- All settings. Rules are in the order of their ids. -/
structure Config where
  ignore : List String := []
  rules : List (String × RuleSettings) := []
  autofix : FixSettings := {}
  directives : Markers := {}
  parallel : Bool := true

/-- Why settings cannot be used. -/
inductive ConfigError where
  | read (path reason : String)
  | parse (path reason : String)
  | unsupportedMode (mode : String)
  | invalidIgnore (pattern reason : String)
  | emptyDirective (field : String)
  | unsafeOutputDir (path reason : String)
deriving DecidableEq, Repr

def ConfigError.message : ConfigError → String
  | .read path reason => s!"failed to read {path}: {reason}"
  | .parse path reason => s!"failed to parse {path}: {reason}"
  | .unsupportedMode mode =>
    s!"unsupported fix mode '{mode}' (expected text-patch, unit-fix or external-suggestion)"
  | .invalidIgnore pattern reason => s!"invalid ignore pattern '{pattern}': {reason}"
  | .emptyDirective field => s!"directive marker `directives.{field}` must not be empty"
  | .unsafeOutputDir path reason => s!"refusing to clear output directory {path}: {reason}"

namespace Config

/-- The name of the file with settings. -/
def fileName : String := ".checkfix.toml"

/-- The settings of a rule; a rule without any has the usual ones. -/
def rule (c : Config) (id : String) : RuleSettings := (Toml.lookup? c.rules id).getD {}

def isEnabled (c : Config) (id : String) : Bool := (c.rule id).enabled

/-- Makes a relative output directory relative to `root`. -/
def anchorTo (c : Config) (root : String) : Config :=
  if Path.isAbsolute c.autofix.outputDir then c
  else { c with autofix := { c.autofix with outputDir := Path.join root c.autofix.outputDir } }

/-- An empty marker would mark every line. -/
def markerError? (c : Config) : Option ConfigError :=
  if isBlankText c.directives.file then some (.emptyDirective "file")
  else if isBlankText c.directives.nextLine then some (.emptyDirective "next_line")
  else none

end Config

end LintMend
