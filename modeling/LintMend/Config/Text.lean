import LintMend.Config.Basic
import LintMend.Toml.Reader
import LintMend.Toml.Writer

/-!
# Settings as text
-/

namespace LintMend

open Toml

/-- A severity, by number or by name. -/
def Severity.ofToml? : Toml → Option Severity
  | .integer n => some (.ofOrdinal n)
  | .string name => ofName? name
  | _ => none

def RuleSettings.ofToml? (v : Toml) : Option RuleSettings := do
  match ← v.record? ["enabled", "severity", "options"] with
  | [enabled, severity, options] =>
    return {
      enabled := ← withDefault? boolean? true enabled
      severity := ← withDefault? (fun v => (Severity.ofToml? v).map some) none severity
      options := ← withDefault? entries? [] options }
  | _ => none

def FixSettings.ofToml? (v : Toml) : Option FixSettings := do
  match ← v.record? ["enabled", "mode", "output_dir", "suggestion_timeout_ms"] with
  | [enabled, mode, outputDir, timeout] =>
    let usual : FixSettings := {}
    return {
      enabled := ← withDefault? boolean? usual.enabled enabled
      mode := ← withDefault? text? usual.mode mode
      outputDir := ← withDefault? text? usual.outputDir outputDir
      suggestionTimeout := ← withDefault? natural? usual.suggestionTimeout timeout }
  | _ => none

def Markers.ofToml? (v : Toml) : Option Markers := do
  match ← v.record? ["file", "next_line"] with
  | [file, nextLine] =>
    let usual : Markers := {}
    return {
      file := ← withDefault? text? usual.file file
      nextLine := ← withDefault? text? usual.nextLine nextLine }
  | _ => none

namespace Config

/-- Whether files are analysed side by side. -/
def parallelOfToml? (v : Toml) : Option Bool := do
  match ← v.record? ["parallel"] with
  | [parallel] => withDefault? boolean? true parallel
  | _ => none

/-- The settings of rules, by id. -/
def rulesOfToml? (v : Toml) : Option (List (String × RuleSettings)) := do
  let entries ← v.entries?
  entries.mapM fun (id, settings) => (RuleSettings.ofToml? settings).map fun s => (id, s)

def ofToml? (v : Toml) : Option Config := do
  match ← v.record? ["ignore", "rules", "autofix", "directives", "performance"] with
  | [ignore, rules, autofix, directives, performance] =>
    return {
      ignore := ← withDefault? (list? text?) [] ignore
      rules := ← withDefault? rulesOfToml? [] rules
      autofix := ← withDefault? FixSettings.ofToml? {} autofix
      directives := ← withDefault? Markers.ofToml? {} directives
      parallel := ← withDefault? parallelOfToml? true performance }
  | _ => none

/-- The settings that a text gives. The path is for messages. -/
def ofText (path content : String) : Except ConfigError Config :=
  match (Toml.parse? content).bind ofToml? with
  | none => .error (.parse path "not a table of settings")
  | some config =>
    match config.markerError? with
    | some e => .error e
    | none => .ok config

/-! ## Writing -/

/-- A line that sets a key. -/
def line (key : String) (value : Toml) : String := key ++ " = " ++ value.inline

/-- The sections of a rule. Options that are missing are left out. -/
def ruleSections (id : String) (s : RuleSettings) : List Section :=
  let path := ["rules", id]
  let severity := s.severity.toList.map fun severity => line "severity" (.string severity.name)
  let own : Section :=
    ⟨some ("[" ++ ".".intercalate (path.map quoteKey) ++ "]"),
      line "enabled" (.boolean s.enabled) :: severity⟩
  let optionPath := path ++ ["options"]
  let options :=
    if s.options.isEmpty then []
    else
      ownSection optionPath false s.options ::
        s.options.flatMap fun (key, v) =>
          if v.isSection then v.sections (optionPath ++ [key]) else []
  own :: options

/-- The sections of all settings. -/
def toSections (c : Config) : List Section :=
  [⟨none, [line "ignore" (.array (c.ignore.map .string))]⟩] ++
    (if c.rules.isEmpty then [⟨some "[rules]", []⟩]
      else c.rules.flatMap fun (id, s) => ruleSections id s) ++
    [⟨some "[autofix]",
        [line "enabled" (.boolean c.autofix.enabled), line "mode" (.string c.autofix.mode),
          line "output_dir" (.string c.autofix.outputDir),
          line "suggestion_timeout_ms" (.integer c.autofix.suggestionTimeout)]⟩,
      ⟨some "[directives]",
        [line "file" (.string c.directives.file),
          line "next_line" (.string c.directives.nextLine)]⟩,
      ⟨some "[performance]", [line "parallel" (.boolean c.parallel)]⟩]

/-- The settings as text. -/
def toText (c : Config) : String := renderSections c.toSections

/-- Why settings cannot be written. -/
inductive WriteError where
  | outOfRange
deriving DecidableEq, Repr

def WriteError.message : WriteError → String
  | .outOfRange => "out-of-range value for u64 type"

/-- Writes settings. Numbers that do not fit a signed word cannot be written. -/
def write (c : Config) : Except WriteError String :=
  if c.autofix.suggestionTimeout < signedLimit then .ok c.toText else .error .outOfRange

end Config

end LintMend
