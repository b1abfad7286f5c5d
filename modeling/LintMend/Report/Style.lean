import LintMend.Defect.Issue

/-!
# Colours of terminal output
-/

namespace LintMend

/-- How text stands out. -/
inductive Style where
  | bold
  | dimmed
  | green
  | yellow
  | boldRed
  | boldGreen
  | boldYellow
  | boldMagenta
  | boldCyan
deriving DecidableEq, Repr

/-- The code of a style. -/
def Style.code : Style → String
  | .bold => "1"
  | .dimmed => "2"
  | .green => "32"
  | .yellow => "33"
  | .boldRed => "1;31"
  | .boldGreen => "1;32"
  | .boldYellow => "1;33"
  | .boldMagenta => "1;35"
  | .boldCyan => "1;36"

/-- The text in a style, if there is colour. -/
def paint (colour : Bool) (style : Style) (text : String) : String :=
  if colour then "\x1b[" ++ style.code ++ "m" ++ text ++ "\x1b[0m" else text

def Severity.style : Severity → Style
  | .error => .boldRed
  | .warning => .boldYellow
  | .info => .boldCyan

/-- A finding on one line. -/
def Defect.display (colour : Bool) (d : Defect) : String :=
  let severity := paint colour d.severity.style d.severity.name
  let rule := paint colour .dimmed d.ruleId
  s!"  {d.startLine}:{d.startColumn} {severity} [{rule}] {d.description}"

end LintMend
