import LintMend.Rules.ConsoleOutput
import LintMend.Rules.HardcodedSecret
import LintMend.Rules.Size
import LintMend.Rules.SqlInjection
import LintMend.Rules.WeakCrypto

/-!
# The built-in rules
-/

namespace LintMend

/-- The built-in rules with their settings, in the order in which they report. -/
def builtinRules (config : Config) : List Checker :=
  [ConsoleOutput.rule, WeakCrypto.rule, HardcodedSecret.rule (config.rule HardcodedSecret.id),
   SqlInjection.rule, Size.longMethod (config.rule Size.longMethodId),
   Size.complexity (config.rule Size.complexityId),
   Size.largeClass (config.rule Size.largeClassId),
   Size.largeUnit (config.rule Size.largeUnitId)]

end LintMend
