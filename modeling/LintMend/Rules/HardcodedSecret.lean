import LintMend.Check.Checker
import LintMend.Text.Pattern

/-!
# Hard-coded secrets

Text that is bound to a name that sounds like a secret. Placeholders are no secrets.
-/

namespace LintMend.HardcodedSecret

open Text (Pattern)

/-- The groups of the pattern: the name and the value. -/
def nameGroup : Nat := 0

def valueGroup : Nat := 1

/-- A name of two words, which an underscore may separate. -/
def twoWords (first second : String) : Pattern :=
  .all [.folded first, .optional (.foldedChar '_'), .folded second]

/-- Parts of names that sound like a secret. -/
def usualNames : List Pattern :=
  [.folded "password", .folded "passwd", .folded "secret", twoWords "api" "key",
   twoWords "access" "token", twoWords "private" "key"]

/-- A type after a colon. -/
def typePart : Pattern :=
  .all [.char ':', .blanks, .many 1 fun c => Text.isWordChar c || c == '&' || c == '<' || c == '>',
    .blanks]

/-- A name with one of the parts, perhaps with a type, an equals sign or a colon, and a text in
quotes of four characters or more. -/
def pattern (names : List Pattern) : Pattern :=
  .all [.wordEdge,
    .group nameGroup (.all [.wordChars, .any names, .wordChars]),
    .blanks, .optional typePart,
    .any [.char '=', .char ':', .literal "=>"],
    .blanks, .char '"', .group valueGroup (.many 4 (· != '"')), .char '"']

/-- The parts to look for: the usual ones and those of the option `names`. Every such list makes a
pattern. A matcher that bounds the size of its patterns goes back to the usual parts alone where the
option is too long for it; there is no such bound here. -/
def namesFor (settings : RuleSettings) : List Pattern :=
  usualNames ++ ((settings.texts? "names").getD []).map Pattern.folded

/-- The value stands for a secret that is not there. -/
def isPlaceholder (value : List Char) : Bool :=
  "$\x7b".toList.isPrefixOf value || value.all fun c => c == '*' || c == 'x' || c == 'X'

def check (pattern : Pattern) (c : Context) : Entity → Outcome (List Issue)
  | .statement _ s =>
    match pattern.search? (c.unit.originLine s.origin).toList with
    | none => .ok []
    | some group =>
      if isPlaceholder (group valueGroup) then .ok []
      else do
        let name := String.ofList (group nameGroup)
        let defect ← c.defectAt s.origin name s!"`{name}` is assigned a hard-coded credential"
        let hint :=
          s!"Load `{name}` from the environment or a secret store instead of embedding it"
        return [.withFix defect (toString s.id) (.suggestion hint)]
  | _ => .ok []

/-- The id of the rule. -/
def id : String := "hardcoded-secret"

/-- The rule with the names of its settings. -/
def rule (settings : RuleSettings) : Checker where
  id := id
  severity := .error
  description := "Credential embedded in source code"
  matchers := [⟨.statement, none⟩]
  check c e := .ofFound (check (pattern (namesFor settings)) c e)

end LintMend.HardcodedSecret
