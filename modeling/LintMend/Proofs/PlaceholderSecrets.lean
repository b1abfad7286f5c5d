import LintMend.Proofs.PatternMeaning
import LintMend.Proofs.ProposedFixes

/-!
# Placeholders and secrets

The rule on hard-coded secrets looks at the first match in the first line of a statement only. So a
placeholder hides all secrets that follow it in the line. Apart from that the rule is right: what it
reports is no placeholder, and a line in which all matches are placeholders is not reported.
-/

namespace LintMend

namespace HardcodedSecret

open Text (Pattern)
open Text.Pattern (Match)

/-! ## Matches -/

/-- The rule's pattern needs quotes, so it never fits nothing. -/
theorem not_fits_nil (names : List Pattern) (before : Option Char) (after : List Char) :
    ¬ (pattern names).Fits before [] after := by
  have hquote : ∀ before after, ¬ (Pattern.char '"').Fits before [] after := by
    intro before after h
    cases Text.Pattern.fits_char.1 h
  apply Text.Pattern.not_fits_nil_all _ hquote
  simp

/-- The value of the match is no placeholder. -/
def IsReal (line : List Char) (m : Match) : Prop := isPlaceholder (m.group line valueGroup) = false

/-- The name that a match binds. -/
def nameOf (line : List Char) (m : Match) : String := String.ofList (m.group line nameGroup)

/-! ## What is reported -/

/-- The issue of a statement that binds a secret to the name. -/
def issueOf (c : Context) (s : Statement) (name : String) : Issue :=
  .withFix (c.defectOf s.origin name s!"`{name}` is assigned a hard-coded credential") (toString s.id)
    (.suggestion s!"Load `{name}` from the environment or a secret store instead of embedding it")

section Reported

variable {settings : RuleSettings} {c : Context} {s : Statement} {line : List Char} {found : List Match}

theorem search?_eq_head? (hline : line = (c.unit.originLine s.origin).toList)
    (hfound : found = (pattern (namesFor settings)).successive line) :
    (pattern (namesFor settings)).search? (c.unit.originLine s.origin).toList =
      found.head?.map fun m => m.group line := by
  rw [hfound, Text.Pattern.head?_successive, Text.Pattern.search?_eq, hline]

theorem issuesAlone_of_real {first : Match} (hline : line = (c.unit.originLine s.origin).toList)
    (hfound : found = (pattern (namesFor settings)).successive line) (hfirst : found.head? = some first)
    (hreal : IsReal line first) (hfits : c.Fits s.origin (nameOf line first)) (m : Method) :
    (rule settings).issuesAlone c (.statement m s) = [issueOf c s (nameOf line first)] := by
  apply Checker.issuesAlone_of_found rfl
  have hvalue : isPlaceholder (first.group line valueGroup) = false := hreal
  have hdefect := Context.defectAt_of_fits hfits
    s!"`{nameOf line first}` is assigned a hard-coded credential"
  rw [nameOf] at hdefect
  simp only [check, search?_eq_head? hline hfound, hfirst, Option.map_some, hvalue, hdefect]
  rfl

theorem issuesAlone_of_not (hline : line = (c.unit.originLine s.origin).toList)
    (hfound : found = (pattern (namesFor settings)).successive line)
    (h : ¬ ∃ first, found.head? = some first ∧ IsReal line first ∧ c.Fits s.origin (nameOf line first))
    (m : Method) : (rule settings).issuesAlone c (.statement m s) = [] := by
  have hsearch := search?_eq_head? hline hfound
  cases hfirst : found.head? with
  | none =>
    apply Checker.issuesAlone_of_found rfl
    simp only [check, hsearch, hfirst, Option.map_none]
  | some first =>
    by_cases hreal : IsReal line first
    · have hfits : ¬ c.Fits s.origin (nameOf line first) := fun hfits => h ⟨first, hfirst, hreal, hfits⟩
      have hvalue : isPlaceholder (first.group line valueGroup) = false := hreal
      have hdefect := Context.defectAt_of_not_fits hfits
        s!"`{nameOf line first}` is assigned a hard-coded credential"
      rw [nameOf] at hdefect
      have hcheck : check (pattern (namesFor settings)) c (.statement m s) =
          .error Context.overflow := by
        simp only [check, hsearch, hfirst, Option.map_some, hvalue, hdefect]
        rfl
      simp [Checker.issuesAlone, rule, hcheck, Reporting.ofFound]
    · apply Checker.issuesAlone_of_found rfl
      have hvalue : isPlaceholder (first.group line valueGroup) = true :=
        Bool.eq_true_of_not_eq_false hreal
      simp only [check, hsearch, hfirst, Option.map_some, hvalue, if_true]

end Reported

/-- A statement is reported exactly if the first of the successive matches in its first line is no
placeholder and the columns fit, and then for the name that this match binds. So a line without a real
match is not reported, and the report is the right one for all matches unless the first is a
placeholder and a later one is not. -/
theorem reported_iff_first_real (settings : RuleSettings) (c : Context) (m : Method) (s : Statement) :
    let line := (c.unit.originLine s.origin).toList
    let found := (pattern (namesFor settings)).successive line
    let issues := (rule settings).issuesAlone c (.statement m s)
    (rule settings).accepts (.statement m s) = true ∧
      (pattern (namesFor settings)).Successive (.ofText line) found ∧
      (∀ first, found.head? = some first → IsReal line first → c.Fits s.origin (nameOf line first) →
        issues = [issueOf c s (nameOf line first)]) ∧
      (issues ≠ [] → ∃ first, found.head? = some first ∧ IsReal line first ∧
        c.Fits s.origin (nameOf line first)) ∧
      ((∀ found' ∈ found, ¬ IsReal line found') → issues = []) ∧
      ((∀ first, found.head? = some first → c.Fits s.origin (nameOf line first)) →
        ((issues ≠ [] ↔ ∃ real ∈ found, IsReal line real) ↔
          ¬ ∃ first later, found = first :: later ∧ ¬ IsReal line first ∧
            ∃ real ∈ later, IsReal line real)) := by
  intro line found issues
  have hreported : ∀ first, found.head? = some first → IsReal line first →
      c.Fits s.origin (nameOf line first) → issues = [issueOf c s (nameOf line first)] :=
    fun first hfirst hreal hfits => issuesAlone_of_real rfl rfl hfirst hreal hfits m
  have hsome : issues ≠ [] → ∃ first, found.head? = some first ∧ IsReal line first ∧
      c.Fits s.origin (nameOf line first) := by
    intro hissues
    by_contra hnot
    exact hissues (issuesAlone_of_not rfl rfl hnot m)
  refine ⟨rfl, Text.Pattern.successive_successive (not_fits_nil _) line, hreported, hsome, ?_, ?_⟩
  · intro hnone
    by_contra hissues
    rcases hsome hissues with ⟨first, hfirst, hreal, -⟩
    exact hnone first (List.mem_of_head? hfirst) hreal
  · intro hfits
    constructor
    · rintro hagree ⟨first, later, hparts, hplaceholder, real, hlater, hreal⟩
      have hmem : real ∈ found := hparts ▸ List.mem_cons_of_mem first hlater
      rcases hsome (hagree.2 ⟨real, hmem, hreal⟩) with ⟨first', hfirst, hreal', -⟩
      rw [hparts] at hfirst
      cases hfirst
      exact hplaceholder hreal'
    · intro hhidden
      constructor
      · intro hissues
        rcases hsome hissues with ⟨first, hfirst, hreal, -⟩
        exact ⟨first, List.mem_of_head? hfirst, hreal⟩
      · rintro ⟨real, hmem, hreal⟩
        rcases List.exists_cons_of_ne_nil (List.ne_nil_of_mem hmem) with ⟨first, later, hparts⟩
        have hfirst : found.head? = some first := by rw [hparts, List.head?_cons]
        have hfirstReal : IsReal line first := by
          by_contra hplaceholder
          rw [hparts] at hmem
          rcases List.mem_cons.1 hmem with rfl | hlater
          · exact hplaceholder hreal
          · exact hhidden ⟨first, later, hparts, hplaceholder, real, hlater, hreal⟩
        rw [hreported first hfirst hfirstReal (hfits first hfirst)]
        exact List.cons_ne_nil _ _

/-- A source with a masked password in front of a secret. -/
def masked : String :=
  "fn f() \x7b login(User \x7b password: \"********\", secret: \"hunter22\" \x7d); \x7d"

/-- The only statement in it. -/
def maskedStatement : Statement where
  id := 0
  origin := ⟨1, 10, ⟨9, 66⟩⟩
  text := "login(User \x7b password: \"********\", secret: \"hunter22\" \x7d);"
  expressions :=
    [⟨.call, some "login", "login(User \x7b password: \"********\", secret: \"hunter22\" \x7d)",
      ⟨1, 10, ⟨9, 65⟩⟩⟩,
     ⟨.stringLiteral, none, "\"********\"", ⟨1, 33, ⟨32, 42⟩⟩⟩,
     ⟨.stringLiteral, none, "\"hunter22\"", ⟨1, 53, ⟨52, 62⟩⟩⟩]

def maskedMethod : Method := ⟨"f", some ⟨1, 1, ⟨0, 68⟩⟩, ⟨[⟨0, [maskedStatement]⟩], []⟩⟩

/-- What is lowered from it. -/
def maskedUnit : ProgramUnit where
  name := "a.rs"
  path := "a.rs"
  source := masked
  classes := [⟨"<module>", none, [maskedMethod]⟩]

/-- The second match is a real secret, and nothing is reported. -/
theorem unreported_masked :
    let line := (maskedUnit.originLine maskedStatement.origin).toList
    let found := (pattern (namesFor {})).successive line
    (Frontend.parse "a.rs" "a.rs" masked).toOption = some maskedUnit ∧
      (∃ real ∈ found, IsReal line real ∧ nameOf line real = "secret") ∧
      (rule {}).issuesAlone ((rule {}).context maskedUnit {}) (.statement maskedMethod maskedStatement) =
        [] := by
  intro line found
  have hany : (found.any fun m =>
      !isPlaceholder (m.group line valueGroup) && nameOf line m == "secret") = true := by
    decide +kernel
  rcases List.any_eq_true.1 hany with ⟨real, hmem, hreal⟩
  rw [Bool.and_eq_true, Bool.not_eq_true', beq_iff_eq] at hreal
  have hnone : ((rule {}).issuesAlone ((rule {}).context maskedUnit {})
      (.statement maskedMethod maskedStatement)).isEmpty = true := by
    decide +kernel
  exact ⟨by decide +kernel, ⟨real, hmem, hreal⟩, List.isEmpty_iff.1 hnone⟩

end HardcodedSecret

end LintMend
