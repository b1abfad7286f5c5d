import LintMend.Proofs.RepairConservation

/-!
# Backends that are given up

A backend is asked for two things, its name and a suggestion. The suggestion is asked for in a task of
its own, so that whatever happens there comes back as an error of the suggestion. The limit cuts a
backend off only while it waits; one that works on without letting go of its thread is heard however
late it is. The name is asked for outside of that task. A backend that is given up over its name takes
the caller down with it, unless the whole exchange is held apart from the caller. Notes do not change
this for the better: for them it is the caller who asks for the name.
-/

namespace LintMend

/-! ## Courses and limits -/

namespace Course

variable {c : Course} {limit now time : Nat} {reply : BackendReply}

end Course

/-! ## One exchange -/

namespace Backend

variable {b : Backend} (limit : Nat) (input : SuggestionInput)

/-- With a name, it does not matter where the backend is asked. -/
theorem ask_of_named {name : String} (h : b.name = .ok name) (apart : Bool) :
    b.ask apart limit input = .ok (withContent ((b.reply limit input).result name limit)) := by
  rw [ask, run, h]
  rfl

/-- Without a name, only a place of its own keeps the backend from taking the caller down. -/
theorem ask_of_unnamed {a : Abort} (h : b.name = .error a) (apart : Bool) :
    b.ask apart limit input =
      if apart then .ok (.error (.backend "suggestion thread panicked")) else .error a := by
  have hrun : b.run limit input = .error a := by
    rw [run, h]
    rfl
  rw [ask, hrun]
  cases apart <;> rfl

end Backend

/-! ## Attempts -/

namespace Strategy

variable {s : Strategy} {u : ProgramUnit} {issue : Issue}

/-- The attempt that a suggestion is. -/
def ofSuggestion : Except SuggestionError String → Except FixError Attempt
  | .ok text => .ok ⟨text, none⟩
  | .error e => .error (.suggestion e)

theorem attempt_eq_ask (hmode : s.mode = .externalSuggestion) {hint : String}
    (hfix : issue.fix = some (.suggestion hint)) :
    s.attempt u issue =
      (s.backend.ask s.apart s.limit ⟨u.name, u.source, issue.defect, hint⟩).map ofSuggestion := by
  rw [attempt, hmode, hfix]
  change s.attemptSuggestion u issue.defect hint = _
  rw [attemptSuggestion]
  cases s.backend.ask s.apart s.limit ⟨u.name, u.source, issue.defect, hint⟩ with
  | error a => rfl
  | ok result => cases result <;> rfl

theorem attemptNoting_of_not_asked (hmode : s.mode = .externalSuggestion)
    (hfix : ∀ hint, issue.fix ≠ some (.suggestion hint)) (notes : Bool) :
    s.attemptNoting notes u issue = .ok (.error (.notApplicable issue.ruleId)) := by
  rw [attemptNoting, attempt, hmode]
  cases h : issue.fix with
  | none => rfl
  | some fix =>
    cases fix with
    | suggestion hint => exact absurd h (hfix hint)
    | patch p => rfl
    | unit fix => rfl

theorem attemptNoting_eq (hmode : s.mode = .externalSuggestion) {hint : String}
    (hfix : issue.fix = some (.suggestion hint)) (notes : Bool) :
    s.attemptNoting notes u issue =
      if notes then s.backend.name >>= fun _ => s.attempt u issue else s.attempt u issue := by
  rw [attemptNoting, hmode, hfix]

theorem attemptNoting_of_named (hmode : s.mode = .externalSuggestion) {hint name : String}
    (hfix : issue.fix = some (.suggestion hint)) (hname : s.backend.name = .ok name) (notes : Bool) :
    s.attemptNoting notes u issue = .ok (ofSuggestion (withContent
      ((s.backend.reply s.limit ⟨u.name, u.source, issue.defect, hint⟩).result name s.limit))) := by
  rw [attemptNoting_eq hmode hfix, hname, attempt_eq_ask hmode hfix, Backend.ask_of_named _ _ hname]
  cases notes <;> rfl

theorem attemptNoting_of_unnamed (hmode : s.mode = .externalSuggestion) {hint : String} {a : Abort}
    (hfix : issue.fix = some (.suggestion hint)) (hname : s.backend.name = .error a) (notes : Bool) :
    s.attemptNoting notes u issue =
      if notes || !s.apart then .error a
      else .ok (.error (.suggestion (.backend "suggestion thread panicked"))) := by
  rw [attemptNoting_eq hmode hfix, hname, attempt_eq_ask hmode hfix,
    Backend.ask_of_unnamed _ _ hname]
  cases notes <;> cases s.apart <;> rfl

/-- Without notes, an attempt comes to a result if the backend has a name or is asked apart. -/
theorem exists_attempt (hmode : s.mode = .externalSuggestion)
    (h : s.apart = true ∨ ∃ name, s.backend.name = .ok name) (u : ProgramUnit) (issue : Issue) :
    ∃ result, s.attempt u issue = .ok result := by
  have hnoting : s.attemptNoting false u issue = s.attempt u issue := by
    unfold attemptNoting
    split <;> rfl
  rw [← hnoting]
  by_cases hasked : ∃ hint, issue.fix = some (.suggestion hint)
  · rcases hasked with ⟨hint, hfix⟩
    cases hname : s.backend.name with
    | ok name => exact ⟨_, attemptNoting_of_named hmode hfix hname false⟩
    | error a =>
      have hapart : s.apart = true := h.resolve_right (by simp [hname])
      rw [attemptNoting_of_unnamed hmode hfix hname, hapart]
      exact ⟨_, rfl⟩
  · rw [not_exists] at hasked
    exact ⟨_, attemptNoting_of_not_asked hmode hasked false⟩

end Strategy

/-! ## Repairs -/

namespace Strategy

end Strategy

end LintMend
