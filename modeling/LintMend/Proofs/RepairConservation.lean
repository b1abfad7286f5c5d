import LintMend.Proofs.OutputWriting
import LintMend.Repair.Engine

/-!
# What a repair conserves

The issues of a unit are tried in order, and each is tried on the unit as it was given. The first one
whose fix succeeds is taken out of the list. Until then nothing changes: failed attempts leave the
unit and the list alone, and failed writings leave at most the draft behind on the disk.
-/

namespace LintMend

namespace Strategy

theorem unit_of_attemptPatch {u : ProgramUnit} {p : Patch} {a : Attempt}
    (h : attemptPatch u p = .ok (.ok a)) : a.unit = none := by
  unfold attemptPatch at h
  rcases Outcome.exists_of_bind_eq_ok h with ⟨result, -, hresult⟩
  cases result with
  | error e => cases hresult
  | ok text =>
    cases hresult
    rfl

theorem unit_of_attemptSuggestion {s : Strategy} {u : ProgramUnit} {defect : Defect} {hint : String}
    {a : Attempt} (h : s.attemptSuggestion u defect hint = .ok (.ok a)) : a.unit = none := by
  unfold attemptSuggestion at h
  rcases Outcome.exists_of_bind_eq_ok h with ⟨result, -, hresult⟩
  cases result with
  | error e => cases hresult
  | ok text =>
    cases hresult
    rfl

/-- The text of a fix that works on the unit is the changed copy as it is printed. -/
theorem attemptUnitFix_eq_ok {u : ProgramUnit} {fix : UnitFix} {key : String} {a : Attempt}
    (h : attemptUnitFix u fix key = .ok (.ok a)) :
    ∃ changed, fix.change u key = .ok (some changed) ∧ Printer.print changed = .ok (.ok a.text) ∧
      a.unit = some changed := by
  unfold attemptUnitFix at h
  rcases Outcome.exists_of_bind_eq_ok h with ⟨change, hchange, hprinted⟩
  cases change with
  | none => cases hprinted
  | some changed =>
    rcases Outcome.exists_of_bind_eq_ok hprinted with ⟨result, hprint, hresult⟩
    cases result with
    | error e => cases hresult
    | ok text =>
      cases hresult
      exact ⟨changed, hchange, hprint, rfl⟩

/-- Only fixes that work on the unit give a changed copy of it. -/
theorem unit_of_attempt {s : Strategy} {u : ProgramUnit} {i : Issue} {a : Attempt}
    (h : s.attempt u i = .ok (.ok a)) :
    (∃ fix changed, s.mode = .unitFix ∧ i.fix = some (.unit fix) ∧ a.unit = some changed) ∨
      s.mode ≠ .unitFix ∧ (∀ fix, i.fix ≠ some (.unit fix)) ∧ a.unit = none := by
  unfold attempt at h
  split at h
  · rename_i patch hmode hfix
    exact .inr ⟨by simp [hmode], by simp [hfix], unit_of_attemptPatch h⟩
  · rename_i fix hmode hfix
    rcases attemptUnitFix_eq_ok h with ⟨changed, -, -, hunit⟩
    exact .inl ⟨fix, changed, hmode, hfix, hunit⟩
  · rename_i hint hmode hfix
    exact .inr ⟨by simp [hmode], by simp [hfix], unit_of_attemptSuggestion h⟩
  · simp at h

end Strategy

theorem Issue.ruleId_markFixed (i : Issue) : i.markFixed.ruleId = i.ruleId := by
  unfold markFixed
  split <;> rfl

theorem Issue.line_markFixed (i : Issue) : i.markFixed.line = i.line := by
  unfold markFixed
  split <;> rfl

namespace Engine

/-- The issue is fixable, and its fix is of the engine's mode. -/
def Candidate (e : Engine) (i : Issue) : Prop :=
  i.defect.fixable = true ∧ ∃ fix, i.fix = some fix ∧ fix.mode = e.strategy.mode

theorem isCandidate_iff {e : Engine} {i : Issue} : e.isCandidate i = true ↔ e.Candidate i := by
  unfold isCandidate Candidate
  cases i.fix <;> simp

/-- The issue is a candidate, the attempt on the unit gives a result, and its text can be written to
the disk. -/
structure Succeeds (e : Engine) (disk : Disk) (u : ProgramUnit) (i : Issue) (a : Attempt) : Prop where
  candidate : e.Candidate i
  attempted : e.strategy.attempt u i = .ok (.ok a)
  written : ∃ path, (e.output.write disk u a.text).2 = .ok path

/-- The issue is a candidate, and the attempt is given up half-way. -/
structure GivesUp (e : Engine) (u : ProgramUnit) (i : Issue) (x : Abort) : Prop where
  candidate : e.Candidate i
  attempted : e.strategy.attempt u i = .error x

/-- The issue is passed over: it is no candidate, or its fix fails. -/
def Passes (e : Engine) (disk : Disk) (u : ProgramUnit) (i : Issue) : Prop :=
  (∀ a, ¬ e.Succeeds disk u i a) ∧ ∀ x, ¬ e.GivesUp u i x

/-! ## One issue -/

variable {e : Engine} {disk left : Disk} {u : ProgramUnit} {i : Issue}

theorem passes_of_not_candidate (h : ¬ e.Candidate i) : e.Passes disk u i :=
  ⟨fun _ hsucceeds => h hsucceeds.candidate, fun _ hgivesUp => h hgivesUp.candidate⟩

/-- An issue that is passed over goes to the others, and nothing else happens. -/
theorem repairFrom_of_passes (h : e.Passes disk u i) (hleft : e.output.Leftover disk u left)
    (passed rest : List Issue) :
    ∃ left', e.output.Leftover disk u left' ∧
      e.repairFrom u passed left (i :: rest) = e.repairFrom u (i :: passed) left' rest := by
  rw [repairFrom]
  by_cases hcandidate : e.isCandidate i = true
  · rw [if_pos hcandidate]
    have hcand := isCandidate_iff.1 hcandidate
    cases hattempt : e.strategy.attempt u i with
    | error x => exact absurd ⟨hcand, hattempt⟩ (h.2 x)
    | ok result =>
      cases result with
      | error err =>
        refine ⟨left, hleft, ?_⟩
        simp [tryIssue, hattempt, bind, Except.bind, pure, Except.pure]
      | ok a =>
        cases hwrite : (e.output.write disk u a.text).2 with
        | ok path => exact absurd ⟨hcand, hattempt, path, hwrite⟩ (h.1 a)
        | error err =>
          rcases hleft.write hwrite with ⟨left', err', hfailed, hleft'⟩
          refine ⟨left', hleft', ?_⟩
          simp [tryIssue, hattempt, hfailed, bind, Except.bind, pure, Except.pure, Except.map]
  · rw [if_neg hcandidate]
    exact ⟨left, hleft, rfl⟩

theorem repairFrom_of_succeeds {a : Attempt} (h : e.Succeeds disk u i a) (passed rest : List Issue) :
    e.repairFrom u passed disk (i :: rest) =
      .ok ((e.output.write disk u a.text).1, a.unit.getD u,
        { remaining := passed.reverse ++ rest, applied := some i.markFixed,
          outputPath := some (e.output.artifactPath u) }) := by
  rcases h.written with ⟨path, hpath⟩
  have hartifact := (OutputDir.read_of_write hpath).1
  have hwrite : e.output.write disk u a.text =
      ((e.output.write disk u a.text).1, .ok (e.output.artifactPath u)) := by
    rw [← hartifact, ← hpath]
  have htry : e.tryIssue disk u i =
      .ok ((e.output.write disk u a.text).1, .ok (e.output.artifactPath u, a.unit.getD u)) := by
    unfold tryIssue
    rw [h.attempted]
    simp only [bind, Except.bind, pure, Except.pure]
    rw [hwrite]
    rfl
  rw [repairFrom, if_pos (isCandidate_iff.2 h.candidate), htry]
  rfl

theorem repairFrom_of_givesUp {x : Abort} (h : e.GivesUp u i x) (passed rest : List Issue) :
    e.repairFrom u passed left (i :: rest) = .error x := by
  rw [repairFrom, if_pos (isCandidate_iff.2 h.candidate), tryIssue, h.attempted]
  rfl

/-! ## A run over issues -/

/-- Issues that are passed over stay in the list, in order. -/
theorem repairFrom_append {issues : List Issue} (h : ∀ j ∈ issues, e.Passes disk u j)
    (hleft : e.output.Leftover disk u left) (passed rest : List Issue) :
    ∃ left', e.output.Leftover disk u left' ∧
      e.repairFrom u passed left (issues ++ rest) =
        e.repairFrom u (issues.reverse ++ passed) left' rest := by
  induction issues generalizing left passed with
  | nil => exact ⟨left, hleft, rfl⟩
  | cons j issues ih =>
    rw [List.forall_mem_cons] at h
    rcases repairFrom_of_passes h.1 hleft passed (issues ++ rest) with ⟨next, hnext, hstep⟩
    rcases ih h.2 hnext (j :: passed) with ⟨left', hleft', hrun⟩
    refine ⟨left', hleft', ?_⟩
    rw [List.cons_append, hstep, hrun, List.reverse_cons, List.append_assoc]
    rfl

/-- Either all issues are passed over, or there is a first one that is not. -/
theorem passes_or_exists_first (e : Engine) (disk : Disk) (u : ProgramUnit) (issues : List Issue) :
    (∀ i ∈ issues, e.Passes disk u i) ∨
      ∃ before i after, issues = before ++ i :: after ∧ (∀ j ∈ before, e.Passes disk u j) ∧
        ((∃ a, e.Succeeds disk u i a) ∨ ∃ x, e.GivesUp u i x) := by
  induction issues with
  | nil =>
    left
    intro i hi
    simp at hi
  | cons i issues ih =>
    by_cases hpasses : e.Passes disk u i
    · rcases ih with hall | ⟨before, j, after, rfl, hbefore, hfirst⟩
      · exact .inl (List.forall_mem_cons.2 ⟨hpasses, hall⟩)
      · exact .inr ⟨i :: before, j, after, rfl, List.forall_mem_cons.2 ⟨hpasses, hbefore⟩, hfirst⟩
    · refine .inr ⟨[], i, issues, rfl, by simp, ?_⟩
      by_contra hnone
      apply hpasses
      exact ⟨fun a ha => hnone (.inl ⟨a, ha⟩), fun x hx => hnone (.inr ⟨x, hx⟩)⟩

theorem repair_of_passes {issues : List Issue} (h : ∀ i ∈ issues, e.Passes disk u i) :
    ∃ left, e.output.Leftover disk u left ∧
      e.repair disk u issues = .ok (left, u, { remaining := issues }) := by
  rcases repairFrom_append h (.inl rfl) [] [] with ⟨left, hleft, hrun⟩
  refine ⟨left, hleft, ?_⟩
  rw [List.append_nil] at hrun
  rw [repair, hrun, repairFrom, List.append_nil, List.reverse_reverse]
  rfl

theorem repair_of_succeeds {before after : List Issue} {a : Attempt}
    (hbefore : ∀ j ∈ before, e.Passes disk u j) (h : e.Succeeds disk u i a) :
    e.repair disk u (before ++ i :: after) =
      .ok ((e.output.write disk u a.text).1, a.unit.getD u,
        { remaining := before ++ after, applied := some i.markFixed,
          outputPath := some (e.output.artifactPath u) }) := by
  rcases repairFrom_append hbefore (.inl rfl) [] (i :: after) with ⟨left, hleft, hrun⟩
  rcases h.written with ⟨path, hpath⟩
  -- Where this text can be written, no writing has failed before, so the disk is still the first one.
  rw [hleft.eq_of_write hpath] at hrun
  rw [repair, hrun, repairFrom_of_succeeds h, List.append_nil, List.reverse_reverse]

theorem repair_of_givesUp {before after : List Issue} {x : Abort}
    (hbefore : ∀ j ∈ before, e.Passes disk u j) (h : e.GivesUp u i x) :
    e.repair disk u (before ++ i :: after) = .error x := by
  rcases repairFrom_append hbefore (.inl rfl) [] (i :: after) with ⟨left, -, hrun⟩
  rw [repair, hrun, repairFrom_of_givesUp h]

/-- What becomes of the unit and of the issue that is taken out: only a fix that works on the unit
changes the unit, and it is marked as done. -/
theorem Succeeds.changes {a : Attempt} (h : e.Succeeds disk u i a) :
    (∃ fix, e.strategy.mode = .unitFix ∧ i.fix = some (.unit fix) ∧ a.unit = some (a.unit.getD u) ∧
      i.markFixed = { i with fix := some (.unit { fix with fixed := true }) }) ∨
      e.strategy.mode ≠ .unitFix ∧ a.unit.getD u = u ∧ i.markFixed = i := by
  rcases Strategy.unit_of_attempt h.attempted with
    ⟨fix, changed, hmode, hfix, hunit⟩ | ⟨hmode, hfix, hunit⟩
  · left
    refine ⟨fix, hmode, hfix, by simp [hunit], ?_⟩
    unfold Issue.markFixed
    simp only [hfix]
  · right
    refine ⟨hmode, by simp [hunit], ?_⟩
    unfold Issue.markFixed
    split
    · rename_i fix hunitFix
      exact absurd hunitFix (hfix fix)
    · rfl

end Engine

end LintMend
