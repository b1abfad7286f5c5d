import LintMend.Proofs.RemovedStatements
import LintMend.Proofs.RepairConservation

/-!
# Repairing again and again

A unit is repaired in rounds, each with the issues that the last one has left. If all fixes remove
console output, every round that fixes something removes one more statement and takes one issue out
of the list. At the latest when the list is used up the rounds come to rest. What can keep them from
it is printing: three statements may stand so that the removal of all of them is given up half-way.
-/

namespace LintMend

/-! ## One round -/

/-- A fix that changes the unit succeeds, fails or is given up as printing the changed unit does. -/
theorem Strategy.attemptUnitFix_of_change {u changed : ProgramUnit} {fix : UnitFix} {key : String}
    (h : fix.change u key = .ok (some changed)) :
    attemptUnitFix u fix key =
      match Printer.print changed with
      | .ok (.ok text) => .ok (.ok ⟨text, some changed⟩)
      | .ok (.error err) => .ok (.error (.print err))
      | .error x => .error x := by
  rw [attemptUnitFix, h]
  change Printer.print changed >>= _ = _
  cases Printer.print changed with
  | error x => rfl
  | ok printed => cases printed <;> rfl

/-- What a round starts from and leaves behind. -/
structure Stage where
  disk : Disk
  unit : ProgramUnit
  issues : List Issue

namespace Engine

/-- A round repairs the unit and keeps the issues that remain. It tells which one it has fixed, if
any. -/
def round (e : Engine) (s : Stage) : Outcome (Stage × Option Issue) := do
  let (disk, unit, repair) ← e.repair s.disk s.unit s.issues
  return (⟨disk, unit, repair.remaining⟩, repair.applied)

/-- The stage after a number of rounds. -/
def rounds (e : Engine) (start : Stage) : Nat → Outcome Stage
  | 0 => return start
  | n + 1 => do
    let s ← e.rounds start n
    let (t, _) ← e.round s
    return t

/-- Statements of the unit are removed by the issues in the list, and nothing is in the way of
writing. -/
structure Removing (e : Engine) (s : Stage) : Prop where
  mode : e.strategy.mode = .unitFix
  unique : s.unit.ids.Nodup
  fixes : ∀ i ∈ s.issues, ∀ fix, i.fix = some (.unit fix) →
    fix.change = ConsoleOutput.removal.change
  writable : e.output.Writable s.disk s.unit

/-- A successful round: one issue is taken out of the list, the statement that it names, which was not
edited, is removed, nothing else of the unit changes, and the unit is written as it is printed. -/
def Advances (e : Engine) (s t : Stage) : Prop :=
  ∃ before i after r, s.issues = before ++ i :: after ∧ t.issues = before ++ after ∧
    r ∈ s.unit.statements ∧ wordOfText? (i.defect.fixKey.getD "") = some r.id ∧ r.edit = none ∧
    t.unit = s.unit.without [r.id] ∧ ∃ text, Printer.print t.unit = .ok (.ok text) ∧
      t.disk.read (e.output.artifactPath t.unit) = .ok text.toUTF8

variable {e : Engine} {s t : Stage}

/-- An attempt fails, or it prints the unit with one more statement removed. -/
theorem Removing.attempt_cases (h : e.Removing s) {i : Issue} (hi : i ∈ s.issues) :
    (∃ err, e.strategy.attempt s.unit i = .ok (.error err)) ∨
      ∃ r ∈ s.unit.statements, wordOfText? (i.defect.fixKey.getD "") = some r.id ∧ r.edit = none ∧
        ((∃ text, Printer.print (s.unit.without [r.id]) = .ok (.ok text) ∧
            e.strategy.attempt s.unit i = .ok (.ok ⟨text, some (s.unit.without [r.id])⟩)) ∨
          ∃ x, Printer.print (s.unit.without [r.id]) = .error x ∧
            e.strategy.attempt s.unit i = .error x) := by
  unfold Strategy.attempt
  rw [h.mode]
  cases hfix : i.fix with
  | none => exact .inl ⟨_, rfl⟩
  | some fix =>
    cases fix with
    | patch p => exact .inl ⟨_, rfl⟩
    | suggestion hint => exact .inl ⟨_, rfl⟩
    | unit fix =>
      have hremoval := h.fixes i hi fix hfix
      dsimp only
      have hfixed : fix.change s.unit (i.defect.fixKey.getD "") =
          .ok (ConsoleOutput.remove? s.unit (i.defect.fixKey.getD "")) := by
        rw [hremoval]
        rfl
      cases hremove : ConsoleOutput.remove? s.unit (i.defect.fixKey.getD "") with
      | none =>
        rw [Strategy.attemptUnitFix, hfixed, hremove]
        exact .inl ⟨_, rfl⟩
      | some changed =>
        rcases (ConsoleOutput.remove?_eq_some_iff h.unique).1 hremove with
          ⟨r, hr, hkey, hedit, hchanged⟩
        rw [ProgramUnit.mapStatements_onId] at hchanged
        have hchange : fix.change s.unit (i.defect.fixKey.getD "") =
            .ok (some (s.unit.without [r.id])) := by
          rw [hfixed, hremove, hchanged]
        have hnone : r.edit = none := by simpa [Statement.isEdited] using hedit
        rw [Strategy.attemptUnitFix_of_change hchange]
        cases hprint : Printer.print (s.unit.without [r.id]) with
        | error x => exact .inr ⟨r, hr, hkey, hnone, .inr ⟨x, hprint, rfl⟩⟩
        | ok printed =>
          cases printed with
          | error err => exact .inl ⟨_, rfl⟩
          | ok text => exact .inr ⟨r, hr, hkey, hnone, .inl ⟨text, hprint, rfl⟩⟩

/-- After a statement is removed and the unit is written, others can be. -/
theorem Removing.after_write (h : e.Removing s) (text : String) (id : Nat) {issues : List Issue}
    (hsub : ∀ j ∈ issues, j ∈ s.issues) :
    e.Removing ⟨(e.output.write s.disk s.unit text).1, s.unit.without [id], issues⟩ := by
  constructor
  · exact h.mode
  · dsimp only
    rw [ProgramUnit.ids_without]
    exact h.unique
  · intro j hj
    exact h.fixes j (hsub j hj)
  · dsimp only
    have hname := s.unit.outputName_without [id]
    exact (h.writable.write text).congr hname.symm

theorem round_of_succeeds {before after : List Issue} {i : Issue} {a : Attempt}
    (hissues : s.issues = before ++ i :: after) (hbefore : ∀ j ∈ before, e.Passes s.disk s.unit j)
    (h : e.Succeeds s.disk s.unit i a) :
    e.round s = .ok (⟨(e.output.write s.disk s.unit a.text).1, a.unit.getD s.unit, before ++ after⟩,
      some i.markFixed) := by
  unfold round
  rw [hissues, repair_of_succeeds hbefore h]
  rfl

theorem round_of_givesUp {before after : List Issue} {i : Issue} {x : Abort}
    (hissues : s.issues = before ++ i :: after) (hbefore : ∀ j ∈ before, e.Passes s.disk s.unit j)
    (h : e.GivesUp s.unit i x) : e.round s = .error x := by
  unfold round
  rw [hissues, repair_of_givesUp hbefore h]
  rfl

/-- A round comes to rest, fixes an issue, or is given up in printing. -/
theorem Removing.round_cases (h : e.Removing s) :
    e.round s = .ok (s, none) ∨
      (∃ t i, e.round s = .ok (t, some i) ∧ e.Advances s t ∧ e.Removing t) ∨
      ∃ x, e.round s = .error x ∧
        ∃ r ∈ s.unit.statements, Printer.print (s.unit.without [r.id]) = .error x := by
  rcases passes_or_exists_first e s.disk s.unit s.issues with
    hpasses | ⟨before, i, after, hissues, hbefore, ⟨a, hsucceeds⟩ | ⟨x, hgivesUp⟩⟩
  · left
    rcases repair_of_passes hpasses with ⟨left, hleft, hrepair⟩
    rw [hleft.eq_of_write (h.writable "")] at hrepair
    unfold round
    rw [hrepair]
    rfl
  · right
    left
    have hi : i ∈ s.issues := by simp [hissues]
    rcases h.attempt_cases hi with ⟨err, hattempt⟩ |
      ⟨r, hr, hkey, hedit, ⟨text, hprint, hattempt⟩ | ⟨x, -, hattempt⟩⟩
    · simp [hsucceeds.attempted] at hattempt
    · obtain rfl : a = ⟨text, some (s.unit.without [r.id])⟩ := by
        simpa [hsucceeds.attempted] using hattempt
      have hread := (OutputDir.read_of_write (h.writable text)).2
      rw [← OutputDir.artifactPath_congr (s.unit.outputName_without [r.id])] at hread
      have hsub : ∀ j ∈ before ++ after, j ∈ s.issues := by
        intro j hj
        rw [hissues]
        exact (List.sublist_cons_self i after).append_left before |>.subset hj
      have hround := round_of_succeeds hissues hbefore hsucceeds
      dsimp only [Option.getD_some] at hround
      refine ⟨_, _, hround, ?_, h.after_write text r.id hsub⟩
      unfold Advances
      dsimp only
      exact ⟨before, i, after, r, hissues, rfl, hr, hkey, hedit, rfl, text, hprint, hread⟩
    · simp [hsucceeds.attempted] at hattempt
  · right
    right
    have hi : i ∈ s.issues := by simp [hissues]
    rcases h.attempt_cases hi with ⟨err, hattempt⟩ |
      ⟨r, hr, hkey, hedit, ⟨text, -, hattempt⟩ | ⟨y, hprint, hattempt⟩⟩
    · simp [hgivesUp.attempted] at hattempt
    · simp [hgivesUp.attempted] at hattempt
    · obtain rfl : x = y := by simpa [hgivesUp.attempted] using hattempt
      exact ⟨x, round_of_givesUp hissues hbefore hgivesUp, r, hr, hprint⟩

/-! ## Many rounds -/

/-- What has become of the start after rounds that have removed the statements of the ids: no id stands
twice, exactly these statements are edited, each has cost one issue, and what was written last is the
unit as it is printed. -/
structure Progress (e : Engine) (start s : Stage) (removed : List Nat) : Prop where
  nodup : removed.Nodup
  stored : ∀ id ∈ removed, id ∈ start.unit.ids
  unit : s.unit = start.unit.without removed
  issues : s.issues.Sublist start.issues
  length : s.issues.length + removed.length = start.issues.length
  artifact : removed = [] ∧ s = start ∨
    ∃ text, Printer.print s.unit = .ok (.ok text) ∧
      s.disk.read (e.output.artifactPath s.unit) = .ok text.toUTF8

theorem Progress.refl (e : Engine) (start : Stage) : e.Progress start start [] where
  nodup := .nil
  stored := by simp
  unit := start.unit.without_nil.symm
  issues := .refl _
  length := rfl
  artifact := .inl ⟨rfl, rfl⟩

variable {start : Stage} {removed : List Nat} {n : Nat}

theorem Progress.advances (h : e.Progress start s removed) (hadvances : e.Advances s t) :
    ∃ id, e.Progress start t (id :: removed) := by
  rcases hadvances with
    ⟨before, i, after, r, hissues, hrest, hr, -, hedit, hunit, hartifact⟩
  have hnew : r.id ∉ removed ∧ r.id ∈ start.unit.ids := by
    rw [h.unit] at hr
    exact ProgramUnit.notMem_of_mem_statements_without hr (by simp [Statement.isEdited, hedit])
  have hsub : t.issues.Sublist s.issues := by
    rw [hrest, hissues]
    exact (List.sublist_cons_self i after).append_left before
  refine ⟨r.id, ?_⟩
  constructor
  · exact List.nodup_cons.2 ⟨hnew.1, h.nodup⟩
  · exact List.forall_mem_cons.2 ⟨hnew.2, h.stored⟩
  · rw [hunit, h.unit, ProgramUnit.without_without]
  · exact hsub.trans h.issues
  · have hlength := h.length
    rw [hissues] at hlength
    rw [hrest]
    simp only [List.length_append, List.length_cons] at hlength ⊢
    omega
  · exact .inr hartifact

/-- As long as no round is given up, each of them removes a statement, until one comes to rest. -/
theorem Removing.rounds_progress (h : e.Removing start) (hrounds : e.rounds start n = .ok s) :
    e.Removing s ∧ ∃ removed, e.Progress start s removed ∧
      (removed.length = n ∨ e.round s = .ok (s, none)) := by
  induction n generalizing s with
  | zero =>
    obtain rfl : start = s := Except.ok.inj hrounds
    exact ⟨h, [], .refl e start, .inl rfl⟩
  | succ n ih =>
    rcases Outcome.exists_of_bind_eq_ok hrounds with ⟨last, hlast, hbind⟩
    rcases Outcome.exists_of_bind_eq_ok hbind with ⟨⟨t, fixed⟩, hround, hreturn⟩
    obtain rfl : t = s := Except.ok.inj hreturn
    rcases ih hlast with ⟨hremoving, removed, hprogress, hcount⟩
    rcases hremoving.round_cases with hrest | ⟨u, i, hfixed, hadvances, hnext⟩ | ⟨x, hgivenUp, -⟩
    · obtain ⟨rfl, -⟩ : t = last ∧ fixed = none := by simpa [hround] using hrest
      exact ⟨hremoving, removed, hprogress, .inr hrest⟩
    · obtain ⟨rfl, rfl⟩ : t = u ∧ fixed = some i := by simpa [hround] using hfixed
      rcases hprogress.advances hadvances with ⟨id, hadvanced⟩
      refine ⟨hnext, id :: removed, hadvanced, .inl ?_⟩
      rcases hcount with hcount | hrest
      · rw [List.length_cons, hcount]
      · simp [hround] at hrest
    · simp [hround] at hgivenUp

theorem rounds_succ (hrounds : e.rounds start n = .ok s) :
    e.rounds start (n + 1) = (e.round s).map (·.1) := by
  rw [rounds, hrounds]
  change (e.round s >>= fun p => pure p.1) = _
  cases e.round s <;> rfl

/-- What rests goes on resting. -/
theorem rounds_of_rest (hrounds : e.rounds start n = .ok s) (hrest : e.round s = .ok (s, none))
    (m : Nat) : e.rounds start (n + m) = .ok s := by
  induction m with
  | zero => exact hrounds
  | succ m ih =>
    rw [← Nat.add_assoc, rounds_succ ih, hrest]
    rfl

theorem rounds_of_error {x : Abort} (hrounds : e.rounds start n = .error x) (m : Nat) :
    e.rounds start (n + m) = .error x := by
  induction m with
  | zero => exact hrounds
  | succ m ih =>
    rw [← Nat.add_assoc, rounds, ih]
    rfl

theorem Removing.masked_of_rounds (h : e.Removing start)
    (hplain : ∀ s ∈ start.unit.statements, s.edit = none) {x : Abort}
    (hrounds : e.rounds start n = .error x) : start.unit.Masked := by
  induction n with
  | zero => simp [rounds, pure, Except.pure] at hrounds
  | succ n ih =>
    cases hlast : e.rounds start n with
    | error y =>
      rw [rounds_of_error hlast 1] at hrounds
      exact ih (hlast.trans hrounds)
    | ok s =>
      rcases h.rounds_progress hlast with ⟨hremoving, removed, hprogress, -⟩
      rcases hremoving.round_cases with hrest | ⟨u, i, hfixed, -, -⟩ | ⟨y, -, r, -, hprint⟩
      · simp [rounds_succ hlast, hrest, Except.map] at hrounds
      · simp [rounds_succ hlast, hfixed, Except.map] at hrounds
      · rw [hprogress.unit, ProgramUnit.without_without] at hprint
        exact ProgramUnit.masked_of_print h.unique hplain hprint

/-- Repeated repairs make progress and stop. At every stage that is reached the unit is the one of the
start with some statements removed, as many as there are issues less than at the start. A round that
fixes an issue removes one more statement and nothing else; a round that fixes none changes nothing,
and neither does any later one; and after as many rounds as there were issues at the start none is
fixed any more. A round is given up only if the unit masks an overlap. -/
theorem repeated_removals_progress (h : e.Removing start)
    (hplain : ∀ s ∈ start.unit.statements, s.edit = none) :
    (∀ n s, e.rounds start n = .ok s →
      (∃ removed, e.Progress start s removed) ∧
      (∀ t i, e.round s = .ok (t, some i) → e.Advances s t) ∧
      (∀ t, e.round s = .ok (t, none) → ∀ m, e.rounds start (n + m) = .ok s) ∧
      (start.issues.length ≤ n → e.round s = .ok (s, none))) ∧
    ∀ n x, e.rounds start n = .error x → start.unit.Masked := by
  refine ⟨fun n s hrounds => ?_, fun n x hrounds => h.masked_of_rounds hplain hrounds⟩
  rcases h.rounds_progress hrounds with ⟨hremoving, removed, hprogress, hcount⟩
  refine ⟨⟨removed, hprogress⟩, ?_, ?_, ?_⟩
  · intro t i hfixed
    rcases hremoving.round_cases with hrest | ⟨u, j, hround, hadvances, -⟩ | ⟨x, hgivenUp, -⟩
    · simp [hfixed] at hrest
    · obtain ⟨rfl, -⟩ : t = u ∧ i = j := by simpa [hfixed] using hround
      exact hadvances
    · simp [hfixed] at hgivenUp
  · intro t hnone
    rcases hremoving.round_cases with hrest | ⟨u, j, hround, -, -⟩ | ⟨x, hgivenUp, -⟩
    · exact rounds_of_rest hrounds hrest
    · simp [hnone] at hround
    · simp [hnone] at hgivenUp
  · intro hn
    rcases hcount with hcount | hrest
    · have hempty : s.issues = [] := by
        have hlength := hprogress.length
        exact List.length_eq_zero_iff.1 (by omega)
      have hround : e.round s = .ok (⟨s.disk, s.unit, []⟩, none) := by
        unfold round repair
        rw [hempty]
        rfl
      rw [hround, ← hempty]
    · exact hrest

/-! ## Fixed units -/

/-- An issue that asks for the removal of a statement. -/
def removalIssue (key : String) : Issue :=
  .withFix ⟨"console-output", "m.rs", .info, 1, 1, 1, "", true, none, ""⟩ (some key)
    (.unit ConsoleOutput.removal)

/-- Unit fixes that are written to the root of the disk. -/
def unitFixes : Engine := ⟨{ mode := .unitFix }, ⟨"/"⟩⟩

/-- A unit on an empty disk, with issues for the keys. -/
def stageOf (u : ProgramUnit) (keys : List String) : Stage := ⟨{}, u, keys.map removalIssue⟩

theorem removing_stageOf {u : ProgramUnit} (hname : u.outputName = "m.fix") (hids : u.ids.Nodup)
    (keys : List String) : unitFixes.Removing (stageOf u keys) where
  mode := rfl
  unique := hids
  fixes i hi fix hfix := by
    rcases List.mem_map.1 hi with ⟨key, -, rfl⟩
    obtain rfl : ConsoleOutput.removal = fix := by
      simpa [removalIssue, Issue.withFix] using hfix
    rfl
  writable := OutputDir.writable_root hname

theorem candidate_removalIssue (key : String) : unitFixes.Candidate (removalIssue key) :=
  ⟨rfl, _, rfl, rfl⟩

variable {u : ProgramUnit} {key text : String} {id : Nat} {x : Abort}

theorem succeeds_removalIssue {disk : Disk} (hwritable : unitFixes.output.Writable disk u)
    (hremove : ConsoleOutput.remove? u key = some (u.without [id]))
    (hprint : Printer.print (u.without [id]) = .ok (.ok text)) :
    unitFixes.Succeeds disk u (removalIssue key) ⟨text, some (u.without [id])⟩ := by
  refine ⟨candidate_removalIssue key, ?_, _, hwritable text⟩
  change Strategy.attemptUnitFix u ConsoleOutput.removal key = _
  rw [Strategy.attemptUnitFix_of_change (congrArg Except.ok hremove), hprint]

theorem givesUp_removalIssue (hremove : ConsoleOutput.remove? u key = some (u.without [id]))
    (hprint : Printer.print (u.without [id]) = .error x) :
    unitFixes.GivesUp u (removalIssue key) x := by
  refine ⟨candidate_removalIssue key, ?_⟩
  change Strategy.attemptUnitFix u ConsoleOutput.removal key = _
  rw [Strategy.attemptUnitFix_of_change (congrArg Except.ok hremove), hprint]

/-- A round whose first issue can be fixed. -/
theorem round_removal_ok (h : unitFixes.Removing s) {rest : List Issue} (hissues : s.issues = removalIssue key :: rest)
    (hremove : ConsoleOutput.remove? s.unit key = some (s.unit.without [id]))
    (hprint : Printer.print (s.unit.without [id]) = .ok (.ok text)) :
    ∃ t i, unitFixes.round s = .ok (t, some i) ∧ unitFixes.Removing t ∧
      t.unit = s.unit.without [id] ∧ t.issues = rest := by
  have hsucceeds := succeeds_removalIssue h.writable hremove hprint
  have hpasses : ∀ j ∈ [], unitFixes.Passes s.disk s.unit j := by simp
  have hround := round_of_succeeds hissues hpasses hsucceeds
  dsimp only [Option.getD_some, List.nil_append] at hround
  have hsub : ∀ j ∈ rest, j ∈ s.issues := by
    intro j hj
    rw [hissues]
    exact List.mem_cons_of_mem _ hj
  exact ⟨_, _, hround, h.after_write text id hsub, rfl, rfl⟩

/-- The first and the third statement overlap, and the empty second one stands between them. -/
def overlapping : ProgramUnit where
  name := "m"
  path := "m.rs"
  source := "abcdef"
  classes := [⟨"c", none, [⟨"f", none,
    ⟨[⟨0, [⟨0, ⟨1, 1, ⟨0, 4⟩⟩, "abcd", [], none⟩, ⟨1, ⟨1, 1, ⟨0, 0⟩⟩, "", [], none⟩,
      ⟨2, ⟨1, 3, ⟨2, 6⟩⟩, "cdef", [], none⟩]⟩], []⟩⟩]⟩]

theorem print_overlapping :
    Printer.print (overlapping.without [0]) = .ok (.ok "ef") ∧
      Printer.print ((overlapping.without [0]).without [1]) = .ok (.ok "ef") ∧
      ∃ x, Printer.print (((overlapping.without [0]).without [1]).without [2]) = .error x := by
  have hone : Printer.sorted (overlapping.without [0]) = Printer.pending (overlapping.without [0]) := by
    apply List.mergeSort_of_pairwise
    decide
  have htwo : Printer.sorted ((overlapping.without [0]).without [1]) =
      Printer.pending ((overlapping.without [0]).without [1]) := by
    apply List.mergeSort_of_pairwise
    decide
  have hthree : Printer.sorted (((overlapping.without [0]).without [1]).without [2]) =
      Printer.pending (((overlapping.without [0]).without [1]).without [2]) := by
    apply List.mergeSort_of_pairwise
    decide
  refine ⟨?_, ?_, ?_⟩
  · rw [Printer.print_eq, hone]
    rfl
  · rw [Printer.print_eq, htwo]
    rfl
  · rw [Printer.print_eq, hthree]
    exact ⟨_, rfl⟩

theorem removing_overlapping : unitFixes.Removing (stageOf overlapping ["0", "1", "2"]) :=
  removing_stageOf (by decide) (by decide) _

/-- Two rounds remove the first two statements. -/
theorem rounds_two_overlapping :
    ∃ t, unitFixes.rounds (stageOf overlapping ["0", "1", "2"]) 2 = .ok t ∧
      t.unit = (overlapping.without [0]).without [1] ∧ t.issues = [removalIssue "2"] := by
  rcases print_overlapping with ⟨hone, htwo, -⟩
  rcases round_removal_ok removing_overlapping rfl (by decide +kernel) hone with
    ⟨s, i, hs, hremoving, hunit, hissues⟩
  change s.unit = overlapping.without [0] at hunit
  rw [← hunit] at htwo
  have hremove : ConsoleOutput.remove? s.unit "1" = some (s.unit.without [1]) := by
    rw [hunit]
    decide +kernel
  rcases round_removal_ok hremoving hissues hremove htwo with ⟨t, j, ht, -, htunit, htissues⟩
  have hfirst : unitFixes.rounds (stageOf overlapping ["0", "1", "2"]) 1 = .ok s := by
    rw [rounds_succ rfl, hs]
    rfl
  refine ⟨t, ?_, by rw [htunit, hunit], htissues⟩
  rw [rounds_succ hfirst, ht]
  rfl

theorem givesUp_overlapping :
    ∃ x, unitFixes.GivesUp ((overlapping.without [0]).without [1]) (removalIssue "2") x := by
  rcases print_overlapping with ⟨-, -, x, hprint⟩
  exact ⟨x, givesUp_removalIssue (by decide +kernel) hprint⟩

theorem rounds_overlapping :
    ∃ x, unitFixes.rounds (stageOf overlapping ["0", "1", "2"]) 3 = .error x := by
  rcases rounds_two_overlapping with ⟨t, ht, hunit, hissues⟩
  rcases givesUp_overlapping with ⟨x, hgivesUp⟩
  rw [← hunit] at hgivesUp
  have hpasses : ∀ j ∈ [], unitFixes.Passes t.disk t.unit j := by simp
  have hround := round_of_givesUp hissues hpasses hgivesUp
  exact ⟨x, by rw [rounds_succ ht, hround]; rfl⟩

/-- The unit is valid and nothing is in the way of writing, but the third round is given up, and no
round comes to rest. -/
theorem overlapping_never_rests :
    overlapping.fault? = none ∧ unitFixes.Removing (stageOf overlapping ["0", "1", "2"]) ∧
      (∀ s ∈ overlapping.statements, s.edit = none) ∧
      (∃ x, unitFixes.rounds (stageOf overlapping ["0", "1", "2"]) 3 = .error x) ∧
      ∀ n s, unitFixes.rounds (stageOf overlapping ["0", "1", "2"]) n = .ok s →
        unitFixes.round s ≠ .ok (s, none) := by
  refine ⟨by decide +kernel, removing_overlapping, by decide, rounds_overlapping, ?_⟩
  intro n s hrounds hrest
  rcases rounds_overlapping with ⟨x, hgivenUp⟩
  have hok := rounds_of_rest hrounds hrest 3
  have herror := rounds_of_error hgivenUp n
  rw [Nat.add_comm, hok] at herror
  simp at herror

/-- Two statements on lines of their own. -/
def apart : ProgramUnit where
  name := "m"
  path := "m.rs"
  source := "a();\n  b();\nc();"
  classes := [⟨"c", none, [⟨"f", none,
    ⟨[⟨0, [⟨0, ⟨1, 1, ⟨0, 4⟩⟩, "a();", [], none⟩, ⟨1, ⟨2, 3, ⟨7, 11⟩⟩, "b();", [], none⟩]⟩],
      []⟩⟩]⟩]

/-- With a key that stands twice and one that is no id, four rounds come to rest. -/
theorem apart_rests :
    unitFixes.Removing (stageOf apart ["0", "x", "0", "1"]) ∧
      (∀ s ∈ apart.statements, s.edit = none) ∧
      ∃ s removed, unitFixes.rounds (stageOf apart ["0", "x", "0", "1"]) 4 = .ok s ∧
        unitFixes.Progress (stageOf apart ["0", "x", "0", "1"]) s removed ∧
        unitFixes.round s = .ok (s, none) := by
  have hremoving : unitFixes.Removing (stageOf apart ["0", "x", "0", "1"]) :=
    removing_stageOf (by decide) (by decide) _
  have hplain : ∀ s ∈ apart.statements, s.edit = none := by decide
  have hclear : ¬ apart.Masked := by
    unfold ProgramUnit.Masked
    decide +kernel
  have hprogress := repeated_removals_progress hremoving hplain
  refine ⟨hremoving, hplain, ?_⟩
  cases hrounds : unitFixes.rounds (stageOf apart ["0", "x", "0", "1"]) 4 with
  | error x => exact absurd (hprogress.2 4 x hrounds) hclear
  | ok s =>
    rcases hprogress.1 4 s hrounds with ⟨⟨removed, hremoved⟩, -, -, hrest⟩
    exact ⟨s, removed, rfl, hremoved, hrest (by decide)⟩

end Engine

end LintMend
