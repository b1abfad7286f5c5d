import LintMend.Proofs.ProposedFixes
import LintMend.Proofs.RepeatedRepair
import Mathlib.Data.List.DropRight

/-!
# Removed console output

A fix that removes console output finds its statement again by the decimal digits of its id. What it
takes out of the source is one piece: the call, which is all that the statement does, what may stand
behind a call, and the white space of the lines that the statement has for itself.
-/

namespace LintMend

/-! ## Keys -/

theorem toList_toString (n : Nat) : (toString n).toList = Json.decimals n := by
  rw [Nat.toString_eq_repr, Nat.repr, String.toList_ofList]
  rfl

/-- The key of a statement names its id, as long as the id fits a word. -/
theorem wordOfText?_toString (n : Nat) :
    wordOfText? (toString n) = if n < wordLimit then some n else none := by
  rcases Json.exists_decimals_cons n with ⟨d, ds, hdigits, hd, -⟩
  have hall : ∀ c ∈ Json.decimals n, c.isDigit = true := by
    intro c hc
    exact Nat.isDigit_of_mem_toDigits (by decide) (by decide) hc
  have hplus : d ≠ '+' := by
    rintro rfl
    exact absurd hd (by decide)
  have hvalue : (Json.decimals n).foldl (fun n d => n * 10 + (d.toNat - '0'.toNat)) 0 = n :=
    Json.natOfDigits_decimals n
  rw [hdigits] at hall hvalue
  unfold wordOfText?
  rw [toList_toString, hdigits]
  split
  · next heq => exact absurd (List.cons.inj heq).1 hplus
  · simp only [hvalue, List.all_eq_true.2 hall, List.isEmpty_cons, Bool.not_true, Bool.or_self,
      Bool.false_eq_true, if_false]

/-! ## What may stand behind a call -/

/-- What is trimmed at the end of a text. -/
theorem Text.exists_trimRight (p : Char → Bool) (cs : List Char) :
    ∃ tail, cs = trimRight p cs ++ tail ∧ ∀ c ∈ tail, p c = true :=
  ⟨cs.rtakeWhile p, List.rdropWhile_append_rtakeWhile.symm, fun _ => List.mem_rtakeWhile_imp⟩

namespace ConsoleOutput

/-- Behind the bare text of a statement there are semicolons, with white space on both sides. -/
theorem exists_bareText (text : String) : ∃ gap semicolons tail,
    text.toList = (bareText text).toList ++ (gap ++ (semicolons ++ tail)) ∧
      Text.allBlank gap = true ∧ (∀ c ∈ semicolons, c = ';') ∧ Text.allBlank tail = true := by
  rcases Text.exists_trimRight Text.isBlank text.toList with ⟨tail, htail, hblank⟩
  rcases Text.exists_trimRight (· == ';') (Text.trimRight Text.isBlank text.toList) with
    ⟨semicolons, hsemicolons, hall⟩
  rcases Text.exists_trimRight Text.isBlank
    (Text.trimRight (· == ';') (Text.trimRight Text.isBlank text.toList)) with ⟨gap, hgap, hempty⟩
  refine ⟨gap, semicolons, tail, ?_, List.all_eq_true.2 hempty, ?_, List.all_eq_true.2 hblank⟩
  · calc text.toList
        = Text.trimRight Text.isBlank text.toList ++ tail := htail
      _ = (Text.trimRight (· == ';') (Text.trimRight Text.isBlank text.toList) ++ semicolons) ++
            tail := by
          rw [← hsemicolons]
      _ = (((bareText text).toList ++ gap) ++ semicolons) ++ tail := by
          rw [bareText, String.toList_ofList, ← hgap]
      _ = (bareText text).toList ++ (gap ++ (semicolons ++ tail)) := by simp
  · intro c hc
    exact beq_iff_eq.1 (hall c hc)

/-! ## One removal -/

/-- The source falls into three parts, and the middle one is a call that writes to the console, with
what may stand behind it and with white space on both sides. The call begins its statement. -/
structure Deletes (u : ProgramUnit) (s : Statement) (call : Expression)
    (front part back : List Char) : Prop where
  source : u.source.toList = front ++ (part ++ back)
  stored : s ∈ u.statements
  contained : call ∈ s.expressions
  kind : call.kind ∈ [.expansion, .call, .methodCall]
  name : ∃ name ∈ ["println", "print", "eprintln", "eprint"], call.name = some name
  start : call.origin.span.start = s.origin.span.start
  parts : ∃ before gap semicolons after,
    part = before ++ (call.text.toList ++ (gap ++ (semicolons ++ after))) ∧
      Text.allBlank before = true ∧ Text.allBlank gap = true ∧ (∀ c ∈ semicolons, c = ';') ∧
      Text.allBlank after = true ∧
      Text.bytes front + Text.bytes before = call.origin.span.start

variable {u : ProgramUnit} {s : Statement} {call : Expression} {name : String} {i : Issue}

/-- Without the statement of a removal, the unit is printed without a call. -/
theorem Removes.exists_deletes (h : Removes s call name i) (hids : u.ids.Nodup)
    (hplain : ∀ s ∈ u.statements, s.edit = none) (hs : s ∈ u.statements)
    (htext : s.origin.span.text? u.source = some s.text) :
    ∃ front part back, Deletes u s call front part back ∧
      Printer.print (u.without [s.id]) = .ok (.ok (String.ofList (front ++ back))) := by
  have hremovable := h.removable
  simp only [isRemovable, Bool.and_eq_true, Bool.not_eq_true', beq_iff_eq] at hremovable
  rcases hremovable with ⟨⟨hdbg, hstart⟩, hbare⟩
  rcases of_call? h.found with ⟨hcontained, hkind, hname, hknown⟩
  rcases Span.text?_eq_some_iff.1 htext with ⟨front, back, hsource, hfront, hback⟩
  rcases ProgramUnit.exists_print_without hids hplain hs hsource hfront hback with
    ⟨lines, before, after, rest, rfl, rfl, hbefore, hafter, hprint⟩
  rcases exists_bareText s.text with ⟨gap, semicolons, tail, hparts, hgap, hsemicolons, htail⟩
  refine ⟨lines, before ++ (s.text.toList ++ after), rest, ?_, hprint⟩
  constructor
  · rw [hsource]
    simp
  · exact hs
  · exact hcontained
  · exact hkind
  · refine ⟨name, ?_, hname⟩
    have hne : name ≠ "dbg" := by
      rintro rfl
      simp [Expression.isNamed, hname] at hdbg
    simpa [names, hne] using hknown
  · exact hstart
  · refine ⟨before, gap, semicolons, tail ++ after, ?_, hbefore, hgap, hsemicolons, ?_, ?_⟩
    · rw [hparts, hbare]
      simp
    · rw [Text.allBlank, List.all_append, Bool.and_eq_true]
      exact ⟨htail, hafter⟩
    · rw [hstart, ← hfront, Text.bytes_append]

/-- The fix removes the statement whose id is its key. A key that fits no word names no statement. -/
theorem Removes.attempt_eq (h : Removes s call name i) (hids : u.ids.Nodup)
    (hplain : ∀ s ∈ u.statements, s.edit = none) (hs : s ∈ u.statements) {text : String}
    (hprint : Printer.print (u.without [s.id]) = .ok (.ok text)) {strategy : Strategy}
    (hmode : strategy.mode = .unitFix) :
    strategy.attempt u i = .ok (if s.id < wordLimit then .ok ⟨text, some (u.without [s.id])⟩
      else .error (.notApplicable (toString s.id))) := by
  have hattempt : strategy.attempt u i = Strategy.attemptUnitFix u removal (toString s.id) := by
    rw [Strategy.attempt, hmode, h.fix, h.key]
    rfl
  rw [hattempt]
  by_cases hword : s.id < wordLimit
  · have hremove : remove? u (toString s.id) = some (u.without [s.id]) := by
      apply (remove?_eq_some_iff hids).2
      refine ⟨s, hs, ?_, ?_, ?_⟩
      · rw [wordOfText?_toString, if_pos hword]
      · rw [Statement.isEdited, hplain s hs]
        rfl
      · exact (u.mapStatements_onId s.id).symm
    rw [Strategy.attemptUnitFix_of_change (congrArg Except.ok hremove), hprint, if_pos hword]
  · have hremove : remove? u (toString s.id) = none := by
      rw [remove?, wordOfText?_toString, if_neg hword]
      rfl
    have hchange : removal.change u (toString s.id) = .ok none := congrArg Except.ok hremove
    rw [Strategy.attemptUnitFix, hchange, if_neg hword]
    rfl

end ConsoleOutput

/-! ## Repairs -/

namespace Engine

variable {e : Engine} {disk : Disk} {u : ProgramUnit}

/-- In a run that changes units, what can be fixed is console output. -/
theorem Candidate.exists_removes {config : Config} {i : Issue} (h : e.Candidate i)
    (hmode : e.strategy.mode = .unitFix) (hi : i ∈ ((Run.ofConfig config).check u).issues) :
    i.ruleId = "console-output" ∧
      ∃ s ∈ u.statements, ∃ call name, ConsoleOutput.Removes s call name i := by
  rcases h.2 with ⟨fix, hfix, hfixMode⟩
  rcases mem_builtin_of_mem_issues hi with ⟨r, hr, entity, hentity, hfound⟩
  cases fix with
  | unit fix =>
    cases ConsoleOutput.rule_of_mem hr hfound hfix
    rcases ConsoleOutput.removes_of_mem hr hfound hfix with ⟨m, s, call, name, rfl, hremoves⟩
    exact ⟨ruleId_of_mem hr hfound, s, Entity.in_of_mem_walk hentity, call, name, hremoves⟩
  | patch p => cases hfixMode.trans hmode
  | suggestion hint => cases hfixMode.trans hmode

/-- Trying a candidate never gives up. Where it succeeds, it prints the unit without a call. -/
theorem Candidate.exists_attempt {config : Config} {i : Issue} (h : e.Candidate i)
    (hmode : e.strategy.mode = .unitFix) (hi : i ∈ ((Run.ofConfig config).check u).issues)
    (hids : u.ids.Nodup) (hplain : ∀ s ∈ u.statements, s.edit = none)
    (htexts : ∀ s ∈ u.statements, s.origin.span.text? u.source = some s.text) :
    i.ruleId = "console-output" ∧ ∃ s ∈ u.statements, ∃ call front part back changed err,
      ConsoleOutput.Deletes u s call front part back ∧ e.strategy.attempt u i =
        .ok (if s.id < wordLimit then .ok ⟨String.ofList (front ++ back), some changed⟩
          else .error err) := by
  rcases h.exists_removes hmode hi with ⟨hrule, s, hs, call, name, hremoves⟩
  rcases hremoves.exists_deletes hids hplain hs (htexts s hs) with
    ⟨front, part, back, hdeletes, hprint⟩
  exact ⟨hrule, s, hs, call, front, part, back, _, _, hdeletes,
    hremoves.attempt_eq hids hplain hs hprint hmode⟩

/-- A repair that changes the unit comes to an end. What it writes, if anything, is the source without
one call that writes to the console; and it writes something if there is something to fix and nothing
in the way of it. -/
theorem repair_deletes_only_output (config : Config) (hmode : e.strategy.mode = .unitFix) (disk : Disk)
    (hids : u.ids.Nodup) (hplain : ∀ s ∈ u.statements, s.edit = none)
    (htexts : ∀ s ∈ u.statements, s.origin.span.text? u.source = some s.text) :
    let issues := ((Run.ofConfig config).check u).issues
    ∃ disk' u' repair, e.repair disk u issues = .ok (disk', u', repair) ∧
      (∀ path, repair.outputPath = some path → path = e.output.artifactPath u ∧
        ∃ i s call front part back, repair.applied = some i ∧ i.ruleId = "console-output" ∧
          ConsoleOutput.Deletes u s call front part back ∧
          disk'.read path = .ok (String.ofList (front ++ back)).toUTF8) ∧
      (e.output.Writable disk u → (∀ s ∈ u.statements, s.id < wordLimit) →
        (∃ i ∈ issues, e.Candidate i) → ∃ path, repair.outputPath = some path) := by
  intro issues
  rcases passes_or_exists_first e disk u issues with
    hpasses | ⟨before, i, after, hissues, hbefore, ⟨a, hsucceeds⟩ | ⟨x, hgivesUp⟩⟩
  · rcases repair_of_passes hpasses with ⟨left, -, hrepair⟩
    refine ⟨_, _, _, hrepair, fun path hpath => ?_, fun hwritable hwords hsome => ?_⟩
    · cases hpath
    · rcases hsome with ⟨i, hi, hcandidate⟩
      rcases hcandidate.exists_attempt hmode hi hids hplain htexts with
        ⟨-, s, hs, -, front, -, back, changed, err, -, hok⟩
      rw [if_pos (hwords s hs)] at hok
      exact absurd ⟨hcandidate, hok, _, hwritable _⟩ ((hpasses i hi).1 _)
  · have hi : i ∈ issues := by simp [hissues]
    rcases hsucceeds.candidate.exists_attempt hmode hi hids hplain htexts with
      ⟨hrule, s, -, call, front, part, back, changed, err, hdeletes, hok⟩
    have htext : a.text = String.ofList (front ++ back) := by
      have hsame := Except.ok.inj (hsucceeds.attempted.symm.trans hok)
      split at hsame
      · rw [Except.ok.inj hsame]
      · cases hsame
    rcases hsucceeds.written with ⟨written, hwritten⟩
    have hread := (OutputDir.read_of_write hwritten).2
    rw [hissues]
    refine ⟨_, _, _, repair_of_succeeds hbefore hsucceeds, fun path hpath => ?_, fun _ _ _ => ⟨_, rfl⟩⟩
    have hartifact : e.output.artifactPath u = path := Option.some.inj hpath
    refine ⟨hartifact.symm, i.markFixed, s, call, front, part, back, rfl, ?_, hdeletes, ?_⟩
    · rw [Issue.ruleId_markFixed, hrule]
    · rw [← hartifact, hread, htext]
  · have hi : i ∈ issues := by simp [hissues]
    rcases hgivesUp.candidate.exists_attempt hmode hi hids hplain htexts with
      ⟨-, s, -, call, front, part, back, changed, err, -, hok⟩
    rw [hgivesUp.attempted] at hok
    cases hok

/-- A unit with two statements, of which the second does nothing but print. -/
def chatty : ProgramUnit where
  name := "m"
  path := "m.rs"
  source := "fn f() \x7b\n  dbg!(1);\n\x7d\nfn g() \x7b\n  println!(\"hi\") ;\n\x7d\n"
  classes := [⟨"c", none,
    [⟨"f", some ⟨1, 1, ⟨0, 21⟩⟩, ⟨[⟨0, [⟨0, ⟨2, 3, ⟨11, 19⟩⟩, "dbg!(1);",
      [⟨.expansion, some "dbg", "dbg!(1)", ⟨2, 3, ⟨11, 18⟩⟩⟩], none⟩]⟩], []⟩⟩,
     ⟨"g", some ⟨4, 1, ⟨22, 51⟩⟩, ⟨[⟨0, [⟨1, ⟨5, 3, ⟨33, 49⟩⟩, "println!(\"hi\") ;",
      [⟨.expansion, some "println", "println!(\"hi\")", ⟨5, 3, ⟨33, 47⟩⟩⟩], none⟩]⟩], []⟩⟩]⟩]

theorem repair_deletes_only_output_chatty :
    unitFixes.strategy.mode = .unitFix ∧ chatty.ids.Nodup ∧
      (∀ s ∈ chatty.statements, s.edit = none) ∧
      (∀ s ∈ chatty.statements, s.origin.span.text? chatty.source = some s.text) ∧
      ∃ disk' u' repair path i s call front part back,
        unitFixes.repair {} chatty ((Run.ofConfig {}).check chatty).issues = .ok (disk', u', repair) ∧
        repair.outputPath = some path ∧ path = unitFixes.output.artifactPath chatty ∧
        repair.applied = some i ∧ i.ruleId = "console-output" ∧
        ConsoleOutput.Deletes chatty s call front part back ∧
        disk'.read path = .ok (String.ofList (front ++ back)).toUTF8 := by
  have hids : chatty.ids.Nodup := by decide
  have hplain : ∀ s ∈ chatty.statements, s.edit = none := by decide
  have htexts : ∀ s ∈ chatty.statements, s.origin.span.text? chatty.source = some s.text := by
    decide +kernel
  have hwords : ∀ s ∈ chatty.statements, s.id < wordLimit := by decide
  have hsome : ((Run.ofConfig {}).check chatty).issues.any unitFixes.isCandidate = true := by
    decide +kernel
  rcases List.any_eq_true.1 hsome with ⟨j, hj, hcandidate⟩
  rcases repair_deletes_only_output {} (e := unitFixes) rfl {} hids hplain htexts with
    ⟨disk', u', repair, hrepair, hwritten, hprogress⟩
  rcases hprogress (OutputDir.writable_root rfl) hwords ⟨j, hj, isCandidate_iff.1 hcandidate⟩ with
    ⟨path, hpath⟩
  rcases hwritten path hpath with
    ⟨hartifact, i, s, call, front, part, back, happlied, hrule, hdeletes, hread⟩
  exact ⟨rfl, hids, hplain, htexts, disk', u', repair, path, i, s, call, front, part, back, hrepair,
    hpath, hartifact, happlied, hrule, hdeletes, hread⟩

end Engine

end LintMend
