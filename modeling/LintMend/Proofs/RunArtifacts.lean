import LintMend.Analysis.Run
import LintMend.Proofs.RepairConservation

/-!
# The artifacts of a run

A run writes the corrected units into one directory, each under its flat name: separators of the
unit's name become dots, and dots in front are dropped. Writing one unit leaves all others alone, so
what is read in the end is the unit that was corrected last under a flat name. Units whose names
differ only in what is flattened get the same file.
-/

namespace LintMend

/-! ## Flat names -/

namespace ProgramUnit

/-- The name with separators turned into dots and without dots in front. -/
def flatName (u : ProgramUnit) : String :=
  let flat := u.name.toList.map fun c => if c == '/' || c == '\\' then '.' else c
  String.ofList (flat.dropWhile (· == '.'))

theorem outputName_eq_iff {u v : ProgramUnit} :
    u.outputName = v.outputName ↔ u.flatName = v.flatName := by
  change u.flatName ++ ".fix" = v.flatName ++ ".fix" ↔ _
  rw [← String.toList_inj, ← String.toList_inj, String.toList_append, String.toList_append,
    List.append_left_inj]

end ProgramUnit

theorem OutputDir.artifactPath_eq_iff (o : OutputDir) (u v : ProgramUnit) :
    o.artifactPath u = o.artifactPath v ↔ u.flatName = v.flatName := by
  rw [← ProgramUnit.outputName_eq_iff]
  refine ⟨fun heq => ?_, artifactPath_congr⟩
  rcases Path.exists_toList_join o.root with ⟨pre, hjoin⟩
  have hu := hjoin u.outputName u.isName_outputName.slashless
  have hv := hjoin v.outputName v.isName_outputName.slashless
  have hlists : pre ++ u.outputName.toList = pre ++ v.outputName.toList := by
    rw [← hu, ← hv]
    exact congrArg String.toList heq
  exact String.toList_inj.1 (List.append_cancel_left hlists)

/-! ## Files that are spared -/

theorem Location.name_eq {directory directory' : Location} {name name' : String}
    (h : directory ++ [name] = directory' ++ [name']) : name = name' :=
  List.singleton_inj.1 (List.append_inj' h rfl).2

/-- The artifact of a unit that is spared can be read as before. -/
theorem Disk.AltersOnly.read {d d' : Disk} {places : Location → Prop} {o : OutputDir}
    {v : ProgramUnit} {content : ByteArray} (h : AltersOnly places d d')
    (hspared : ∀ directory, ¬ places (directory ++ [v.outputName]))
    (hread : d.read (o.artifactPath v) = .ok content) :
    d'.read (o.artifactPath v) = .ok content := by
  have hleads := o.leadsTo_artifactPath v
  rw [Disk.read_eq hleads] at hread ⊢
  cases hplace : d.newPlace (o.artifactPath v) with
  | error e => simp [hplace, Except.bind] at hread
  | ok l =>
    rcases Disk.exists_directory_of_newPlace hleads hplace with ⟨directory, rfl⟩
    simp only [hplace, Except.bind] at hread
    rw [Disk.newPlace_of_keeps hleads h.keeps hplace]
    simp only [Except.bind, h.node _ (hspared directory)]
    exact hread

/-- Nothing changes under the name, in whatever directory. -/
def Disk.Spares (d d' : Disk) (name : String) : Prop :=
  AltersOnly (fun l => ∀ directory, l ≠ directory ++ [name]) d d'

theorem Disk.Spares.read {d d' : Disk} {o : OutputDir} {v : ProgramUnit} {content : ByteArray}
    (h : d.Spares d' v.outputName) (hread : d.read (o.artifactPath v) = .ok content) :
    d'.read (o.artifactPath v) = .ok content :=
  AltersOnly.read h (fun directory hspared => hspared directory rfl) hread

namespace OutputDir

variable {o : OutputDir} {disk left : Disk} {u v : ProgramUnit} {directory : Location}

/-- A draft that is moved leaves its place for that of the artifact. -/
theorem altersOnly_moved {places : Location → Prop} (hdraft : places (directory ++ [u.draftName]))
    (hartifact : places (directory ++ [u.outputName])) (hopen : Open o disk u directory)
    (hfree : disk.node? (directory ++ [u.outputName]) ≠ some .directory) (content : ByteArray) :
    Disk.AltersOnly places disk (placed disk u directory content) := by
  refine (Disk.AltersOnly.put hartifact (by simp) hfree content).trans (.erase hdraft (by simp) ?_)
  rw [Disk.node?_put_of_ne (places_ne u directory).symm]
  exact hopen.draft_free

theorem draftPlace_ne (u v : ProgramUnit) (directory place : Location) :
    directory ++ [u.draftName] ≠ place ++ [v.outputName] :=
  fun heq => v.outputName_ne_draftName u (Location.name_eq heq).symm

/-- Failed writings spare all corrected units. -/
theorem Leftover.spares (h : Leftover o disk u left) (v : ProgramUnit) :
    disk.Spares left v.outputName := by
  rcases h with rfl | ⟨directory, hopen, -, rfl⟩
  · exact Disk.AltersOnly.refl _ left
  · exact Disk.AltersOnly.erase (draftPlace_ne u v directory) (by simp) hopen.draft_free

/-- Writing a unit spares those with other flat names. -/
theorem spares_write {text path : String} (h : (o.write disk u text).2 = .ok path)
    (hne : u.flatName ≠ v.flatName) : disk.Spares (o.write disk u text).1 v.outputName := by
  rcases exists_open_of_write h with ⟨directory, hopen, hfree⟩
  have hdraft := draftPlace_ne u v directory
  have hartifact : ∀ place, directory ++ [u.outputName] ≠ place ++ [v.outputName] := fun _ heq =>
    hne (ProgramUnit.outputName_eq_iff.1 (Location.name_eq heq))
  rw [write_of_free hopen hfree]
  rw [← node?_drafted_artifact disk u directory text.toUTF8] at hfree
  exact (Disk.AltersOnly.put hdraft (by simp) hopen.draft_free _).trans
    (altersOnly_moved hdraft hartifact (hopen.of_drafted _) hfree _)

end OutputDir

/-! ## Corrections -/

namespace Engine

variable {e : Engine} {disk disk' : Disk} {u changed : ProgramUnit} {issues : List Issue}

/-- The issue with the attempt to fix it, if it can be fixed in the mode of the engine and the attempt
gives a text. -/
def offer? (e : Engine) (u : ProgramUnit) (i : Issue) : Option (Issue × Attempt) :=
  if e.isCandidate i then
    match e.strategy.attempt u i with
    | .ok (.ok a) => some (i, a)
    | _ => none
  else none

/-- The first issue whose fix gives a text, with the attempt: the corrected unit. -/
def correction? (e : Engine) (u : ProgramUnit) (issues : List Issue) : Option (Issue × Attempt) :=
  issues.findSome? (e.offer? u)

theorem offer?_eq_some {i j : Issue} {a : Attempt} :
    e.offer? u i = some (j, a) ↔
      i = j ∧ e.Candidate i ∧ e.strategy.attempt u i = .ok (.ok a) := by
  unfold offer?
  split
  · next hcandidate =>
    have hcand := isCandidate_iff.1 hcandidate
    split
    · next b hattempt => simp [hattempt, hcand]
    · next hattempt =>
      refine iff_of_false (by simp) ?_
      rintro ⟨-, -, hok⟩
      exact hattempt a hok
  · next hcandidate =>
    refine iff_of_false (by simp) ?_
    rintro ⟨-, hcand, -⟩
    exact hcandidate (isCandidate_iff.2 hcand)

/-- The first offer is the correction. -/
theorem correction?_append {before after : List Issue} {i : Issue} {a : Attempt}
    (hbefore : ∀ j ∈ before, e.offer? u j = none) (h : e.offer? u i = some (i, a)) :
    e.correction? u (before ++ i :: after) = some (i, a) := by
  unfold correction?
  rw [List.findSome?_append, List.findSome?_eq_none_iff.2 hbefore, Option.none_or,
    List.findSome?_cons, h]

/-- Where units can be written, the first fix that succeeds gives the correction. -/
theorem correction?_of_succeeds {before after : List Issue} {i : Issue} {a : Attempt}
    (hbefore : ∀ j ∈ before, e.Passes disk u j) (h : e.Succeeds disk u i a) :
    e.correction? u (before ++ i :: after) = some (i, a) := by
  rcases h.written with ⟨path, hpath⟩
  have hwritable := OutputDir.writable_of_write hpath
  refine correction?_append ?_ (offer?_eq_some.2 ⟨rfl, h.candidate, h.attempted⟩)
  intro j hj
  rw [Option.eq_none_iff_forall_ne_some]
  rintro ⟨k, b⟩ hoffer
  rcases offer?_eq_some.1 hoffer with ⟨-, hcandidate, hattempt⟩
  exact (hbefore j hj).1 b ⟨hcandidate, hattempt, _, hwritable b.text⟩

/-- A repair either leaves behind what failed writings leave, or it writes the correction. -/
theorem repair_cases {repair : Repair} (h : e.repair disk u issues = .ok (disk', changed, repair)) :
    (repair.outputPath = none ∧ e.output.Leftover disk u disk') ∨
      ∃ i a, e.correction? u issues = some (i, a) ∧
        (e.output.write disk u a.text).2 = .ok (e.output.artifactPath u) ∧
        disk' = (e.output.write disk u a.text).1 ∧ changed = a.unit.getD u ∧
        repair.applied = some i.markFixed ∧
        repair.outputPath = some (e.output.artifactPath u) := by
  rcases passes_or_exists_first e disk u issues with
    hpasses | ⟨before, i, after, rfl, hbefore, ⟨a, hsucceeds⟩ | ⟨x, hgivesUp⟩⟩
  · rcases repair_of_passes hpasses with ⟨left, hleft, hrepair⟩
    rw [hrepair] at h
    simp only [Except.ok.injEq, Prod.mk.injEq] at h
    rcases h with ⟨rfl, -, rfl⟩
    exact .inl ⟨rfl, hleft⟩
  · rw [repair_of_succeeds hbefore hsucceeds] at h
    simp only [Except.ok.injEq, Prod.mk.injEq] at h
    rcases h with ⟨hdisk, hchanged, rfl⟩
    rcases hsucceeds.written with ⟨path, hpath⟩
    exact .inr ⟨i, a, correction?_of_succeeds hbefore hsucceeds,
      OutputDir.writable_of_write hpath a.text, hdisk.symm, hchanged.symm, rfl, rfl⟩
  · rw [repair_of_givesUp hbefore hgivesUp] at h
    simp at h

end Engine

/-! ## Reported fixes -/

namespace Report

/-- The fix that was written for a file. -/
def fixOf (result : String × Except LoadError UnitReport) : Option AppliedFix :=
  result.2.toOption.bind UnitReport.fixed

theorem fixes_add (r : Report) (result : String × Except LoadError UnitReport) :
    (r.add result).fixes = r.fixes ++ (fixOf result).toList := by
  match result with
  | (file, .error e) => exact (List.append_nil _).symm
  | (file, .ok unit) =>
    rw [add]
    dsimp only
    split <;> rfl

/-- A list of the report to which every result adds something of its own holds it all in the end. -/
theorem foldl_add_of_append {α : Type} {view : Report → List α}
    {part : String × Except LoadError UnitReport → List α}
    (hadd : ∀ r result, view (add r result) = view r ++ part result)
    (results : List (String × Except LoadError UnitReport)) (r : Report) :
    view (results.foldl add r) = view r ++ results.flatMap part := by
  induction results generalizing r with
  | nil => simp
  | cons result results ih =>
    calc view ((result :: results).foldl add r)
        = view (r.add result) ++ results.flatMap part := ih _
      _ = view r ++ (part result ++ results.flatMap part) := by rw [hadd, List.append_assoc]
      _ = view r ++ (result :: results).flatMap part := by rw [List.flatMap_cons]

theorem fixes_ofResults (results : List (String × Except LoadError UnitReport)) :
    (ofResults results).fixes =
      (results.filterMap fixOf).mergeSort fun a b => Path.le a.file b.file := by
  unfold ofResults finish
  rw [foldl_add_of_append fixes_add, List.nil_append, List.filterMap_eq_flatMap_toList]

end Report

/-! ## Runs -/

namespace Run

variable {r : Run} {e : Engine} {disk disk' : Disk} {u : ProgramUnit}

/-- The correction of a unit for the issues that the run finds in it. -/
def correction? (r : Run) (e : Engine) (u : ProgramUnit) : Option (Issue × Attempt) :=
  e.correction? u (r.check u).issues

/-- The disk after a unit is processed. -/
def diskAfter (r : Run) (disk : Disk) (u : ProgramUnit) : Disk :=
  match r.process disk u with
  | .ok (next, _) => next
  | .error _ => disk

/-- The units of files as a run comes to them. Files that cannot be loaded have none. -/
def units (r : Run) (start : String) (disk : Disk) : List String → List ProgramUnit
  | [] => []
  | file :: files =>
    match Frontend.load disk (Walk.unitName disk start file) file with
    | .error _ => r.units start disk files
    | .ok u => u :: r.units start (r.diskAfter disk u) files

theorem units_cons (r : Run) (start : String) (disk : Disk) (file : String) (files : List String) :
    r.units start disk (file :: files) =
      match Frontend.load disk (Walk.unitName disk start file) file with
      | .error _ => r.units start disk files
      | .ok u => u :: r.units start (r.diskAfter disk u) files := by
  conv_lhs => unfold units

/-- The entry of a report about a unit that was corrected. It has the path of the corrected unit. -/
def fixOf (e : Engine) (u : ProgramUnit) (i : Issue) (a : Attempt) : AppliedFix :=
  ⟨(a.unit.getD u).path, i.ruleId, i.line, e.output.artifactPath u⟩

theorem outputPath_fixOf (e : Engine) (u : ProgramUnit) (i : Issue) (a : Attempt) :
    (fixOf e u i a).outputPath = e.output.artifactPath u := by
  simp only [fixOf]

/-- A repair that has written something is reported, and no other one. -/
theorem fixed_reportAfter {report : UnitReport} {changed : ProgramUnit} {repair : Repair} :
    (repair.outputPath = none → (reportAfter report changed repair).fixed = none) ∧
      ∀ i a, changed = a.unit.getD u → repair.applied = some i.markFixed →
        repair.outputPath = some (e.output.artifactPath u) →
        (reportAfter report changed repair).fixed = some (fixOf e u i a) := by
  constructor
  · intro hnone
    simp [reportAfter, hnone]
  · rintro i a rfl happlied hpath
    simp [reportAfter, hpath, happlied, fixOf, Issue.ruleId_markFixed, Issue.line_markFixed]

theorem process_cases (he : r.engine = some e) {report : UnitReport}
    (h : r.process disk u = .ok (disk', report)) :
    (report.fixed = none ∧ e.output.Leftover disk u disk') ∨
      ∃ i a, r.correction? e u = some (i, a) ∧
        (e.output.write disk u a.text).2 = .ok (e.output.artifactPath u) ∧
        disk' = (e.output.write disk u a.text).1 ∧ report.fixed = some (fixOf e u i a) := by
  unfold process at h
  rw [he] at h
  rcases Outcome.exists_of_bind_eq_ok h with ⟨⟨next, changed, repair⟩, hrepair, hreturn⟩
  simp only [pure, Except.pure, Except.ok.injEq, Prod.mk.injEq] at hreturn
  rcases hreturn with ⟨rfl, rfl⟩
  rcases Engine.repair_cases hrepair with
    ⟨hnone, hleft⟩ | ⟨i, a, hcorrection, hwrite, hdisk, hchanged, happlied, hpath⟩
  · exact .inl ⟨fixed_reportAfter (e := e) (u := u).1 hnone, hleft⟩
  · exact .inr ⟨i, a, hcorrection, hwrite, hdisk, fixed_reportAfter.2 i a hchanged happlied hpath⟩

/-- A unit that is corrected can be read. -/
theorem read_of_process (he : r.engine = some e) {report : UnitReport}
    (h : r.process disk u = .ok (disk', report)) {fix : AppliedFix} (hfix : report.fixed = some fix) :
    ∃ i a, r.correction? e u = some (i, a) ∧ fix = fixOf e u i a ∧
      disk'.read (e.output.artifactPath u) = .ok a.text.toUTF8 := by
  rcases process_cases he h with ⟨hnone, -⟩ | ⟨i, a, hcorrection, hwrite, hdisk, hfixed⟩
  · simp [hfix] at hnone
  · refine ⟨i, a, hcorrection, Option.some.inj (hfix.symm.trans hfixed), ?_⟩
    rw [hdisk]
    exact (OutputDir.read_of_write hwrite).2

/-- Processing a unit spares all others, unless it is corrected and has the same flat name. -/
theorem spares_process (he : r.engine = some e) {report : UnitReport}
    (h : r.process disk u = .ok (disk', report)) {v : ProgramUnit}
    (hother : (r.correction? e u).isSome → u.flatName ≠ v.flatName) :
    disk.Spares disk' v.outputName := by
  rcases process_cases he h with ⟨-, hleft⟩ | ⟨i, a, hcorrection, hwrite, hdisk, -⟩
  · exact hleft.spares v
  · rw [hdisk]
    exact OutputDir.spares_write hwrite (hother (by simp [hcorrection]))

/-- What one file of a run does: it cannot be loaded and nothing happens, or its unit is
processed. -/
theorem processFiles_cons {start file : String} {files : List String} {final : Disk}
    {done results : List (String × Except LoadError UnitReport)}
    (h : r.processFiles start disk done (file :: files) = .ok (final, results)) :
    (∃ err, Frontend.load disk (Walk.unitName disk start file) file = .error err ∧
        r.processFiles start disk ((file, .error err) :: done) files = .ok (final, results) ∧
        r.units start disk (file :: files) = r.units start disk files) ∨
      ∃ u next report, Frontend.load disk (Walk.unitName disk start file) file = .ok u ∧
        r.process disk u = .ok (next, report) ∧
        r.processFiles start next ((file, .ok report) :: done) files = .ok (final, results) ∧
        r.units start disk (file :: files) = u :: r.units start next files := by
  unfold processFiles at h
  rcases Outcome.exists_of_bind_eq_ok h with ⟨⟨next, result⟩, hfile, hrest⟩
  unfold processFile at hfile
  cases hload : Frontend.load disk (Walk.unitName disk start file) file with
  | error err =>
    rw [hload] at hfile
    cases hfile
    exact .inl ⟨err, rfl, hrest, by rw [units_cons, hload]⟩
  | ok u =>
    rw [hload] at hfile
    rcases Outcome.exists_of_bind_eq_ok hfile with ⟨⟨after, report⟩, hprocess, hreturn⟩
    cases hreturn
    have hnext : r.diskAfter disk u = next := by simp only [diskAfter, hprocess]
    exact .inr ⟨u, next, report, rfl, hprocess, hrest, by rw [units_cons, hload, ← hnext]⟩

theorem spares_processFiles (he : r.engine = some e) {start : String} {files : List String}
    {final : Disk} {done results : List (String × Except LoadError UnitReport)} {v : ProgramUnit}
    (h : r.processFiles start disk done files = .ok (final, results))
    (hother : ∀ u ∈ r.units start disk files, (r.correction? e u).isSome →
      u.flatName ≠ v.flatName) :
    disk.Spares final v.outputName := by
  induction files generalizing disk done with
  | nil =>
    cases h
    exact Disk.AltersOnly.refl _ _
  | cons file files ih =>
    rcases processFiles_cons h with
      ⟨err, -, hrest, hunits⟩ | ⟨u, next, report, -, hprocess, hrest, hunits⟩
    · rw [hunits] at hother
      exact ih hrest hother
    · rw [hunits, List.forall_mem_cons] at hother
      exact (spares_process he hprocess hother.1).trans (ih hrest hother.2)

/-- The fix belongs to one of the units, and what is read in the end is the correction of this unit,
unless one after it was corrected under the same flat name. -/
def Accounts (r : Run) (e : Engine) (units : List ProgramUnit) (final : Disk) (fix : AppliedFix) :
    Prop :=
  ∃ before u after i a, units = before ++ u :: after ∧ r.correction? e u = some (i, a) ∧
    fix = fixOf e u i a ∧
    ((∀ v ∈ after, (r.correction? e v).isSome → v.flatName ≠ u.flatName) →
      final.read fix.outputPath = .ok a.text.toUTF8)

theorem Accounts.cons {units : List ProgramUnit} {final : Disk} {fix : AppliedFix}
    (h : r.Accounts e units final fix) (u : ProgramUnit) : r.Accounts e (u :: units) final fix := by
  rcases h with ⟨before, v, after, i, a, rfl, hrest⟩
  exact ⟨u :: before, v, after, i, a, rfl, hrest⟩

/-- Every fix among the results is accounted for. -/
theorem accounts_of_processFiles (he : r.engine = some e) {start : String} {files : List String}
    {final : Disk} {done results : List (String × Except LoadError UnitReport)}
    (h : r.processFiles start disk done files = .ok (final, results)) :
    ∃ new, results = done.reverse ++ new ∧
      ∀ result ∈ new, ∀ report, result.2 = .ok report → ∀ fix, report.fixed = some fix →
        r.Accounts e (r.units start disk files) final fix := by
  induction files generalizing disk done with
  | nil =>
    cases h
    exact ⟨[], by simp, by simp⟩
  | cons file files ih =>
    rcases processFiles_cons h with
      ⟨err, -, hrest, hunits⟩ | ⟨u, next, report, -, hprocess, hrest, hunits⟩
    · rcases ih hrest with ⟨new, rfl, hnew⟩
      refine ⟨(file, .error err) :: new, by simp, ?_⟩
      rw [hunits, List.forall_mem_cons]
      exact ⟨by simp, hnew⟩
    · rcases ih hrest with ⟨new, hresults, hnew⟩
      refine ⟨(file, .ok report) :: new, by simp [hresults], ?_⟩
      rw [hunits, List.forall_mem_cons]
      constructor
      · intro report' hreport fix hfix
        obtain rfl : report = report' := Except.ok.inj hreport
        rcases read_of_process he hprocess hfix with ⟨i, a, hcorrection, rfl, hread⟩
        refine ⟨[], u, r.units start next files, i, a, rfl, hcorrection, rfl, ?_⟩
        intro hother
        rw [outputPath_fixOf]
        exact (spares_processFiles he hrest hother).read hread
      · intro result hresult report' hreport fix hfix
        exact (hnew result hresult report' hreport fix hfix).cons u

/-- The units of the files below a path, as a run comes to them. -/
def unitsBelow (r : Run) (disk : Disk) (path : String) : List ProgramUnit :=
  match Walk.files disk r.config.ignore path with
  | .error _ => []
  | .ok files => r.units path (r.prepare disk path).1 files

theorem mem_fixes_ofResults {results : List (String × Except LoadError UnitReport)} {fix : AppliedFix} :
    fix ∈ (Report.ofResults results).fixes ↔
      ∃ file report, (file, .ok report) ∈ results ∧ report.fixed = some fix := by
  rw [Report.fixes_ofResults, List.mem_mergeSort, List.mem_filterMap]
  constructor
  · rintro ⟨⟨file, result⟩, hmem, hfixed⟩
    rcases Option.bind_eq_some_iff.1 hfixed with ⟨report, hreport, hfix⟩
    cases result with
    | error err => simp [Except.toOption] at hreport
    | ok unitReport =>
      obtain rfl : unitReport = report := Option.some.inj hreport
      exact ⟨file, unitReport, hmem, hfix⟩
  · rintro ⟨file, report, hmem, hfix⟩
    exact ⟨(file, .ok report), hmem, hfix⟩

theorem onFiles_eq_ok {α : Type} {work : Disk → List String → Outcome (Disk × α)} {path : String}
    {final : Disk} {found : α} :
    r.onFiles disk path work = .ok (final, .ok found) ↔
      ∃ files prepared, Walk.files disk r.config.ignore path = .ok files ∧
        r.prepare disk path = (prepared, none) ∧ work prepared files = .ok (final, found) := by
  unfold onFiles
  rcases Walk.files disk r.config.ignore path with err | files
  · simp [pure, Except.pure]
  · rcases r.prepare disk path with ⟨prepared, - | err⟩
    · rcases hwork : work prepared files with x | ⟨next, value⟩ <;>
        simp [hwork, bind, Except.bind, pure, Except.pure]
    · simp [pure, Except.pure]

/-- What an analysis does, once the files are found and the directory is cleared. -/
theorem analyse_eq_ok {path : String} {final : Disk} {report : Report} :
    r.analyse disk path = .ok (final, .ok report) ↔
      ∃ files prepared results, Walk.files disk r.config.ignore path = .ok files ∧
        r.prepare disk path = (prepared, none) ∧
        r.processFiles path prepared [] files = .ok (final, results) ∧
        report = Report.ofResults results := by
  rw [analyse, onFiles_eq_ok]
  refine exists_congr fun files => exists_congr fun prepared => ?_
  rcases r.processFiles path prepared [] files with x | ⟨next, results⟩ <;>
    simp [bind, Except.bind, pure, Except.pure, eq_comm]

/-- Every fix that an analysis reports is accounted for. -/
theorem accounts_of_analyse (he : r.engine = some e) {path : String} {final : Disk} {report : Report}
    (h : r.analyse disk path = .ok (final, .ok report)) :
    ∀ fix ∈ report.fixes, r.Accounts e (r.unitsBelow disk path) final fix := by
  intro fix hfix
  rcases analyse_eq_ok.1 h with ⟨files, prepared, results, hfiles, hprepare, hprocess, rfl⟩
  have hunits : r.unitsBelow disk path = r.units path prepared files := by
    simp only [unitsBelow, hfiles, hprepare]
  rcases mem_fixes_ofResults.1 hfix with ⟨file, unitReport, hmem, hfixed⟩
  rcases accounts_of_processFiles he hprocess with ⟨new, rfl, hnew⟩
  rw [hunits]
  exact hnew _ (by simpa using hmem) unitReport rfl fix hfixed

/-! ## Removing console output -/

theorem eq_ok_of_toOption {ε α : Type} {x : Except ε α} {a : α} (h : x.toOption = some a) :
    x = .ok a := by
  cases x with
  | error err => simp [Except.toOption] at h
  | ok b => simpa [Except.toOption] using h

/-- Two files of which the one is in a directory and the other one is beside it. -/
def filePair (second : String) : Disk where
  nodes := [(["a"], .directory), (["a", "b.rs"], .file "fn f()\x7bprint!();\x7d".toUTF8),
    ([second], .file "fn g()\x7bprint!();\x7d".toUTF8)]

/-- A pair of which the one is in a directory and the other has the dot in its name. -/
def twoFiles : Disk := filePair "a.b.rs"

/-- Unit fixes that are written to a directory. -/
def outEngine : Engine := ⟨{ mode := .unitFix }, ⟨"/out"⟩⟩

/-- Console output is removed. -/
def removals : Run := { ofCheckers {} [ConsoleOutput.rule] with engine := some outEngine }

end Run

end LintMend
