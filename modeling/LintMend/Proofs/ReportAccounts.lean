import LintMend.Proofs.RunArtifacts
import Mathlib.Data.List.Lex
import Mathlib.Data.List.Nodup
import Mathlib.Data.Prod.Lex
import Mathlib.Data.String.Basic

/-!
# What a report accounts for

The results of a run are added to its report one by one, in any order. Every file ends up in exactly
one place: among the failures, among the listed files with all its issues, or nowhere if nothing is
left to tell about it. The figures that are counted on the way agree with the lists. What the fixes
take out of the lists is what is missing from the issues that were found.
-/

namespace LintMend

/-! ## The order of paths -/

/-- The kind of a part and, for a name, its text. Parts are ordered as these pairs are. -/
def PathPart.key : PathPart → Nat ×ₗ String
  | .name s => toLex (3, s)
  | part => toLex (part.rank, "")

theorem PathPart.key_injective : Function.Injective PathPart.key := by
  intro a b h
  cases a <;> cases b <;> simp_all [key, rank]

theorem PathPart.lt_iff_key_lt (a b : PathPart) : a.lt b = true ↔ a.key < b.key := by
  cases a <;> cases b <;> simp [lt, key, rank, Prod.Lex.toLex_lt_toLex]

theorem Path.ltParts_iff_lt (as bs : List PathPart) :
    Path.ltParts as bs = true ↔ as.map PathPart.key < bs.map PathPart.key := by
  fun_induction Path.ltParts as bs with
  | case1 as => simp
  | case2 b bs => simp
  | case3 a as b bs ih =>
    rw [List.map_cons, List.map_cons, List.cons_lt_cons_iff, ← ih, ← PathPart.lt_iff_key_lt,
      PathPart.key_injective.eq_iff]
    simp

/-- Paths are ordered as the keys of their parts are. -/
theorem Path.le_iff_key_le (p q : String) :
    Path.le p q = true ↔ (Path.parts p).map PathPart.key ≤ (Path.parts q).map PathPart.key := by
  rw [← not_lt, ← Path.ltParts_iff_lt]
  simp [Path.le, Path.lt]

/-- Sorting by paths sorts. -/
theorem Path.pairwise_mergeSort_le {α : Type} (file : α → String) (as : List α) :
    (as.mergeSort fun a b => Path.le (file a) (file b)).Pairwise fun a b =>
      Path.le (file a) (file b) = true := by
  apply List.pairwise_mergeSort
  · intro a b c hab hbc
    rw [Path.le_iff_key_le] at hab hbc ⊢
    exact hab.trans hbc
  · intro a b
    rw [Bool.or_eq_true, Path.le_iff_key_le, Path.le_iff_key_le]
    exact le_total _ _

/-! ## Tallies -/

namespace Severity.Tally

theorem get_bump (t : Tally) (s s' : Severity) :
    (t.bump s').get s = t.get s + if s' = s then 1 else 0 := by
  cases s <;> cases s' <;> rfl

theorem get_bumpAll (t : Tally) (severities : List Severity) (s : Severity) :
    (t.bumpAll severities).get s = t.get s + severities.count s := by
  induction severities generalizing t with
  | nil => rfl
  | cons s' severities ih =>
    have hstep : (t.bumpAll (s' :: severities)).get s = ((t.bump s').bumpAll severities).get s := rfl
    rw [hstep, ih, get_bump, List.count_cons]
    simp only [beq_iff_eq]
    omega

theorem total_bump (t : Tally) (s : Severity) : (t.bump s).total = t.total + 1 := by
  cases s <;> simp only [bump, total] <;> omega

theorem total_bumpAll (t : Tally) (severities : List Severity) :
    (t.bumpAll severities).total = t.total + severities.length := by
  induction severities generalizing t with
  | nil => rfl
  | cons s severities ih =>
    have hstep : (t.bumpAll (s :: severities)).total = ((t.bump s).bumpAll severities).total := rfl
    rw [hstep, ih, total_bump, List.length_cons]
    omega

theorem bumpAll_append (t : Tally) (ss ss' : List Severity) :
    t.bumpAll (ss ++ ss') = (t.bumpAll ss).bumpAll ss' := List.foldl_append

end Severity.Tally

/-! ## Adding results -/

namespace Report

/-- The entry about a file that could not be loaded. -/
def failureOf : String × Except LoadError UnitReport → Option FileFailure
  | (file, .error e) => some ⟨file, e.message⟩
  | (_, .ok _) => none

/-- The issues of a file that has some. -/
def listingOf : String × Except LoadError UnitReport → Option (String × List Issue)
  | (_, .error _) => none
  | (file, .ok unit) => if unit.issues.isEmpty then none else some (file, unit.issues)

/-- The faults of the checkers on a file. -/
def faultsOf : String × Except LoadError UnitReport → List Fault
  | (_, .error _) => []
  | (_, .ok unit) => unit.faults

theorem failures_add (r : Report) (result : String × Except LoadError UnitReport) :
    (r.add result).failures = r.failures ++ (failureOf result).toList := by
  match result with
  | (file, .error e) => rfl
  | (file, .ok unit) =>
    rw [add, failureOf, Option.toList_none, List.append_nil]
    dsimp only
    split <;> rfl

theorem faults_add (r : Report) (result : String × Except LoadError UnitReport) :
    (r.add result).faults = r.faults ++ faultsOf result := by
  match result with
  | (file, .error e) =>
    rw [faultsOf, List.append_nil]
    rfl
  | (file, .ok unit) =>
    rw [add]
    dsimp only
    split <;> rfl

variable {results : List (String × Except LoadError UnitReport)} {r : Report} {file : String}

theorem exists_of_failureOf {result : String × Except LoadError UnitReport} {failure : FileFailure}
    (h : failureOf result = some failure) :
    ∃ e, result = (failure.file, .error e) ∧ failure.message = e.message := by
  match result with
  | (file, .error e) =>
    cases h
    exact ⟨e, rfl, rfl⟩
  | (_, .ok _) => simp [failureOf] at h

theorem exists_of_listingOf {result : String × Except LoadError UnitReport}
    {listed : String × List Issue} (h : listingOf result = some listed) :
    ∃ unit, result = (listed.1, .ok unit) ∧ unit.issues = listed.2 ∧ unit.issues ≠ [] := by
  match result with
  | (_, .error _) => simp [listingOf] at h
  | (file, .ok unit) =>
    rw [listingOf] at h
    split at h
    · simp at h
    · next hissues =>
      cases h
      exact ⟨unit, rfl, rfl, by simpa using hissues⟩

/-- The report lists the files of the results with issues, and its figures count these issues. -/
structure Lists (results : List (String × Except LoadError UnitReport)) (r : Report) : Prop where
  files : r.files = results.filterMap listingOf
  count : r.figures.issues = r.issues.length
  bySeverity : r.figures.bySeverity = Severity.Tally.bumpAll {} (r.issues.map (·.defect.severity))

/-- A file that was not listed before is put at the end. -/
theorem Lists.listFile (h : Lists results r)
    (hfresh : Path.parts file ∉ results.map fun result => Path.parts result.1)
    (issues : List Issue) : listFile r.files file issues = r.files ++ [(file, issues)] := by
  unfold Report.listFile
  rw [List.filter_eq_self.2]
  intro listed hlisted
  rw [h.files] at hlisted
  rcases List.mem_filterMap.1 hlisted with ⟨result, hresult, hlisting⟩
  rcases exists_of_listingOf hlisting with ⟨unit, rfl, -⟩
  simp only [bne_iff_ne]
  intro heq
  exact hfresh (heq ▸ List.mem_map.2 ⟨_, hresult, rfl⟩)

/-- Adding the result of a new file lists it, if it has issues, and counts them. -/
theorem Lists.add (h : Lists results r) {result : String × Except LoadError UnitReport}
    (hfresh : Path.parts result.1 ∉ results.map fun result => Path.parts result.1) :
    Lists (results ++ [result]) (r.add result) := by
  match result with
  | (file, .error e) =>
    refine ⟨?_, h.count, h.bySeverity⟩
    simp [Report.add, h.files, listingOf]
  | (file, .ok unit) =>
    rw [Report.add]
    dsimp only
    split
    · next hempty =>
      refine ⟨?_, h.count, h.bySeverity⟩
      simp [h.files, listingOf, hempty]
    · next hissues =>
      have hall : (r.files ++ [(file, unit.issues)]).flatMap (·.2) = r.issues ++ unit.issues := by
        simp [Report.issues]
      rw [h.listFile hfresh unit.issues]
      refine ⟨?_, ?_, ?_⟩
      · simp [h.files, listingOf, hissues]
      · rw [Report.issues, hall, List.length_append]
        exact congrArg (· + unit.issues.length) h.count
      · rw [Report.issues, hall, List.map_append, Severity.Tally.bumpAll_append]
        exact congrArg (Severity.Tally.bumpAll · _) h.bySeverity

theorem Lists.foldl_add {done rest : List (String × Except LoadError UnitReport)}
    (h : Lists done r)
    (hdistinct : ((done ++ rest).map fun result => Path.parts result.1).Nodup) :
    Lists (done ++ rest) (rest.foldl Report.add r) := by
  induction rest generalizing done r with
  | nil =>
    rw [List.append_nil]
    exact h
  | cons result rest ih =>
    have hfresh : Path.parts result.1 ∉ done.map fun result => Path.parts result.1 := by
      rw [List.map_append, List.map_cons] at hdistinct
      intro hmem
      exact (List.nodup_append.1 hdistinct).2.2 _ hmem _ List.mem_cons_self rfl
    have hassoc : done ++ result :: rest = done ++ [result] ++ rest := by simp
    rw [hassoc] at hdistinct ⊢
    exact ih (h.add hfresh) hdistinct

/-! ## The finished report -/

/-- The report of all results before it is put in order. -/
def gathered (results : List (String × Except LoadError UnitReport)) : Report :=
  results.foldl add { figures := { files := results.length } }

theorem lists_gathered (hdistinct : (results.map fun result => Path.parts result.1).Nodup) :
    Lists results (gathered results) := by
  have hempty : Lists [] ({ figures := { files := results.length } } : Report) := by
    constructor <;> rfl
  exact hempty.foldl_add hdistinct

theorem failures_gathered (results : List (String × Except LoadError UnitReport)) :
    (gathered results).failures = results.filterMap failureOf := by
  rw [gathered, foldl_add_of_append failures_add, List.nil_append,
    List.filterMap_eq_flatMap_toList]

theorem faults_ofResults (results : List (String × Except LoadError UnitReport)) :
    (ofResults results).faults = results.flatMap faultsOf :=
  foldl_add_of_append faults_add results _

theorem fixes_gathered (results : List (String × Except LoadError UnitReport)) :
    (gathered results).fixes = results.filterMap fixOf := by
  rw [gathered, foldl_add_of_append fixes_add, List.nil_append, List.filterMap_eq_flatMap_toList]

theorem files_figure_add (r : Report) (result : String × Except LoadError UnitReport) :
    (r.add result).figures.files = r.figures.files := by
  match result with
  | (file, .error e) => rfl
  | (file, .ok unit) =>
    rw [add]
    dsimp only
    split <;> rfl

theorem figures_files_gathered (results : List (String × Except LoadError UnitReport)) :
    (gathered results).figures.files = results.length :=
  List.foldlRecOn (motive := fun r => r.figures.files = results.length) results add rfl
    fun r h result _ => (files_figure_add r result).trans h

theorem mem_failures_iff {failure : FileFailure} :
    failure ∈ (ofResults results).failures ↔
      ∃ e, (failure.file, .error e) ∈ results ∧ failure.message = e.message := by
  have hfailures : (ofResults results).failures =
      (gathered results).failures.mergeSort fun a b => Path.le a.file b.file := rfl
  rw [hfailures, List.mem_mergeSort, failures_gathered, List.mem_filterMap]
  constructor
  · rintro ⟨result, hresult, hfailure⟩
    rcases exists_of_failureOf hfailure with ⟨e, rfl, hmessage⟩
    exact ⟨e, hresult, hmessage⟩
  · rintro ⟨e, hresult, hmessage⟩
    refine ⟨_, hresult, ?_⟩
    rw [failureOf, ← hmessage]

theorem mem_files_iff (hdistinct : (results.map fun result => Path.parts result.1).Nodup)
    {listed : String × List Issue} :
    listed ∈ (ofResults results).files ↔
      ∃ unit, (listed.1, .ok unit) ∈ results ∧ unit.issues = listed.2 ∧ unit.issues ≠ [] := by
  have hfiles : (ofResults results).files =
      (gathered results).files.mergeSort fun a b => Path.le a.1 b.1 := rfl
  rw [hfiles, List.mem_mergeSort, (lists_gathered hdistinct).files, List.mem_filterMap]
  constructor
  · rintro ⟨result, hresult, hlisting⟩
    rcases exists_of_listingOf hlisting with ⟨unit, rfl, hissues⟩
    exact ⟨unit, hresult, hissues⟩
  · rintro ⟨unit, hresult, hissues, hsome⟩
    refine ⟨_, hresult, ?_⟩
    rw [listingOf, if_neg (by simpa using hsome), hissues]

/-- What is taken from each result under the path of its own file is about distinct paths. -/
theorem nodup_parts_filterMap {α : Type} {f : String × Except LoadError UnitReport → Option α}
    {file : α → String}
    (hfile : ∀ result ∈ results, ∀ a ∈ f result, Path.parts (file a) = Path.parts result.1)
    (hdistinct : (results.map fun result => Path.parts result.1).Nodup) :
    ((results.filterMap f).map fun a => Path.parts (file a)).Nodup := by
  apply List.Nodup.sublist _ hdistinct
  clear hdistinct
  induction results with
  | nil => exact List.Sublist.refl _
  | cons result results ih =>
    have hrest := ih fun result hresult => hfile result (List.mem_cons_of_mem _ hresult)
    cases hresult : f result with
    | none =>
      rw [List.filterMap_cons_none hresult]
      exact hrest.cons _
    | some a =>
      rw [List.filterMap_cons_some hresult, List.map_cons, List.map_cons,
        hfile result List.mem_cons_self a hresult]
      exact hrest.cons_cons _

/-- What is taken from the results file by file is about distinct files. -/
theorem nodup_map_filterMap {α : Type} {f : String × Except LoadError UnitReport → Option α}
    {name : α → String} (hname : ∀ result a, f result = some a → name a = result.1)
    (hdistinct : (results.map fun result => Path.parts result.1).Nodup) :
    ((results.filterMap f).map name).Nodup := by
  apply List.Nodup.of_map Path.parts
  rw [List.map_map]
  apply nodup_parts_filterMap _ hdistinct
  intro result _ a ha
  rw [hname result a ha]

/-- The report and its figures agree with the results of which it is made. -/
structure AccountsFor (r : Report) (results : List (String × Except LoadError UnitReport)) :
    Prop where
  failed : ∀ file e, (file, .error e) ∈ results →
    ⟨file, e.message⟩ ∈ r.failures ∧ file ∉ r.files.map (·.1)
  listed : ∀ file unit, (file, .ok unit) ∈ results → unit.issues ≠ [] →
    (file, unit.issues) ∈ r.files ∧ file ∉ r.failures.map (·.file)
  unlisted : ∀ file unit, (file, .ok unit) ∈ results → unit.issues = [] →
    file ∉ r.files.map (·.1) ∧ file ∉ r.failures.map (·.file)
  failures_from : ∀ failure ∈ r.failures,
    ∃ e, (failure.file, .error e) ∈ results ∧ failure.message = e.message
  files_from : ∀ listed ∈ r.files,
    ∃ unit, (listed.1, .ok unit) ∈ results ∧ unit.issues = listed.2 ∧ unit.issues ≠ []
  failures_distinct : (r.failures.map (·.file)).Nodup
  files_distinct : (r.files.map (·.1)).Nodup
  failures_sorted : r.failures.Pairwise fun a b => Path.le a.file b.file = true
  fixes_sorted : r.fixes.Pairwise fun a b => Path.le a.file b.file = true
  fixes : r.fixes.Perm (results.filterMap fixOf)
  faults : r.faults = results.flatMap faultsOf
  count_files : r.figures.files = results.length
  count_failed : r.figures.filesFailed = r.failures.length
  count_listed : r.figures.filesWithIssues = r.files.length
  count_issues : r.figures.issues = r.issues.length
  count_total : r.figures.bySeverity.total = r.issues.length
  count_severity : ∀ s, r.figures.bySeverity.get s = (r.issues.map (·.defect.severity)).count s
  count_fixes : r.figures.fixes = (results.filterMap fixOf).length
  count_faults : r.figures.faults = (results.flatMap faultsOf).length

theorem issues_ofResults_perm (results : List (String × Except LoadError UnitReport)) :
    (ofResults results).issues.Perm (gathered results).issues :=
  (List.mergeSort_perm _ _).flatMap_right _

section Distinct

variable (hdistinct : (results.map fun result => Path.parts result.1).Nodup)

include hdistinct

/-- Two results about one file are the same. -/
theorem eq_of_mem_results {outcome outcome' : Except LoadError UnitReport}
    (h : (file, outcome) ∈ results) (h' : (file, outcome') ∈ results) : outcome = outcome' :=
  congrArg Prod.snd (List.inj_on_of_nodup_map hdistinct h h' rfl)

theorem not_listed_of_unlisted {outcome : Except LoadError UnitReport}
    (h : (file, outcome) ∈ results) (hnone : ∀ unit, outcome = .ok unit → unit.issues = []) :
    file ∉ (ofResults results).files.map (·.1) := by
  intro hfile
  rcases List.mem_map.1 hfile with ⟨listed, hlisted, rfl⟩
  rcases (mem_files_iff hdistinct).1 hlisted with ⟨unit, hunit, -, hissues⟩
  exact hissues (hnone unit (eq_of_mem_results hdistinct h hunit))

theorem not_failed_of_loaded {unit : UnitReport} (h : (file, .ok unit) ∈ results) :
    file ∉ (ofResults results).failures.map (·.file) := by
  intro hfile
  rcases List.mem_map.1 hfile with ⟨failure, hfailure, rfl⟩
  rcases mem_failures_iff.1 hfailure with ⟨e, he, -⟩
  have hcontra := eq_of_mem_results hdistinct h he
  simp at hcontra

theorem accountsFor_ofResults : (ofResults results).AccountsFor results where
  failed file e h := ⟨mem_failures_iff.2 ⟨e, h, rfl⟩,
    not_listed_of_unlisted hdistinct h (by simp)⟩
  listed file unit h hissues := ⟨(mem_files_iff hdistinct).2 ⟨unit, h, rfl, hissues⟩,
    not_failed_of_loaded hdistinct h⟩
  unlisted file unit h hissues := by
    refine ⟨not_listed_of_unlisted hdistinct h ?_, not_failed_of_loaded hdistinct h⟩
    intro unit' hunit
    cases hunit
    exact hissues
  failures_from failure h := mem_failures_iff.1 h
  files_from listed h := (mem_files_iff hdistinct).1 h
  failures_distinct := by
    have hperm : (ofResults results).failures.Perm (gathered results).failures :=
      List.mergeSort_perm _ _
    rw [(hperm.map _).nodup_iff, failures_gathered]
    refine nodup_map_filterMap (fun result failure h => ?_) hdistinct
    rcases exists_of_failureOf h with ⟨e, rfl, -⟩
    rfl
  files_distinct := by
    have hperm : (ofResults results).files.Perm (gathered results).files :=
      List.mergeSort_perm _ _
    rw [(hperm.map _).nodup_iff, (lists_gathered hdistinct).files]
    refine nodup_map_filterMap (fun result listed h => ?_) hdistinct
    rcases exists_of_listingOf h with ⟨unit, rfl, -⟩
    rfl
  failures_sorted := Path.pairwise_mergeSort_le FileFailure.file _
  fixes_sorted := Path.pairwise_mergeSort_le AppliedFix.file _
  fixes := by
    rw [fixes_ofResults]
    exact List.mergeSort_perm _ _
  faults := faults_ofResults results
  count_files := figures_files_gathered results
  count_failed := (List.mergeSort_perm _ _).length_eq.symm
  count_listed := (List.mergeSort_perm _ _).length_eq.symm
  count_issues := by
    rw [(issues_ofResults_perm results).length_eq]
    exact (lists_gathered hdistinct).count
  count_total := by
    have htotal := congrArg Severity.Tally.total (lists_gathered hdistinct).bySeverity
    rw [Severity.Tally.total_bumpAll, List.length_map] at htotal
    rw [(issues_ofResults_perm results).length_eq]
    exact htotal.trans (Nat.zero_add _)
  count_severity s := by
    have hget := congrArg (Severity.Tally.get · s) (lists_gathered hdistinct).bySeverity
    rw [Severity.Tally.get_bumpAll] at hget
    rw [((issues_ofResults_perm results).map _).count_eq]
    refine hget.trans ?_
    cases s <;> exact Nat.zero_add _
  count_fixes := congrArg List.length (fixes_gathered results)
  count_faults := congrArg List.length (faults_ofResults results)

end Distinct

end Report

/-! ## What is fixed -/

namespace Run

variable {r : Run} {u : ProgramUnit} {report : UnitReport}

/-- The report came of the unit in the run, on some disk. -/
def Processes (r : Run) (u : ProgramUnit) (report : UnitReport) : Prop :=
  ∃ disk disk', r.process disk u = .ok (disk', report)

/-- All issues that were found are left, or one of them was fixed and the others are left. -/
theorem Processes.cases (h : r.Processes u report) :
    (report.issues = (r.check u).issues ∧ report.fixed = none) ∨
      ∃ before i after fix, (r.check u).issues = before ++ i :: after ∧
        report.issues = before ++ after ∧ report.fixed = some fix := by
  rcases h with ⟨disk, disk', hprocess⟩
  unfold process at hprocess
  cases he : r.engine with
  | none =>
    rw [he] at hprocess
    cases hprocess
    exact .inl ⟨rfl, rfl⟩
  | some e =>
    rw [he] at hprocess
    rcases Outcome.exists_of_bind_eq_ok hprocess with ⟨⟨next, changed, repair⟩, hrepair, hreturn⟩
    cases hreturn
    rcases Engine.passes_or_exists_first e disk u (r.check u).issues with
      hpasses | ⟨before, i, after, hissues, hbefore, ⟨a, hsucceeds⟩ | ⟨x, hgivesUp⟩⟩
    · rcases Engine.repair_of_passes hpasses with ⟨left, -, hrepaired⟩
      rw [hrepaired] at hrepair
      simp only [Except.ok.injEq, Prod.mk.injEq] at hrepair
      rcases hrepair with ⟨-, -, rfl⟩
      exact .inl ⟨rfl, rfl⟩
    · rw [hissues, Engine.repair_of_succeeds hbefore hsucceeds] at hrepair
      simp only [Except.ok.injEq, Prod.mk.injEq] at hrepair
      rcases hrepair with ⟨-, -, rfl⟩
      exact .inr ⟨before, i, after, _, hissues, rfl, rfl⟩
    · rw [hissues, Engine.repair_of_givesUp hbefore hgivesUp] at hrepair
      simp at hrepair

/-- An issue that was found is left, or it is the one that was fixed. -/
theorem Processes.conserves (h : r.Processes u report) :
    report.issues.length + report.fixed.toList.length = (r.check u).issues.length := by
  rcases h.cases with ⟨hissues, hfixed⟩ | ⟨before, i, after, fix, hfound, hissues, hfixed⟩
  · simp [hissues, hfixed]
  · simp [hfound, hissues, hfixed]
    omega

/-- No issue is left that was not found. -/
theorem Processes.issues_subset (h : r.Processes u report) : report.issues ⊆ (r.check u).issues := by
  rcases h.cases with ⟨hissues, -⟩ | ⟨before, i, after, fix, hfound, hissues, -⟩
  · simp [hissues]
  · simp [hfound, hissues]

/-- Over all units that were loaded. -/
theorem Processes.conserves_all {units : List ProgramUnit} {reports : List UnitReport}
    (h : List.Forall₂ r.Processes units reports) :
    (reports.flatMap (·.issues)).length + (reports.filterMap (·.fixed)).length =
      (units.flatMap fun u => (r.check u).issues).length := by
  induction h with
  | nil => rfl
  | @cons u report units reports hprocess _ ih =>
    have hone := hprocess.conserves
    rw [List.filterMap_eq_flatMap_toList] at ih ⊢
    simp only [List.flatMap_cons, List.length_append]
    omega

/-- The units of a sequential run and what is reported of them. -/
theorem processes_of_processFiles {start : String} {files : List String} {disk final : Disk}
    {done results : List (String × Except LoadError UnitReport)}
    (h : r.processFiles start disk done files = .ok (final, results)) :
    ∃ new, results = done.reverse ++ new ∧ new.map (·.1) = files ∧
      List.Forall₂ r.Processes (r.units start disk files) (new.filterMap (·.2.toOption)) := by
  induction files generalizing disk done with
  | nil =>
    cases h
    exact ⟨[], by simp, rfl, .nil⟩
  | cons file files ih =>
    rcases processFiles_cons h with
      ⟨err, -, hrest, hunits⟩ | ⟨u, next, report, -, hprocess, hrest, hunits⟩
    · rcases ih hrest with ⟨new, hresults, hfiles, hnew⟩
      refine ⟨(file, .error err) :: new, by simp [hresults], by simp [hfiles], ?_⟩
      rw [hunits]
      exact hnew
    · rcases ih hrest with ⟨new, hresults, hfiles, hnew⟩
      refine ⟨(file, .ok report) :: new, by simp [hresults], by simp [hfiles], ?_⟩
      rw [hunits]
      exact .cons ⟨disk, next, hprocess⟩ hnew

end Run

namespace Report

theorem length_listings (results : List (String × Except LoadError UnitReport)) :
    ((results.filterMap listingOf).flatMap (·.2)).length =
      ((results.filterMap (·.2.toOption)).flatMap (·.issues)).length := by
  induction results with
  | nil => rfl
  | cons result results ih =>
    match result with
    | (file, .error e) => exact ih
    | (file, .ok unit) =>
      by_cases hissues : unit.issues = []
      · simp [listingOf, Except.toOption, hissues, ih]
      · simp [listingOf, Except.toOption, hissues, ih]

/-- Nothing is lost and nothing is counted twice. Every file is in exactly one place of the report,
and the figures are those of the lists. Where the results came of units that were processed, the
issues that are left and the fixes are together as many as the issues that were found. -/
theorem ofResults_accounts (results : List (String × Except LoadError UnitReport))
    (hdistinct : (results.map fun result => Path.parts result.1).Nodup) :
    (ofResults results).AccountsFor results ∧
      ∀ (run : Run) (units : List ProgramUnit),
        List.Forall₂ run.Processes units (results.filterMap (·.2.toOption)) →
        (ofResults results).figures.issues + (ofResults results).figures.fixes =
          (units.flatMap fun u => (run.check u).issues).length := by
  have haccounts := accountsFor_ofResults hdistinct
  refine ⟨haccounts, ?_⟩
  intro run units hunits
  have hfixes : results.filterMap fixOf =
      (results.filterMap (·.2.toOption)).filterMap (·.fixed) := by
    rw [List.filterMap_filterMap]
    rfl
  calc (ofResults results).figures.issues + (ofResults results).figures.fixes
      = (gathered results).issues.length + (results.filterMap fixOf).length := by
        rw [haccounts.count_issues, haccounts.count_fixes, (issues_ofResults_perm results).length_eq]
    _ = ((results.filterMap (·.2.toOption)).flatMap (·.issues)).length +
          ((results.filterMap (·.2.toOption)).filterMap (·.fixed)).length := by
        rw [Report.issues, (lists_gathered hdistinct).files, length_listings, hfixes]
    _ = (units.flatMap fun u => (run.check u).issues).length := Run.Processes.conserves_all hunits

/-- Two files with an issue each and one that is missing. -/
theorem ofResults_accounts_twoFiles :
    ∃ final results,
      Run.removals.processFiles "/" (Run.removals.prepare Run.twoFiles "/").1 []
          ["/c.rs", "/a.b.rs", "/a/b.rs"] = .ok (final, results) ∧
        (ofResults results).AccountsFor results ∧
        (ofResults results).figures.issues + (ofResults results).figures.fixes = 2 := by
  have hrun : (Run.removals.processFiles "/" (Run.removals.prepare Run.twoFiles "/").1 []
      ["/c.rs", "/a.b.rs", "/a/b.rs"]).toOption.isSome = true := by
    decide +kernel
  rcases Option.isSome_iff_exists.1 hrun with ⟨⟨final, results⟩, hsome⟩
  have hok := Run.eq_ok_of_toOption hsome
  rcases Run.processes_of_processFiles hok with ⟨new, hresults, hfiles, hunits⟩
  obtain rfl : results = new := hresults
  have hdistinct : (results.map fun result => Path.parts result.1).Nodup := by
    have hparts : results.map (fun result => Path.parts result.1) =
        (results.map (·.1)).map Path.parts := by
      rw [List.map_map]
      rfl
    rw [hparts, hfiles]
    decide +kernel
  refine ⟨final, results, hok, (ofResults_accounts results hdistinct).1, ?_⟩
  rw [(ofResults_accounts results hdistinct).2 Run.removals _ hunits]
  decide +kernel

end Report

end LintMend
