import LintMend.Command.Run
import LintMend.Proofs.LoweredFunctions
import LintMend.Proofs.ProposedFixes
import LintMend.Proofs.ReportAccounts
import Mathlib.Data.List.TakeWhile

/-!
# Annotations and lines

A build service reads annotations line by line. Each annotation is printed with one newline behind
it, and the paths and descriptions in it are printed as they are. So the text has a line for each
issue and one more for each newline that these bring along. A built-in rule writes no newline of its
own into a description: all that it has come from the names of classes, methods and calls that it
quotes.
-/

namespace LintMend

/-! ## Newlines -/

/-- The newlines of a text. -/
def lineBreaks (s : String) : Nat := s.toList.count '\n'

theorem lineBreaks_eq_zero_iff {s : String} : lineBreaks s = 0 ↔ '\n' ∉ s.toList :=
  List.count_eq_zero

@[simp] theorem lineBreaks_append (s t : String) :
    lineBreaks (s ++ t) = lineBreaks s + lineBreaks t := by
  simp [lineBreaks]

@[simp] theorem lineBreaks_empty : lineBreaks "" = 0 := by
  simp [lineBreaks]

@[simp] theorem lineBreaks_toString (s : String) : lineBreaks (toString s) = lineBreaks s := rfl

theorem lineBreaks_join_eq_zero_iff {ss : List String} :
    lineBreaks (String.join ss) = 0 ↔ ∀ s ∈ ss, lineBreaks s = 0 := by
  induction ss with
  | nil => simp
  | cons s ss ih => simp [ih]

theorem lineBreaks_join_congr {α : Type} {f g : α → String}
    (h : ∀ a, lineBreaks (f a) = lineBreaks (g a)) (as : List α) :
    lineBreaks (String.join (as.map f)) = lineBreaks (String.join (as.map g)) := by
  induction as with
  | nil => rfl
  | cons a as ih => simp [h, ih]

@[simp] theorem lineBreaks_repr (n : Nat) : lineBreaks n.repr = 0 := by
  rw [lineBreaks_eq_zero_iff, Nat.repr, String.toList_ofList]
  intro hmem
  exact absurd (Nat.isDigit_of_mem_toDigits (by decide) (by decide) hmem) (by decide)

@[simp] theorem lineBreaks_repr_int (n : Int) : lineBreaks n.repr = 0 := by
  cases n with
  | ofNat n => exact lineBreaks_repr n
  | negSucc n =>
    have hparts : (Int.negSucc n).repr = "-" ++ (n + 1).repr := rfl
    have hsign : lineBreaks "-" = 0 := by decide
    rw [hparts, lineBreaks_append, hsign, lineBreaks_repr]

namespace Text

theorem length_cutLines_append (xs cs : List Char) :
    (cutLines (xs ++ '\n' :: cs)).length = xs.count '\n' + 1 + (cutLines cs).length := by
  induction xs using lines_induction with
  | last xs h =>
    rw [cutLines_append_newline h, List.count_eq_zero_of_not_mem h, List.length_cons]
    omega
  | line xs rest h ih =>
    rw [List.append_assoc, List.cons_append, cutLines_append_newline h, List.length_cons, ih,
      List.count_append, List.count_eq_zero_of_not_mem h, List.count_cons_self]
    omega

/-- Texts with a newline behind each make as many lines as there are texts and newlines in them. -/
theorem length_cutLines_ended (texts : List (List Char)) :
    (cutLines (texts.flatMap (· ++ ['\n']))).length =
      texts.length + texts.flatten.count '\n' := by
  induction texts with
  | nil => rfl
  | cons xs texts ih =>
    rw [List.flatMap_cons, List.append_assoc, List.singleton_append, length_cutLines_append, ih,
      List.flatten_cons, List.count_append, List.length_cons]
    omega

/-- The texts are the lines exactly if there is no newline in any of them. -/
theorem cutLines_ended_iff {texts : List (List Char)} :
    cutLines (texts.flatMap (· ++ ['\n'])) = texts.map (· ++ ['\n']) ↔ '\n' ∉ texts.flatten := by
  constructor
  · intro h
    have hlength := length_cutLines_ended texts
    rw [h, List.length_map] at hlength
    exact List.count_eq_zero.1 (by omega)
  · intro h
    have hended : ∀ l ∈ texts.map (· ++ ['\n']), IsEnded l := by
      intro l hl
      rcases List.mem_map.1 hl with ⟨xs, hxs, rfl⟩
      exact ⟨xs, fun hmem => h (List.mem_flatten.2 ⟨xs, hxs, hmem⟩), rfl⟩
    have hlines := cutLines_flatten_append hended []
    rwa [List.append_nil, cutLines, List.append_nil, ← List.flatMap_def] at hlines

end Text

/-! ## Descriptions -/

/-- The names that a rule quotes when it reports an entity. -/
def Entity.quotedBy (ruleId : String) : Entity → List String
  | .classDef c => [c.name]
  | .method c m => [c.name, m.name]
  | .expression _ x => if ruleId = SqlInjection.rule.id then x.name.toList else []
  | _ => []

/-- All descriptions have the newlines of the names. -/
def Quotes (names : List String) (issues : List Issue) : Prop :=
  ∀ i ∈ issues, lineBreaks i.defect.description = lineBreaks (String.join names)

section Rules

variable {c : Context} {e : Entity} {o : Origin} {issues : List Issue} {names : List String}
  {ruleId : String}

theorem Context.description_of_defect {description : String} {d : Defect}
    (h : c.defect o description = .ok d) : d.description = description := by
  rw [defect_eq_buildAt] at h
  rw [eq_build_of_buildAt h]
  rfl

theorem Context.description_of_defectAt {token description : String} {d : Defect}
    (h : c.defectAt o token description = .ok d) : d.description = description := by
  rw [defectAt_eq_buildAt] at h
  rw [eq_build_of_buildAt h]
  rfl

theorem quotes_of_nil (h : (.ok [] : Outcome (List Issue)) = .ok issues) : Quotes names issues := by
  cases h
  intro i hi
  cases hi

/-- Issues that are made of one defect say what the defect says. -/
theorem quotes_of_found {found : Outcome Defect} {make : Defect → Outcome (List Issue)}
    (hfound : ∀ d, found = .ok d → lineBreaks d.description = lineBreaks (String.join names))
    (hmake : ∀ d made, make d = .ok made → ∀ i ∈ made, i.defect.description = d.description)
    (h : (found >>= make) = .ok issues) : Quotes names issues := by
  rcases Outcome.exists_of_bind_eq_ok h with ⟨d, hd, hmade⟩
  intro i hi
  rw [hmake d issues hmade i hi, hfound d hd]

theorem description_of_plain (d : Defect) (made : List Issue)
    (h : (return [⟨d, none⟩] : Outcome (List Issue)) = .ok made) :
    ∀ i ∈ made, i.defect.description = d.description := by
  cases h
  intro i hi
  rw [List.mem_singleton.1 hi]

theorem description_of_fixable {key : Option String} {fix : Fix} (d : Defect) (made : List Issue)
    (h : (return [.withFix d key fix] : Outcome (List Issue)) = .ok made) :
    ∀ i ∈ made, i.defect.description = d.description := by
  cases h
  intro i hi
  rw [List.mem_singleton.1 hi]
  rfl

theorem ConsoleOutput.quotes_of_check (h : check c e = .ok issues) :
    Quotes (e.quotedBy ruleId) issues := by
  cases e with
  | statement m s =>
    rw [check] at h
    split at h
    · exact quotes_of_nil h
    · next call name hcall =>
      refine quotes_of_found ?_ ?_ h
      · intro d hd
        have hname : lineBreaks name = 0 :=
          (by decide : ∀ name ∈ names, lineBreaks name = 0) name (of_call? hcall).2.2.2
        have hwords : lineBreaks "`" = 0 ∧
            lineBreaks "` writes to the console - use the logger instead" = 0 := by decide
        rw [Context.description_of_defectAt hd]
        simp [Entity.quotedBy, hname, hwords]
      · intro d made hmade
        split at hmade
        · exact description_of_fixable d made hmade
        · exact description_of_plain d made hmade
  | _ => exact quotes_of_nil h

/-- A weak piece has the letters of a known algorithm. -/
theorem WeakCrypto.lineBreaks_segment {x : Expression} {segment : String}
    {replacement : Option String} (h : weakSegment? x = some (segment, replacement)) :
    lineBreaks segment = 0 := by
  rcases exists_weak h with ⟨weak, hweak, hletters⟩
  have hnone : lineBreaks weak = 0 :=
    (by decide : ∀ known ∈ algorithms, lineBreaks known.1 = 0) _ hweak
  rw [lineBreaks_eq_zero_iff] at hnone ⊢
  rw [hletters, Text.lowerAscii] at hnone
  intro hmem
  have hlower : '\n'.toLower = '\n' := by decide
  exact hnone (List.mem_map.2 ⟨'\n', hmem, hlower⟩)

theorem WeakCrypto.quotes_of_check (h : check c e = .ok issues) :
    Quotes (e.quotedBy rule.id) issues := by
  cases e with
  | expression s x =>
    rw [check] at h
    split at h
    · exact quotes_of_nil h
    · next segment replacement hweak =>
      refine quotes_of_found ?_ ?_ h
      · intro d hd
        have hother : rule.id ≠ SqlInjection.rule.id := by decide
        have hwords : lineBreaks "`" = 0 ∧ lineBreaks "` is cryptographically broken" = 0 := by
          decide
        rw [Context.description_of_defectAt hd]
        simp [Entity.quotedBy, hother, lineBreaks_segment hweak, hwords]
      · intro d made hmade
        split at hmade
        · rcases Outcome.exists_of_bind_eq_ok hmade with ⟨start, -, hmade⟩
          rcases Outcome.exists_of_bind_eq_ok hmade with ⟨stop, -, hmade⟩
          exact description_of_fixable d made hmade
        · exact description_of_plain d made hmade
  | _ => exact quotes_of_nil h

theorem newline_notMem_originLine (u : ProgramUnit) (o : Origin) :
    '\n' ∉ (u.originLine o).toList := by
  rw [ProgramUnit.originLine]
  split
  · rw [String.toList_ofList]
    intro hmem
    simpa using List.mem_takeWhile_imp hmem
  · simp

theorem HardcodedSecret.quotes_of_check {pattern : Text.Pattern}
    (h : check pattern c e = .ok issues) : Quotes (e.quotedBy ruleId) issues := by
  cases e with
  | statement m s =>
    rw [check] at h
    split at h
    · exact quotes_of_nil h
    · next group hfound =>
      split at h
      · exact quotes_of_nil h
      · refine quotes_of_found ?_ description_of_fixable h
        intro d hd
        -- The name is a part of the first line of its statement.
        have hname : lineBreaks (String.ofList (group nameGroup)) = 0 := by
          rw [lineBreaks_eq_zero_iff, String.toList_ofList]
          intro hmem
          exact newline_notMem_originLine c.unit s.origin
            ((sublist_of_search? hfound nameGroup).subset hmem)
        have hwords : lineBreaks "`" = 0 ∧
            lineBreaks "` is assigned a hard-coded credential" = 0 := by decide
        rw [Context.description_of_defectAt hd]
        simp [Entity.quotedBy, hname, hwords]
  | _ => exact quotes_of_nil h

theorem SqlInjection.quotes_of_check (h : check c e = .ok issues) :
    Quotes (e.quotedBy rule.id) issues := by
  cases e with
  | expression s x =>
    rw [check] at h
    split at h
    · refine quotes_of_found ?_ description_of_plain h
      intro d hd
      have hwords : lineBreaks "`" = 0 ∧ lineBreaks "query" = 0 ∧
          lineBreaks "` receives SQL assembled at runtime - use bound parameters" = 0 := by
        decide
      rw [Context.description_of_defectAt hd, Entity.quotedBy, if_pos rfl]
      cases x.name with
      | none => simp [hwords]
      | some name => simp [hwords]
    · exact quotes_of_nil h
  | _ => exact quotes_of_nil h

theorem Size.quotes_of_checkMethod {count : Method → Nat} {limit : Nat} {words : Nat → String}
    (hwords : ∀ n, lineBreaks (words n) = 0) (h : checkMethod count limit words c e = .ok issues) :
    Quotes (e.quotedBy ruleId) issues := by
  cases e with
  | method cls m =>
    rw [checkMethod] at h
    split at h
    · exact quotes_of_nil h
    · split at h
      · refine quotes_of_found ?_ description_of_plain h
        intro d hd
        have hplain : lineBreaks "Method '" = 0 ∧ lineBreaks "::" = 0 ∧ lineBreaks "' has " = 0 ∧
            lineBreaks " (max: " = 0 ∧ lineBreaks ")" = 0 := by decide
        rw [Context.description_of_defectAt hd]
        simp [Entity.quotedBy, hwords, hplain]
      · exact quotes_of_nil h
  | _ => exact quotes_of_nil h

theorem Size.quotes_of_checkClass {limit : Nat} (h : checkClass limit c e = .ok issues) :
    Quotes (e.quotedBy ruleId) issues := by
  cases e with
  | classDef cls =>
    rw [checkClass] at h
    split at h
    · refine quotes_of_found ?_ description_of_plain h
      intro d hd
      have hplain : lineBreaks "'" = 0 ∧ lineBreaks "' has " = 0 ∧
          lineBreaks " methods (max: " = 0 ∧ lineBreaks ")" = 0 := by decide
      rw [Context.description_of_defect hd]
      simp [Entity.quotedBy, hplain]
    · exact quotes_of_nil h
  | _ => exact quotes_of_nil h

theorem Size.quotes_of_checkFile {limit : Nat} (h : checkFile limit c e = .ok issues) :
    Quotes (e.quotedBy ruleId) issues := by
  cases e with
  | file u =>
    rw [checkFile] at h
    split at h
    · refine quotes_of_found ?_ description_of_plain h
      intro d hd
      have hplain : lineBreaks "File has " = 0 ∧ lineBreaks " lines (max: " = 0 ∧
          lineBreaks ")" = 0 := by decide
      rw [Context.description_of_defect hd]
      simp [Entity.quotedBy, hplain]
    · exact quotes_of_nil h
  | _ => exact quotes_of_nil h

end Rules

/-- The rule reports the issue when it looks at the entity of the unit. -/
def Checker.Raises (r : Checker) (config : Config) (u : ProgramUnit) (e : Entity) (i : Issue) :
    Prop :=
  i.ruleId = r.id ∧ i ∈ r.issuesAlone (r.context u (config.rule r.id)) e

/-- A built-in rule takes the newlines of a description from the names that it quotes. -/
theorem lineBreaks_of_raises {config : Config} {r : Checker} (hr : r ∈ builtinRules config)
    {u : ProgramUnit} {e : Entity} {i : Issue} (h : r.Raises config u e i) :
    lineBreaks i.defect.description = lineBreaks (String.join (e.quotedBy i.ruleId)) := by
  rcases h with ⟨hrule, hi⟩
  rw [hrule]
  have hfound : ∀ {find : Context → Entity → Outcome (List Issue)},
      r.check = (fun c e => .ofFound (find c e)) →
      (∀ {issues}, find (r.context u (config.rule r.id)) e = .ok issues →
        Quotes (e.quotedBy r.id) issues) →
      lineBreaks i.defect.description = lineBreaks (String.join (e.quotedBy r.id)) := by
    intro find hcheck hquotes
    rcases exists_of_mem_issuesAlone hcheck hi with ⟨issues, h, hmem⟩
    exact hquotes h i hmem
  have hstatements : lineBreaks " statements" = 0 := by decide
  have hcomplexity : lineBreaks "cyclomatic complexity of " = 0 := by decide
  simp only [builtinRules, List.mem_cons, List.not_mem_nil, or_false] at hr
  rcases hr with rfl | rfl | rfl | rfl | rfl | rfl | rfl | rfl
  · exact hfound rfl ConsoleOutput.quotes_of_check
  · exact hfound rfl WeakCrypto.quotes_of_check
  · exact hfound rfl HardcodedSecret.quotes_of_check
  · exact hfound rfl SqlInjection.quotes_of_check
  · exact hfound rfl (Size.quotes_of_checkMethod fun n => by simp [hstatements])
  · exact hfound rfl (Size.quotes_of_checkMethod fun n => by simp [hcomplexity])
  · exact hfound rfl Size.quotes_of_checkClass
  · exact hfound rfl Size.quotes_of_checkFile

/-! ## Lines of a report -/

/-- A run with the built-in rules, with fixes or without. -/
def Run.builtin (config : Config) (engine : Option Engine) : Run :=
  { ofConfig config with engine }

theorem Printed.toList_text (lines : List String) :
    (text lines).toList = (lines.map String.toList).flatMap (· ++ ['\n']) := by
  simp [text, String.toList_join, List.flatMap_map]

theorem lineBreaks_annotation (file : String) (i : Issue) :
    lineBreaks (i.annotation file) = lineBreaks (file ++ i.defect.description) := by
  have hlevel : ∀ s : Severity, lineBreaks s.annotationLevel = 0 := by
    intro s
    cases s <;> decide
  have hplain : lineBreaks "::" = 0 ∧ lineBreaks "::file=" = 0 ∧ lineBreaks ",line=" = 0 ∧
      lineBreaks ",col=" = 0 := by decide
  simp [Issue.annotation, hlevel, hplain]

namespace Report

/-- Each issue with its file, in the order of the files. -/
def listed (r : Report) : List (String × Issue) :=
  r.files.flatMap fun (file, issues) => issues.map fun i => (file, i)

/-- The path and the description that the annotation of an issue takes over. -/
def takenOver (r : Report) : List String :=
  r.listed.map fun (file, i) => file ++ i.defect.description

theorem annotations_eq_map (r : Report) :
    r.annotations = r.listed.map fun (file, i) => i.annotation file := by
  simp [annotations, listed, List.map_flatMap, Function.comp_def]

theorem length_listed (r : Report) : r.listed.length = r.issues.length := by
  rw [← r.length_annotations, annotations_eq_map, List.length_map]

theorem count_newline_annotations (r : Report) :
    (r.annotations.map String.toList).flatten.count '\n' =
      lineBreaks (String.join r.takenOver) := by
  have hjoin : (r.annotations.map String.toList).flatten.count '\n' =
      lineBreaks (String.join r.annotations) := by
    rw [lineBreaks, String.toList_join, List.flatMap_def]
  rw [hjoin, annotations_eq_map, takenOver]
  apply lineBreaks_join_congr
  rintro ⟨file, i⟩
  exact lineBreaks_annotation file i

theorem mem_listed_iff {r : Report} {file : String} {i : Issue} :
    (file, i) ∈ r.listed ↔ ∃ issues, (file, issues) ∈ r.files ∧ i ∈ issues := by
  simp only [listed, List.mem_flatMap, Prod.exists, List.mem_map, Prod.mk.injEq]
  constructor
  · rintro ⟨file', issues, hfile, i', hi, rfl, rfl⟩
    exact ⟨issues, hfile, hi⟩
  · rintro ⟨issues, hfile, hi⟩
    exact ⟨file, issues, hfile, i, hi, rfl, rfl⟩

/-- The lines of the text of the annotations, with their ends. -/
def annotationLines (r : Report) : List (List Char) :=
  Text.cutLines (Printed.text r.annotations).toList

/-- Each line is the annotation of one issue, in order. -/
def OnOwnLines (r : Report) : Prop :=
  r.annotationLines = r.listed.map fun (file, i) => (i.annotation file).toList ++ ['\n']

theorem length_annotationLines (r : Report) :
    r.annotationLines.length = r.issues.length + lineBreaks (String.join r.takenOver) := by
  rw [annotationLines, Printed.toList_text, Text.length_cutLines_ended, count_newline_annotations,
    List.length_map, length_annotations]

theorem onOwnLines_iff {r : Report} :
    r.OnOwnLines ↔ ∀ file i, (file, i) ∈ r.listed →
      lineBreaks file = 0 ∧ lineBreaks i.defect.description = 0 := by
  have htexts : (r.listed.map fun (file, i) => (i.annotation file).toList ++ ['\n']) =
      (r.annotations.map String.toList).map (· ++ ['\n']) := by
    rw [annotations_eq_map, List.map_map, List.map_map]
    rfl
  rw [OnOwnLines, htexts, annotationLines, Printed.toList_text, Text.cutLines_ended_iff,
    ← List.count_eq_zero, count_newline_annotations, lineBreaks_join_eq_zero_iff, takenOver,
    List.forall_mem_map, Prod.forall]
  simp only [lineBreaks_append, Nat.add_eq_zero_iff]

/-- What is listed was found by a built-in rule in an entity of a unit of the run. -/
theorem exists_raises_of_listed {config : Config} {engine : Option Engine}
    {results : List (String × Except LoadError UnitReport)} {units : List ProgramUnit}
    (hdistinct : (results.map fun result => Path.parts result.1).Nodup)
    (hunits : List.Forall₂ (Run.builtin config engine).Processes units
      (results.filterMap (·.2.toOption)))
    {file : String} {i : Issue} (h : (file, i) ∈ (ofResults results).listed) :
    ∃ u ∈ units, ∃ e ∈ u.walk, ∃ r ∈ builtinRules config, r.Raises config u e i := by
  rcases mem_listed_iff.1 h with ⟨issues, hfile, hi⟩
  rcases (mem_files_iff hdistinct).1 hfile with ⟨report, hreport, rfl, -⟩
  have hmem : report ∈ results.filterMap (·.2.toOption) :=
    List.mem_filterMap.2 ⟨_, hreport, rfl⟩
  rcases Rust.exists_related_of_mem hunits.flip hmem with ⟨u, hu, hprocess⟩
  have hfound : i ∈ ((Run.ofConfig config).check u).issues :=
    Run.Processes.issues_subset hprocess hi
  rcases mem_builtin_of_mem_issues hfound with ⟨r, hr, e, he, hraised⟩
  exact ⟨u, hu, e, he, r, hr, ruleId_of_mem hr hraised, hraised⟩

/-- The annotations of a run with the built-in rules are as many as its issues, by the order of the
files. They have a line each exactly if no path and no description brings a newline along, and each
newline more is a line more. The newlines of descriptions are those of the names in them, so that
paths and names without newlines are enough. -/
theorem annotations_on_own_lines_iff (config : Config) (engine : Option Engine)
    (results : List (String × Except LoadError UnitReport)) (units : List ProgramUnit)
    (hdistinct : (results.map fun result => Path.parts result.1).Nodup)
    (hunits : List.Forall₂ (Run.builtin config engine).Processes units
      (results.filterMap (·.2.toOption))) :
    let r := ofResults results
    r.listed.length = r.issueCount ∧
      (r.files.Pairwise fun a b => Path.le a.1 b.1 = true) ∧
      r.annotationLines.length = r.issueCount + lineBreaks (String.join r.takenOver) ∧
      (r.OnOwnLines ↔ ∀ file i, (file, i) ∈ r.listed →
        lineBreaks file = 0 ∧ lineBreaks i.defect.description = 0) ∧
      (∀ file i, (file, i) ∈ r.listed → ∃ u ∈ units, ∃ e ∈ u.walk,
        (∃ rule ∈ builtinRules config, rule.Raises config u e i) ∧
          lineBreaks i.defect.description = lineBreaks (String.join (e.quotedBy i.ruleId))) ∧
      ((∀ result ∈ results, lineBreaks result.1 = 0) →
        (∀ u ∈ units, ∀ e ∈ u.walk, ∀ ruleId, ∀ name ∈ e.quotedBy ruleId, lineBreaks name = 0) →
        r.OnOwnLines) := by
  intro r
  have hcount : r.issueCount = r.issues.length := (accountsFor_ofResults hdistinct).count_issues
  have hquoted : ∀ file i, (file, i) ∈ r.listed → ∃ u ∈ units, ∃ e ∈ u.walk,
      (∃ rule ∈ builtinRules config, rule.Raises config u e i) ∧
        lineBreaks i.defect.description = lineBreaks (String.join (e.quotedBy i.ruleId)) := by
    intro file i hi
    rcases exists_raises_of_listed hdistinct hunits hi with ⟨u, hu, e, he, rule, hrule, hraises⟩
    exact ⟨u, hu, e, he, ⟨rule, hrule, hraises⟩, lineBreaks_of_raises hrule hraises⟩
  refine ⟨?_, Path.pairwise_mergeSort_le Prod.fst _, ?_, onOwnLines_iff, hquoted, ?_⟩
  · rw [hcount, length_listed]
  · rw [hcount, length_annotationLines]
  · intro hpaths hnames
    apply onOwnLines_iff.2
    intro file i hi
    rcases mem_listed_iff.1 hi with ⟨issues, hfile, -⟩
    rcases (mem_files_iff hdistinct).1 hfile with ⟨report, hreport, -⟩
    rcases hquoted file i hi with ⟨u, hu, e, he, -, hbreaks⟩
    refine ⟨hpaths _ hreport, ?_⟩
    rw [hbreaks, lineBreaks_join_eq_zero_iff]
    exact hnames u hu e he i.ruleId

/-- A unit with a class whose name goes on in a new line. -/
def brokenName : ProgramUnit where
  name := "m"
  path := "m.rs"
  source := "x"
  classes := [⟨"c\n::error::fake", none,
    [⟨"f", some ⟨1, 1, ⟨0, 1⟩⟩, ⟨[⟨0, []⟩], List.replicate 10 (0, 0)⟩⟩]⟩]

theorem parse_brokenName :
    Frontend.parse "a.unit.json" "a.unit.json" brokenName.toJson.compact = .ok brokenName := by
  have hformat : Format.ofPath? "a.unit.json" = some .model := by decide
  have hwords : brokenName.Worded := by
    simp [brokenName, ProgramUnit.Worded, Class.Worded, Method.Worded, FlowGraph.Worded,
      FlowBlock.Worded, Origin.Worded, Span.Worded, wordLimit]
  simp only [Frontend.parse, hformat]
  exact Frontend.parseModel_compact "a.unit.json" rfl hwords (by decide) (by decide)

/-- The results of a run that checks this unit and misses another file. -/
def brokenResults : List (String × Except LoadError UnitReport) :=
  [("a.unit.json", .ok ((Run.ofConfig {}).check brokenName)),
    ("b.rs", .error (.unsupported "b.rs"))]

theorem annotations_on_own_lines_iff_brokenName :
    (brokenResults.map fun result => Path.parts result.1).Nodup ∧
      List.Forall₂ (Run.builtin {} none).Processes [brokenName]
        (brokenResults.filterMap (·.2.toOption)) ∧
      (ofResults brokenResults).annotationLines.length =
        (ofResults brokenResults).issueCount +
          lineBreaks (String.join (ofResults brokenResults).takenOver) := by
  have hdistinct : (brokenResults.map fun result => Path.parts result.1).Nodup := by
    decide
  have hunits : List.Forall₂ (Run.builtin {} none).Processes [brokenName]
      (brokenResults.filterMap (·.2.toOption)) := .cons ⟨{}, {}, rfl⟩ .nil
  exact ⟨hdistinct, hunits,
    (annotations_on_own_lines_iff {} none brokenResults [brokenName] hdistinct hunits).2.2.1⟩

/-- One issue is printed on two lines, and the second is an annotation that nobody made. -/
theorem annotation_of_brokenName_splits :
    Frontend.parse "a.unit.json" "a.unit.json" brokenName.toJson.compact = .ok brokenName ∧
      (ofResults brokenResults).issueCount = 1 ∧
      (ofResults brokenResults).annotationLines.map String.ofList =
        ["::warning::file=a.unit.json,line=1,col=1::Method 'c\n",
          "::error::fake::f' has cyclomatic complexity of 11 (max: 10)\n"] := by
  exact ⟨parse_brokenName, by decide +kernel, by decide +kernel⟩

end Report

end LintMend
