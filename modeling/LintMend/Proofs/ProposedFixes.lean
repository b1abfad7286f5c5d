import LintMend.Analysis.Run
import LintMend.Proofs.PatchApplication
import LintMend.Proofs.RuleFaults
import LintMend.Proofs.SilencedIssues

/-!
# Proposed fixes

Three of the built-in rules propose fixes, and each of them has a mode of its own. So a fix tells from
which rule it comes: a patch renames a weak piece of a name, and a change of the unit removes a
statement that does nothing but write to the console.
-/

namespace LintMend

theorem exists_of_mem_issuesAlone {r : Checker} {find : Context → Entity → Outcome (List Issue)}
    (hr : r.check = fun c e => .ofFound (find c e)) {c : Context} {e : Entity} {i : Issue}
    (hi : i ∈ r.issuesAlone c e) : ∃ issues, find c e = .ok issues ∧ i ∈ issues := by
  cases hfind : find c e with
  | ok issues =>
    rw [Checker.issuesAlone_of_found hr hfind] at hi
    exact ⟨issues, rfl, hi⟩
  | error a => simp [Checker.issuesAlone, hr, hfind, Reporting.ofFound] at hi

/-- What is found in a unit is found by a built-in rule in a part of the unit. -/
theorem mem_builtin_of_mem_issues {config : Config} {u : ProgramUnit} {i : Issue}
    (h : i ∈ ((Run.ofConfig config).check u).issues) :
    ∃ r ∈ builtinRules config, ∃ e ∈ u.walk,
      i ∈ r.issuesAlone (r.context u (config.rule r.id)) e := by
  have hfound : i ∈ ((Dispatcher.ofCheckers (builtinRules config) config).dispatch u).issues := by
    simp only [Run.check, Markers.filter] at h
    split at h
    · cases h
    · exact (List.mem_filter.1 h).1
  rw [(Dispatcher.tallies_dispatch _ u (Dispatcher.indexed_ofCheckers _ config)
    fun _ => Dispatcher.onlyAppends_of_mem_entries).1, Dispatcher.entries_ofCheckers] at hfound
  rcases List.mem_flatMap.1 hfound with ⟨n, hn, hi⟩
  rcases List.mem_map.1 hn with ⟨r, hr, rfl⟩
  rcases List.mem_flatMap.1 hi with ⟨e, he, hi⟩
  exact ⟨r, (List.mem_filter.1 hr).1, e, (List.mem_filter.1 he).1, hi⟩

/-- The patch that is proposed for an issue, if any. -/
def Issue.patch? (i : Issue) : Option Patch :=
  match i.fix with
  | some (.patch p) => some p
  | _ => none

theorem Issue.fix_of_patch? {i : Issue} {p : Patch} (h : i.patch? = some p) :
    i.fix = some (.patch p) := by
  rw [patch?] at h
  split at h
  · next hfix =>
    cases h
    exact hfix
  · cases h

/-! ## What each rule reports -/

/-- The issues are reported in the context, and what fixes they have are of the mode. -/
def Tagged (c : Context) (mode : Option FixMode) (issues : List Issue) : Prop :=
  ∀ i ∈ issues, (∃ o, c.Reports o i) ∧ ∀ fix, i.fix = some fix → some fix.mode = mode

section Tagged

variable {c : Context} {o : Origin} {mode : Option FixMode} {found : Outcome Defect}
  {issues : List Issue}

theorem tagged_of_nil (h : (.ok [] : Outcome (List Issue)) = .ok issues) : Tagged c mode issues := by
  cases h
  intro i hi
  cases hi

theorem tagged_of_plain (hfound : ∀ d, found = .ok d → c.Finds o d)
    (h : (do return [⟨← found, none⟩] : Outcome (List Issue)) = .ok issues) :
    Tagged c mode issues := by
  rcases Outcome.exists_of_bind_eq_ok h with ⟨d, hd, h⟩
  cases h
  intro i hi
  rw [List.mem_singleton.1 hi]
  exact ⟨⟨o, .plain (hfound d hd)⟩, fun _ hfix => absurd hfix (Option.some_ne_none _).symm⟩

theorem tagged_of_fixable {key : Option String} {fix : Fix} (hfound : ∀ d, found = .ok d → c.Finds o d)
    (h : (do return [.withFix (← found) key fix] : Outcome (List Issue)) = .ok issues) :
    Tagged c (some fix.mode) issues := by
  rcases Outcome.exists_of_bind_eq_ok h with ⟨d, hd, h⟩
  cases h
  intro i hi
  rw [List.mem_singleton.1 hi]
  refine ⟨⟨o, .fixable (hfound d hd) key fix⟩, fun fix' hfix => ?_⟩
  rw [← Option.some.inj hfix]

end Tagged

namespace ConsoleOutput

/-- The rule reports a statement with a call that writes to the console, and proposes to remove it if
the call is all there is. -/
theorem exists_of_check {c : Context} {e : Entity} {issues : List Issue} {i : Issue}
    (h : check c e = .ok issues) (hi : i ∈ issues) :
    ∃ m s call name d, e = .statement m s ∧ call? s = some (call, name) ∧ c.Finds s.origin d ∧
      i = if isRemovable s call then .withFix d (some (toString s.id)) (.unit removal)
        else ⟨d, none⟩ := by
  cases e with
  | statement m s =>
    cases hcall : call? s with
    | none =>
      simp only [check, hcall] at h
      cases h
      cases hi
    | some found =>
      simp only [check, hcall] at h
      rcases Outcome.exists_of_bind_eq_ok h with ⟨d, hd, h⟩
      refine ⟨m, s, found.1, found.2, d, rfl, hcall, .token _ _ hd, ?_⟩
      split at h
      · next hremovable =>
        cases h
        rw [if_pos hremovable]
        exact List.mem_singleton.1 hi
      · next hstays =>
        cases h
        rw [if_neg hstays]
        exact List.mem_singleton.1 hi
  | _ =>
    cases h
    cases hi

/-- A fix of the rule removes a statement. -/
structure Removes (s : Statement) (call : Expression) (name : String) (i : Issue) : Prop where
  found : call? s = some (call, name)
  removable : isRemovable s call = true
  fix : i.fix = some (.unit removal)
  key : i.defect.fixKey = some (toString s.id)

theorem removes_of_check {c : Context} {e : Entity} {issues : List Issue} {i : Issue} {fix : Fix}
    (h : check c e = .ok issues) (hi : i ∈ issues) (hfix : i.fix = some fix) :
    ∃ m s call name, e = .statement m s ∧ Removes s call name i := by
  rcases exists_of_check h hi with ⟨m, s, call, name, d, rfl, hcall, -, rfl⟩
  by_cases hremovable : isRemovable s call = true
  · rw [if_pos hremovable]
    exact ⟨m, s, call, name, rfl, hcall, hremovable, rfl, rfl⟩
  · rw [if_neg hremovable] at hfix
    cases hfix

theorem tagged_of_check {c : Context} {e : Entity} {issues : List Issue} (h : check c e = .ok issues) :
    Tagged c (some .unitFix) issues := by
  intro i hi
  rcases exists_of_check h hi with ⟨m, s, call, name, d, -, -, hd, rfl⟩
  split
  · refine ⟨⟨_, .fixable hd _ _⟩, fun fix hfix => ?_⟩
    rw [← Option.some.inj hfix]
    rfl
  · exact ⟨⟨_, .plain hd⟩, fun _ hfix => absurd hfix (Option.some_ne_none _).symm⟩

end ConsoleOutput

namespace WeakCrypto

/-- The edit that puts another name in the place of a weak one. -/
def renameEdit (source : String) (start : Nat) (segment name : String) : PatchEdit :=
  ⟨⟨start, start + byteLength segment⟩,
    (Span.text? ⟨start, start + byteLength segment⟩ source).getD "", name⟩

/-- A patch of the rule renames a weak piece where it stands in an expression. -/
structure Proposes (c : Context) (x : Expression) (p : Patch) (segment replacement : String)
    (offset : Nat) : Prop where
  weak : weakSegment? x = some (segment, some replacement)
  found : Text.find? segment.toList x.text.toList = some offset
  edits : p.edits = [renameEdit c.unit.source (x.origin.span.start + offset) segment
    (matchCase segment replacement)]

theorem eq_add_of_addWord {a b sum : Nat} (h : addWord a b = .ok sum) : sum = a + b := by
  rw [addWord] at h
  split at h
  · exact (Except.ok.inj h).symm
  · cases h

/-- The rule reports an expression, with a patch for it or without. -/
theorem exists_of_check {c : Context} {e : Entity} {issues : List Issue} {i : Issue}
    (h : check c e = .ok issues) (hi : i ∈ issues) :
    ∃ s x d, e = .expression s x ∧ c.Finds x.origin d ∧ (i = ⟨d, none⟩ ∨
      ∃ p segment replacement offset, i = .withFix d none (.patch p) ∧
        Proposes c x p segment replacement offset) := by
  cases e with
  | expression s x =>
    cases hweak : weakSegment? x with
    | none =>
      simp only [check, hweak] at h
      cases h
      cases hi
    | some found =>
      simp only [check, hweak] at h
      rcases Outcome.exists_of_bind_eq_ok h with ⟨d, hd, h⟩
      refine ⟨s, x, d, rfl, .token _ _ hd, ?_⟩
      cases hreplacement : found.2 with
      | none =>
        simp only [hreplacement] at h
        cases h
        exact .inl (List.mem_singleton.1 hi)
      | some replacement =>
        cases hfind : Text.find? found.1.toList x.text.toList with
        | none =>
          simp only [hreplacement, hfind] at h
          cases h
          exact .inl (List.mem_singleton.1 hi)
        | some offset =>
          simp only [hreplacement, hfind] at h
          rcases Outcome.exists_of_bind_eq_ok h with ⟨start, hstart, h⟩
          rcases Outcome.exists_of_bind_eq_ok h with ⟨stop, hstop, h⟩
          cases eq_add_of_addWord hstart
          cases eq_add_of_addWord hstop
          cases h
          refine .inr ⟨_, found.1, replacement, offset, List.mem_singleton.1 hi, ?_, hfind, rfl⟩
          rw [hweak, ← hreplacement]
  | _ =>
    cases h
    cases hi

theorem proposes_of_check {c : Context} {e : Entity} {issues : List Issue} {i : Issue} {p : Patch}
    (h : check c e = .ok issues) (hi : i ∈ issues) (hp : i.fix = some (.patch p)) :
    ∃ s x segment replacement offset, e = .expression s x ∧
      Proposes c x p segment replacement offset := by
  rcases exists_of_check h hi with
    ⟨s, x, d, rfl, -, rfl | ⟨q, segment, replacement, offset, rfl, hproposes⟩⟩
  · cases hp
  · cases hp
    exact ⟨s, x, segment, replacement, offset, rfl, hproposes⟩

theorem tagged_of_check {c : Context} {e : Entity} {issues : List Issue} (h : check c e = .ok issues) :
    Tagged c (some .textPatch) issues := by
  intro i hi
  rcases exists_of_check h hi with ⟨s, x, d, -, hd, rfl | ⟨p, segment, replacement, offset, rfl, -⟩⟩
  · exact ⟨⟨_, .plain hd⟩, fun _ hfix => absurd hfix (Option.some_ne_none _).symm⟩
  · refine ⟨⟨_, .fixable hd _ _⟩, fun fix hfix => ?_⟩
    rw [← Option.some.inj hfix]
    rfl

end WeakCrypto

theorem HardcodedSecret.tagged_of_check {pattern : Text.Pattern} {c : Context} {e : Entity}
    {issues : List Issue} (h : check pattern c e = .ok issues) :
    Tagged c (some .externalSuggestion) issues := by
  cases e with
  | statement m s =>
    rw [check] at h
    split at h
    · exact tagged_of_nil h
    · split at h
      · exact tagged_of_nil h
      · exact tagged_of_fixable (fun _ => .token _ _) h
  | _ =>
    exact tagged_of_nil h

section Plain

variable {c : Context} {e : Entity} {issues : List Issue}

theorem SqlInjection.tagged_of_check (h : check c e = .ok issues) : Tagged c none issues := by
  cases e with
  | expression s x =>
    rw [check] at h
    split at h
    · exact tagged_of_plain (fun _ => .token _ _) h
    · exact tagged_of_nil h
  | _ =>
    exact tagged_of_nil h

theorem Size.tagged_of_checkMethod {count : Method → Nat} {limit : Nat} {words : Nat → String}
    (h : checkMethod count limit words c e = .ok issues) : Tagged c none issues := by
  cases e with
  | method cls m =>
    rw [checkMethod] at h
    split at h
    · exact tagged_of_nil h
    · split at h
      · exact tagged_of_plain (fun _ => .token _ _) h
      · exact tagged_of_nil h
  | _ =>
    exact tagged_of_nil h

theorem Size.tagged_of_checkClass {limit : Nat} (h : checkClass limit c e = .ok issues) :
    Tagged c none issues := by
  cases e with
  | classDef cls =>
    rw [checkClass] at h
    split at h
    · exact tagged_of_plain (fun _ => .line _) h
    · exact tagged_of_nil h
  | _ =>
    exact tagged_of_nil h

theorem Size.tagged_of_checkFile {limit : Nat} (h : checkFile limit c e = .ok issues) :
    Tagged c none issues := by
  cases e with
  | file u =>
    rw [checkFile] at h
    split at h
    · exact tagged_of_plain (fun _ => .line _) h
    · exact tagged_of_nil h
  | _ =>
    exact tagged_of_nil h

end Plain

/-! ## The rule of a fix -/

/-- The rules on console output and on weak cryptography are the only ones with fixes of their modes. -/
theorem exists_tagged {config : Config} {r : Checker} (hr : r ∈ builtinRules config) (c : Context)
    (e : Entity) :
    ∃ mode, Tagged c mode (r.issuesAlone c e) ∧ (mode = some .unitFix → r = ConsoleOutput.rule) ∧
      (mode = some .textPatch → r = WeakCrypto.rule) := by
  have hfound : ∀ {find : Context → Entity → Outcome (List Issue)} {mode : Option FixMode},
      r.check = (fun c e => .ofFound (find c e)) →
      (∀ {issues}, find c e = .ok issues → Tagged c mode issues) →
        Tagged c mode (r.issuesAlone c e) := by
    intro find mode hcheck htagged i hi
    rcases exists_of_mem_issuesAlone hcheck hi with ⟨issues, h, hi⟩
    exact htagged h i hi
  simp only [builtinRules, List.mem_cons, List.not_mem_nil, or_false] at hr
  rcases hr with rfl | rfl | rfl | rfl | rfl | rfl | rfl | rfl
  · exact ⟨_, hfound rfl ConsoleOutput.tagged_of_check, fun _ => rfl, by simp⟩
  · exact ⟨_, hfound rfl WeakCrypto.tagged_of_check, by simp, fun _ => rfl⟩
  · exact ⟨_, hfound rfl HardcodedSecret.tagged_of_check, by simp, by simp⟩
  · exact ⟨_, hfound rfl SqlInjection.tagged_of_check, by simp, by simp⟩
  · exact ⟨_, hfound rfl Size.tagged_of_checkMethod, by simp, by simp⟩
  · exact ⟨_, hfound rfl Size.tagged_of_checkMethod, by simp, by simp⟩
  · exact ⟨_, hfound rfl Size.tagged_of_checkClass, by simp, by simp⟩
  · exact ⟨_, hfound rfl Size.tagged_of_checkFile, by simp, by simp⟩

section Fixes

variable {config : Config} {r : Checker} {c : Context} {e : Entity} {i : Issue}

/-- A built-in rule signs what it reports. -/
theorem ruleId_of_mem (hr : r ∈ builtinRules config) (hi : i ∈ r.issuesAlone c e) :
    i.ruleId = c.ruleId := by
  rcases exists_tagged hr c e with ⟨mode, htagged, -, -⟩
  rcases (htagged i hi).1 with ⟨o, hreports⟩
  exact hreports.line.2

/-- The rule on console output is the only built-in rule that proposes to change the unit. -/
theorem ConsoleOutput.rule_of_mem (hr : r ∈ builtinRules config) (hi : i ∈ r.issuesAlone c e)
    {fix : UnitFix} (hfix : i.fix = some (.unit fix)) : r = ConsoleOutput.rule := by
  rcases exists_tagged hr c e with ⟨mode, htagged, hrule, -⟩
  exact hrule ((htagged i hi).2 _ hfix).symm

/-- The rule on weak cryptography is the only built-in rule that proposes patches. -/
theorem WeakCrypto.rule_of_mem (hr : r ∈ builtinRules config) (hi : i ∈ r.issuesAlone c e)
    {p : Patch} (hp : i.fix = some (.patch p)) : r = WeakCrypto.rule := by
  rcases exists_tagged hr c e with ⟨mode, htagged, -, hrule⟩
  exact hrule ((htagged i hi).2 _ hp).symm

theorem ConsoleOutput.removes_of_mem (hr : r ∈ builtinRules config) (hi : i ∈ r.issuesAlone c e)
    {fix : UnitFix} (hfix : i.fix = some (.unit fix)) :
    ∃ m s call name, e = .statement m s ∧ Removes s call name i := by
  cases rule_of_mem hr hi hfix
  rcases exists_of_mem_issuesAlone rfl hi with ⟨issues, h, hi⟩
  exact removes_of_check h hi hfix

theorem WeakCrypto.proposes_of_mem (hr : r ∈ builtinRules config) (hi : i ∈ r.issuesAlone c e)
    {p : Patch} (hp : i.fix = some (.patch p)) :
    ∃ s x segment replacement offset, e = .expression s x ∧
      Proposes c x p segment replacement offset := by
  cases rule_of_mem hr hi hp
  rcases exists_of_mem_issuesAlone rfl hi with ⟨issues, h, hi⟩
  exact proposes_of_check h hi hp

end Fixes

/-! ## Renamed pieces -/

namespace WeakCrypto

variable {c : Context} {x : Expression} {p : Patch} {segment replacement : String} {offset : Nat}

/-- The name that is put in the place of a weak one. It has a capital letter exactly if the weak one
begins with one. -/
def strongName (weak : List Char) : String :=
  if weak.head?.any Char.isUpper then "Sha256" else "sha256"

theorem matchCase_eq (segment : String) : matchCase segment "sha256" = strongName segment.toList := by
  have hletters : "sha256".toList = 's' :: "ha256".toList := by decide +kernel
  rw [matchCase, hletters, strongName]
  cases segment.toList with
  | nil => rfl
  | cons c cs =>
    by_cases hc : c.isUpper = true
    · simp [hc]
    · simp [hc]

/-- The algorithms with a replacement, and what replaces them. -/
theorem Proposes.known (h : Proposes c x p segment replacement offset) :
    replacement = "sha256" ∧ ∃ weak ∈ ["md5", "md4", "sha1"],
      weak.toList = Text.lowerAscii segment.toList := by
  rcases exists_weak h.weak with ⟨weak, hweak, hletters⟩
  have hknown : ∀ known ∈ algorithms, known.2.all fun name =>
      name == "sha256" && ["md5", "md4", "sha1"].contains known.1 := by decide +kernel
  have hpair := hknown _ hweak
  simp only [Option.all_some, Bool.and_eq_true, beq_iff_eq, List.contains_iff_mem] at hpair
  exact ⟨hpair.1, weak, hpair.2, hletters⟩

/-- Where an expression stands in the source with its text, its patch applies and renames the piece. -/
theorem Proposes.exists_apply (h : Proposes c x p segment replacement offset)
    (htext : x.origin.span.text? c.unit.source = some x.text) :
    ∃ front back : List Char, c.unit.source.toList = front ++ (segment.toList ++ back) ∧
      Text.bytes front = x.origin.span.start + offset ∧ p.apply c.unit.source =
        .ok (.ok (String.ofList (front ++ ((matchCase segment replacement).toList ++ back)))) := by
  rcases Span.text?_eq_some_iff.1 htext with ⟨front, back, hsource, hstart, -⟩
  rcases Text.occursAt_of_find? h.found with ⟨before, behind, hparts, hoffset⟩
  have hsegment : c.unit.source.toList =
      (front ++ before) ++ (segment.toList ++ (behind ++ back)) := by
    rw [hsource, hparts]
    simp
  have hbytes : Text.bytes (front ++ before) = x.origin.span.start + offset := by
    rw [Text.bytes_append, hstart, hoffset]
  have hslice := sliceBytes?_eq hsegment
  rw [hbytes, ← byteLength_eq_bytes] at hslice
  rcases p with ⟨description, edits⟩
  cases h.edits
  refine ⟨_, _, hsegment, hbytes, Patch.apply_singleton_iff.2 ⟨_, _, _, hsegment, hbytes, ?_, ?_, rfl⟩⟩
  · rw [hbytes, ← byteLength_eq_bytes]
    rfl
  · rw [renameEdit, Span.text?, hslice, Option.getD_some]

end WeakCrypto

end LintMend
