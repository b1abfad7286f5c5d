import LintMend.Proofs.ProposedFixes
import LintMend.Proofs.RepairConservation

/-!
# Patched findings

In a run that applies patches, what can be fixed are weak names. The patch of the first of them
always applies: the piece that it renames was found in the text of an expression, and that text
stands in the source. So the first one is fixed, and no issue is tried in vain.
-/

namespace LintMend

/-! ## One patch -/

namespace WeakCrypto

/-- The patch has one edit, and the part of the source that it covers names a weak algorithm. -/
structure Renames (source : String) (p : Patch) (front part back : List Char) : Prop where
  source : source.toList = front ++ (part ++ back)
  weak : ∃ weak ∈ ["md5", "md4", "sha1"], Text.lowerAscii part = weak.toList
  edits : ∃ edit, p.edits = [edit] ∧
    edit.span = ⟨Text.bytes front, Text.bytes front + Text.bytes part⟩

/-- Where an expression stands in the source with its text, its patch renames a part of the source. -/
theorem Proposes.exists_renames {c : Context} {x : Expression} {p : Patch}
    {segment replacement : String} {offset : Nat} (h : Proposes c x p segment replacement offset)
    (htext : x.origin.span.text? c.unit.source = some x.text) :
    ∃ front part back, Renames c.unit.source p front part back ∧ p.apply c.unit.source =
      .ok (.ok (String.ofList (front ++ ((strongName part).toList ++ back)))) := by
  rcases h.exists_apply htext with ⟨front, back, hsource, hstart, happly⟩
  rcases h.known with ⟨rfl, weak, hweak, hletters⟩
  rw [matchCase_eq] at happly
  refine ⟨front, segment.toList, back, ⟨hsource, ⟨weak, hweak, hletters.symm⟩, _, h.edits, ?_⟩, happly⟩
  rw [renameEdit, hstart, byteLength_eq_bytes]

end WeakCrypto

/-! ## Repairs -/

namespace Engine

variable {e : Engine} {disk : Disk} {u : ProgramUnit}

theorem exists_first_candidate {issues : List Issue} (h : ∃ i ∈ issues, e.Candidate i) :
    ∃ before i after, issues = before ++ i :: after ∧ (∀ j ∈ before, ¬ e.Candidate j) ∧
      e.Candidate i := by
  have hsome : (issues.find? e.isCandidate).isSome = true := by
    rw [List.find?_isSome]
    rcases h with ⟨i, hi, hcandidate⟩
    exact ⟨i, hi, isCandidate_iff.2 hcandidate⟩
  rcases Option.isSome_iff_exists.1 hsome with ⟨i, hfind⟩
  rcases List.find?_eq_some_iff_append.1 hfind with ⟨hcandidate, before, after, hissues, hbefore⟩
  refine ⟨before, i, after, hissues, ?_, isCandidate_iff.1 hcandidate⟩
  intro j hj hother
  have hnot := hbefore j hj
  rw [isCandidate_iff.2 hother] at hnot
  cases hnot

/-- In a run that applies patches, what can be fixed are weak names. -/
theorem Candidate.exists_proposes {config : Config} {i : Issue} (h : e.Candidate i)
    (hmode : e.strategy.mode = .textPatch) (hi : i ∈ ((Run.ofConfig config).check u).issues) :
    i.ruleId = "weak-crypto" ∧ ∃ c x p segment replacement offset, c.unit = u ∧
      (∃ s ∈ u.statements, x ∈ s.expressions) ∧ i.fix = some (.patch p) ∧
      WeakCrypto.Proposes c x p segment replacement offset := by
  rcases h.2 with ⟨fix, hfix, hfixMode⟩
  rcases mem_builtin_of_mem_issues hi with ⟨r, hr, entity, hentity, hfound⟩
  cases fix with
  | patch p =>
    cases WeakCrypto.rule_of_mem hr hfound hfix
    rcases WeakCrypto.proposes_of_mem hr hfound hfix with
      ⟨s, x, segment, replacement, offset, rfl, hproposes⟩
    exact ⟨ruleId_of_mem hr hfound, _, x, p, segment, replacement, offset, rfl,
      ⟨s, Entity.in_of_mem_walk hentity⟩, hfix, hproposes⟩
  | unit fix => cases hfixMode.trans hmode
  | suggestion hint => cases hfixMode.trans hmode

theorem attempt_of_apply {i : Issue} {p : Patch} {text : String} (hmode : e.strategy.mode = .textPatch)
    (hp : i.fix = some (.patch p)) (h : p.apply u.source = .ok (.ok text)) :
    e.strategy.attempt u i = .ok (.ok ⟨text, none⟩) := by
  rw [Strategy.attempt, hmode, hp]
  simp only [Strategy.attemptPatch, h]
  rfl

/-- The first issue that can be patched is patched. It names a weak algorithm in one part of the
source, and what is written is the source with another name in the place of this part. -/
theorem repair_patches_first (config : Config) (hmode : e.strategy.mode = .textPatch)
    (htexts : ∀ s ∈ u.statements, ∀ x ∈ s.expressions, x.origin.span.text? u.source = some x.text)
    (hwritable : e.output.Writable disk u)
    (hsome : ∃ i ∈ ((Run.ofConfig config).check u).issues, e.Candidate i) :
    ∃ before i after p front part back disk',
      ((Run.ofConfig config).check u).issues = before ++ i :: after ∧
      (∀ j ∈ before, ¬ e.Candidate j) ∧ e.Candidate i ∧ i.ruleId = "weak-crypto" ∧
      i.fix = some (.patch p) ∧ WeakCrypto.Renames u.source p front part back ∧
      let text := String.ofList (front ++ ((WeakCrypto.strongName part).toList ++ back))
      e.strategy.attempt u i = .ok (.ok ⟨text, none⟩) ∧
      e.repair disk u ((Run.ofConfig config).check u).issues =
        .ok (disk', u,
          { remaining := before ++ after, applied := some i,
            outputPath := some (e.output.artifactPath u) }) ∧
      disk'.read (e.output.artifactPath u) = .ok text.toUTF8 := by
  rcases exists_first_candidate hsome with ⟨before, i, after, hissues, hbefore, hcandidate⟩
  have hi : i ∈ ((Run.ofConfig config).check u).issues := by simp [hissues]
  rcases hcandidate.exists_proposes hmode hi with
    ⟨hrule, c, x, p, segment, replacement, offset, rfl, ⟨s, hs, hx⟩, hp, hproposes⟩
  rcases hproposes.exists_renames (htexts s hs x hx) with ⟨front, part, back, hrenames, happly⟩
  have hattempt := attempt_of_apply hmode hp happly
  have hsucceeds : e.Succeeds disk c.unit i _ := ⟨hcandidate, hattempt, _, hwritable _⟩
  have hpasses : ∀ j ∈ before, e.Passes disk c.unit j := fun j hj =>
    passes_of_not_candidate (hbefore j hj)
  have hfixed : i.markFixed = i := by
    rw [Issue.markFixed, hp]
  refine ⟨before, i, after, p, front, part, back, _, hissues, hbefore, hcandidate, hrule, hp, hrenames,
    hattempt, ?_, (OutputDir.read_of_write (hwritable _)).2⟩
  rw [hissues, repair_of_succeeds hpasses hsucceeds, hfixed]
  rfl

/-- Patches that are written to the root of the disk. -/
def textPatches : Engine := ⟨{ mode := .textPatch }, ⟨"/"⟩⟩

/-- A unit with console output, which no patch can fix, and with a weak call behind it. -/
def weakUnit : ProgramUnit where
  name := "m"
  path := "m.rs"
  source := "fn f() \x7b print!(\"é\"); \x7d\nfn g() \x7b Md5::new(b); \x7d\n"
  classes := [⟨"c", none,
    [⟨"f", some ⟨1, 1, ⟨0, 24⟩⟩, ⟨[⟨0, [⟨0, ⟨1, 10, ⟨9, 22⟩⟩, "print!(\"é\");",
      [⟨.expansion, some "print", "print!(\"é\")", ⟨1, 10, ⟨9, 21⟩⟩⟩], none⟩]⟩], []⟩⟩,
     ⟨"g", some ⟨2, 1, ⟨25, 48⟩⟩, ⟨[⟨0, [⟨1, ⟨2, 10, ⟨34, 46⟩⟩, "Md5::new(b);",
      [⟨.call, some "Md5::new", "Md5::new(b)", ⟨2, 10, ⟨34, 45⟩⟩⟩], none⟩]⟩], []⟩⟩]⟩]

theorem repair_patches_first_weakUnit :
    textPatches.strategy.mode = .textPatch ∧
      (∀ s ∈ weakUnit.statements, ∀ x ∈ s.expressions,
        x.origin.span.text? weakUnit.source = some x.text) ∧
      textPatches.output.Writable {} weakUnit ∧
      (∃ i ∈ ((Run.ofConfig {}).check weakUnit).issues, textPatches.Candidate i) ∧
      ∃ before i after p front part back disk',
        ((Run.ofConfig {}).check weakUnit).issues = before ++ i :: after ∧
        WeakCrypto.Renames weakUnit.source p front part back ∧ i.fix = some (.patch p) ∧
        textPatches.repair {} weakUnit ((Run.ofConfig {}).check weakUnit).issues =
          .ok (disk', weakUnit,
            { remaining := before ++ after, applied := some i,
              outputPath := some (textPatches.output.artifactPath weakUnit) }) ∧
        disk'.read (textPatches.output.artifactPath weakUnit) =
          .ok (String.ofList (front ++ ((WeakCrypto.strongName part).toList ++ back))).toUTF8 := by
  have htexts : ∀ s ∈ weakUnit.statements, ∀ x ∈ s.expressions,
      x.origin.span.text? weakUnit.source = some x.text := by decide +kernel
  have hwritable : textPatches.output.Writable {} weakUnit := OutputDir.writable_root rfl
  have hany : ((Run.ofConfig {}).check weakUnit).issues.any textPatches.isCandidate = true := by
    decide +kernel
  have hsome : ∃ i ∈ ((Run.ofConfig {}).check weakUnit).issues, textPatches.Candidate i := by
    rcases List.any_eq_true.1 hany with ⟨i, hi, hcandidate⟩
    exact ⟨i, hi, isCandidate_iff.1 hcandidate⟩
  rcases repair_patches_first {} rfl htexts hwritable hsome with
    ⟨before, i, after, p, front, part, back, disk', hissues, -, -, -, hp, hrenames, -, hrepair, hread⟩
  exact ⟨rfl, htexts, hwritable, hsome, before, i, after, p, front, part, back, disk', hissues,
    hrenames, hp, hrepair, hread⟩

end Engine

end LintMend
