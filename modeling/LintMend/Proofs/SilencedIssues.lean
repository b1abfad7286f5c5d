import LintMend.Directive
import LintMend.Proofs.DefectColumns
import LintMend.Proofs.SourceLines

/-!
# Silenced issues

A directive acts on lines, and an issue knows its line from the byte at which its origin begins. The
two counts of lines agree on every byte of the source. So an issue is dropped exactly if a directive
for the whole file stands somewhere in the source, or a directive for its rule on the line right above
its byte. The issues that stay are as they were, in the same order.
-/

namespace LintMend

open Text (OnLine cutLines lineText)

/-! ## The issues of a place -/

/-- The defects that a checker can build for an origin. -/
inductive Context.Finds (c : Context) (o : Origin) (d : Defect) : Prop
  | line (description : String) (h : c.defect o description = .ok d)
  | token (token description : String) (h : c.defectAt o token description = .ok d)

/-- The issues that a checker can build for an origin, with a fix or without. -/
inductive Context.Reports (c : Context) (o : Origin) : Issue → Prop
  | plain {d : Defect} (h : c.Finds o d) : Reports c o ⟨d, none⟩
  | fixable {d : Defect} (h : c.Finds o d) (key : Option String) (fix : Fix) :
    Reports c o (.withFix d key fix)

namespace Context

variable {c : Context} {o : Origin}

theorem Finds.startLine {d : Defect} (h : c.Finds o d) :
    d.startLine = lineOf o.line ∧ d.ruleId = c.ruleId := by
  cases h with
  | line description h =>
    rw [defect_eq_buildAt] at h
    rw [eq_build_of_buildAt h]
    exact ⟨rfl, rfl⟩
  | token token description h =>
    rw [defectAt_eq_buildAt] at h
    rw [eq_build_of_buildAt h]
    exact ⟨rfl, rfl⟩

theorem Reports.line {i : Issue} (h : c.Reports o i) :
    i.line = lineOf o.line ∧ i.ruleId = c.ruleId := by
  cases h with
  | plain h => exact h.startLine
  | fixable h key fix => exact h.startLine

theorem exists_buildAt {start width : Nat} (h : o.column + width < wordLimit) (description : String) :
    ∃ d, c.buildAt o start width description = .ok d := by
  rw [buildAt, if_pos h]
  exact ⟨_, rfl⟩

end Context

/-- The origin of a byte of the source. -/
theorem Text.OnLine.origin {source : String} {span : Span} {above : List (List Char)}
    {line : List Char} (h : OnLine source.toList span.start above line) :
    (LineIndex.ofText source).origin span =
      ⟨above.length + 1, span.start - bytes above.flatten + 1, span⟩ := by
  rw [LineIndex.origin, h.position]

/-! ## What directives silence -/

namespace Markers

/-- A directive in the text silences the rule at a byte: the file marker stands on some line, or the
next-line marker and the id of the rule stand on the line right above the byte. -/
inductive Silences (m : Markers) (ruleId : String) (cs : List Char) (offset : Nat) : Prop
  | file {line : List Char} (h : line ∈ cutLines cs) (hmarker : m.file.toList <:+: lineText line)
  | nextLine {above : List (List Char)} {previous line : List Char}
    (h : OnLine cs offset (above ++ [previous]) line)
    (hmarker : m.nextLine.toList <:+: lineText previous)
    (hrule : ruleId.toList <:+: lineText previous)

variable {m : Markers}

theorem hasText_ofList {cs : List Char} {needle : String} :
    hasText (String.ofList cs) needle = true ↔ needle.toList <:+: cs := by
  rw [hasText, String.toList_ofList, Text.contains_iff]

theorem marks_iff {marker : String} (h : marker ≠ "") {cs : List Char} :
    marks marker (String.ofList cs) = true ↔ marker.toList <:+: cs := by
  rw [marks, Bool.and_eq_true, bne_iff_ne, hasText_ofList]
  exact and_iff_right h

theorem lines_eq_map (u : ProgramUnit) :
    u.lines = (cutLines u.source.toList).map fun line => String.ofList (lineText line) :=
  Text.textLines_eq_map u.source

/-- The line of a byte is a line of the unit. -/
theorem length_lt_lines {u : ProgramUnit} {offset : Nat} {above : List (List Char)} {line : List Char}
    (h : OnLine u.source.toList offset above line) : above.length < u.lines.length := by
  rcases h.cut with ⟨below, hcut⟩
  rw [lines_eq_map, List.length_map, hcut, List.length_append, List.length_cons]
  omega

theorem silencesFile_iff (h : m.file ≠ "") (u : ProgramUnit) :
    m.silencesFile u.lines = true ↔
      ∃ line ∈ cutLines u.source.toList, m.file.toList <:+: lineText line := by
  rw [silencesFile, lines_eq_map, List.any_map, List.any_eq_true]
  simp only [Function.comp_apply, marks_iff h]

/-- The directive that acts on a byte is the one on the line right above it. -/
theorem silencesLine_iff (h : m.nextLine ≠ "") {u : ProgramUnit} {offset : Nat}
    {above : List (List Char)} {line : List Char} (hline : OnLine u.source.toList offset above line)
    (ruleId : String) :
    m.silencesLine u.lines ruleId (above.length + 1) = true ↔
      ∃ front previous, above = front ++ [previous] ∧ m.nextLine.toList <:+: lineText previous ∧
        ruleId.toList <:+: lineText previous := by
  cases List.eq_nil_or_concat' above with
  | inl hnil =>
    rw [hnil]
    simp [silencesLine]
  | inr hconcat =>
    rcases hconcat with ⟨front, previous, rfl⟩
    rcases hline.cut with ⟨below, hcut⟩
    have hprevious : u.lines[front.length]? = some (String.ofList (lineText previous)) := by
      rw [lines_eq_map, hcut]
      simp
    rw [List.length_append, List.length_singleton, silencesLine, hprevious]
    simp only [Bool.and_eq_true, marks_iff h, hasText_ofList]
    constructor
    · intro hboth
      exact ⟨front, previous, rfl, hboth⟩
    · rintro ⟨front', previous', hsame, hboth⟩
      have hpiece : previous = previous' := List.singleton_inj.1 (List.append_inj' hsame rfl).2
      rwa [hpiece]

/-- Filtering looks at each issue by itself. -/
theorem filter_eq_filter (lines : List String) (issues : List Issue) :
    m.filter lines issues = issues.filter fun i => !m.silencesFile lines && m.keeps lines i := by
  rw [filter]
  cases m.silencesFile lines with
  | true => simp
  | false => simp

/-- An issue whose line is a line of the source is kept unless its rule is silenced there. -/
theorem keeps_of_line {lines : List String} {i : Issue} {n : Nat} (hline : i.line = n)
    (hpos : 0 < n) (hle : n ≤ lines.length) :
    m.keeps lines i = !m.silencesLine lines i.ruleId n := by
  rw [keeps, hline]
  simp [hpos, hle]

/-- An issue of a byte of the source is dropped exactly if a directive silences its rule there. -/
theorem keeps_eq_false_iff (hfile : m.file ≠ "") (hnext : m.nextLine ≠ "") {u : ProgramUnit}
    {offset : Nat} {above : List (List Char)} {line : List Char}
    (hline : OnLine u.source.toList offset above line) {i : Issue}
    (hi : i.line = (above.length + 1 : Nat)) :
    (!m.silencesFile u.lines && m.keeps u.lines i) = false ↔
      m.Silences i.ruleId u.source.toList offset := by
  rw [keeps_of_line hi (Nat.succ_pos _) (length_lt_lines hline), ← Bool.not_or,
    Bool.not_eq_false', Bool.or_eq_true, silencesFile_iff hfile, silencesLine_iff hnext hline]
  constructor
  · rintro (⟨l, hl, hmarker⟩ | ⟨front, previous, rfl, hmarker, hrule⟩)
    · exact .file hl hmarker
    · exact .nextLine hline hmarker hrule
  · intro h
    cases h with
    | file hl hmarker => exact .inl ⟨_, hl, hmarker⟩
    | nextLine hl hmarker hrule => exact .inr ⟨_, _, (hline.unique hl).1, hmarker, hrule⟩

/-- As long as texts stay below the limit of the machine, an issue of a byte of the source is dropped
exactly if a directive silences its rule at that byte. It is always possible to build one. -/
theorem filter_iff_silences (m : Markers) (hfile : m.file ≠ "") (hnext : m.nextLine ≠ "")
    (u : ProgramUnit) (hmachine : byteLength u.source < signedLimit) :
    ∃ keeps : Issue → Bool, (∀ issues, m.filter u.lines issues = issues.filter keeps) ∧
      ∀ (c : Context) (span : Span), c.unit = u → span.start < byteLength u.source →
        let o := (LineIndex.ofText u.source).origin span
        (∀ description, ∃ d, c.defect o description = .ok d) ∧
          (∀ token description, byteLength token < signedLimit →
            ∃ d, c.defectAt o token description = .ok d) ∧
          ∀ i, c.Reports o i →
            (∃ n : Nat, i.line = n ∧ 1 ≤ n ∧ n ≤ u.lines.length) ∧
              (keeps i = false ↔ m.Silences c.ruleId u.source.toList span.start) := by
  refine ⟨_, filter_eq_filter u.lines, ?_⟩
  rintro c span rfl hspan
  rcases Text.exists_onLine (byteLength_eq_bytes _ ▸ hspan) with ⟨above, line, hline⟩
  have hlines : above.length < c.unit.lines.length := length_lt_lines hline
  have hbelow : above.length + 1 < signedLimit :=
    calc above.length + 1 ≤ c.unit.lines.length := hlines
      _ = (cutLines c.unit.source.toList).length := by rw [lines_eq_map, List.length_map]
      _ ≤ Text.bytes c.unit.source.toList := Text.length_cutLines_le _
      _ = byteLength c.unit.source := (byteLength_eq_bytes _).symm
      _ < signedLimit := hmachine
  rw [hline.origin]
  refine ⟨?_, ?_, ?_⟩
  · intro description
    have hwidth := byteLength_originLine_le c.unit ⟨above.length + 1,
      span.start - Text.bytes above.flatten + 1, span⟩
    rw [Context.defect_eq_buildAt]
    apply Context.exists_buildAt
    simp only [signedLimit, wordLimit] at *
    omega
  · intro token description htoken
    have hwidth := c.tokenOffset_add_le ⟨above.length + 1,
      span.start - Text.bytes above.flatten + 1, span⟩ token
    rw [Context.defectAt_eq_buildAt]
    apply Context.exists_buildAt
    simp only [signedLimit, wordLimit] at *
    omega
  · intro i hi
    have hi' : i.line = (above.length + 1 : Nat) := by
      rw [hi.line.1, Context.lineOf, if_pos hbelow]
    refine ⟨⟨above.length + 1, hi', Nat.succ_pos _, hlines⟩, ?_⟩
    rw [← hi.line.2]
    exact keeps_eq_false_iff hfile hnext hline hi'

/-- A unit whose last line has no end and stands below a directive. -/
def quietUnit : ProgramUnit where
  name := "a.rs"
  path := "a.rs"
  source := "a();\r\n// checkfix-disable-next-line console-output\r\nprint()"

def quietContext : Context := ⟨quietUnit, "console-output", .info, "docs/rules/console-output.md"⟩

theorem filter_iff_silences_quiet :
    ({} : Markers).file ≠ "" ∧ ({} : Markers).nextLine ≠ "" ∧
      byteLength quietUnit.source < signedLimit ∧ 52 < byteLength quietUnit.source ∧
      ∃ d, quietContext.defect ((LineIndex.ofText quietUnit.source).origin ⟨52, 59⟩) "" = .ok d ∧
        d.startLine = 3 ∧ ({} : Markers).filter quietUnit.lines [⟨d, none⟩] = [] := by
  have hfile : ({} : Markers).file ≠ "" := by decide
  have hnext : ({} : Markers).nextLine ≠ "" := by decide
  have hmachine : byteLength quietUnit.source < signedLimit := by decide +kernel
  have hspan : 52 < byteLength quietUnit.source := by decide +kernel
  have hline : OnLine quietUnit.source.toList 52 (["a();\r\n".toList] ++
      ["// checkfix-disable-next-line console-output\r\n".toList]) "print()".toList :=
    ⟨⟨[], by decide +kernel⟩, by decide +kernel, by decide +kernel⟩
  rcases filter_iff_silences {} hfile hnext quietUnit hmachine with ⟨keeps, hfilter, hplaces⟩
  rcases hplaces quietContext ⟨52, 59⟩ rfl hspan with ⟨hdefect, -, hreports⟩
  rcases hdefect "" with ⟨d, hd⟩
  have hi := hreports ⟨d, none⟩ (.plain (.line "" hd))
  have hdrop : keeps ⟨d, none⟩ = false :=
    hi.2.2 (.nextLine hline (by decide +kernel) (by decide +kernel))
  refine ⟨hfile, hnext, hmachine, hspan, d, hd, ?_, ?_⟩
  · rw [(Context.Finds.line "" hd).startLine.1, hline.origin]
    rfl
  · rw [hfilter]
    simp [hdrop]

end Markers

end LintMend
