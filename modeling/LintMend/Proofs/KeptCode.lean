import LintMend.Proofs.LinePositions
import LintMend.Proofs.SplicerAgreement

/-!
# What printing keeps

A statement that is removed takes the white space on its lines with it if nothing else stands on them,
and one newline at most. So a printed unit and the source with nothing but the spans of its edited
statements replaced are the same but for white space. The comparison pairs each range that printing
replaces with the span inside of it, and runs through both texts at once.
-/

namespace LintMend

/-! ## Texts without their white space -/

/-- What is left of a text without its white space. -/
def Text.visible (cs : List Char) : List Char := cs.filter (!isBlank ·)

@[simp] theorem Text.visible_append (xs ys : List Char) :
    visible (xs ++ ys) = visible xs ++ visible ys := List.filter_append ..

theorem Text.visible_eq_nil {cs : List Char} (h : allBlank cs = true) : visible cs = [] := by
  rw [visible, List.filter_eq_nil_iff]
  intro c hc
  simp [List.all_eq_true.1 h c hc]

theorem Text.allBlank_append (xs ys : List Char) :
    allBlank (xs ++ ys) = (allBlank xs && allBlank ys) := List.all_append

/-- The second range is the first one with white space on both sides, and gets the same text. -/
structure Pads (source : String) (narrow wide : Span × String) : Prop where
  text : narrow.2 = wide.2
  parts : ∃ front before part after back : List Char,
    source.toList = front ++ (before ++ (part ++ (after ++ back))) ∧
      Text.allBlank before = true ∧ Text.allBlank after = true ∧
      Text.bytes front = wide.1.start ∧ Text.bytes (front ++ before) = narrow.1.start ∧
      Text.bytes (front ++ (before ++ part)) = narrow.1.stop ∧
      Text.bytes (front ++ (before ++ (part ++ after))) = wide.1.stop

theorem Pads.inside {source : String} {narrow wide : Span × String} (h : Pads source narrow wide) :
    wide.1.start ≤ narrow.1.start ∧ narrow.1.stop ≤ wide.1.stop := by
  obtain ⟨front, before, part, after, back, -, -, -, hstart, hstart', hstop, hstop'⟩ := h.parts
  simp only [Text.bytes_append] at *
  omega

theorem weave_cons {source tail : String} {front gap back : List Char} {r : Span × String}
    {rest : List (Span × String)} (hsource : source.toList = front ++ (gap ++ back))
    (hstart : Text.bytes (front ++ gap) = r.1.start) (htail : weave source r.1.stop rest = some tail) :
    weave source (Text.bytes front) (r :: rest) = some (String.ofList gap ++ r.2 ++ tail) := by
  have hgap := sliceBytes?_eq hsource
  rw [← Text.bytes_append, hstart] at hgap
  simp [weave, hgap, htail]

/-- Ranges replaced with and without the white space around them leave the same visible text. The wide
ranges are woven from a place that is ahead by white space only. -/
theorem exists_weave_visible {α : Type} {source : String} {narrow wide : α → Span × String}
    {ps : List α} {front blank back : List Char} (hsource : source.toList = front ++ (blank ++ back))
    (hblank : Text.allBlank blank = true) (hpads : ∀ p ∈ ps, Pads source (narrow p) (wide p))
    (hafter : ∀ p ∈ ps, Text.bytes (front ++ blank) ≤ (wide p).1.start)
    (hapart : Apart (ps.map wide)) :
    ∃ plain text, weave source (Text.bytes front) (ps.map narrow) = some plain ∧
      weave source (Text.bytes (front ++ blank)) (ps.map wide) = some text ∧
        Text.visible text.toList = Text.visible plain.toList := by
  induction ps generalizing front blank back with
  | nil =>
    have hwide : source.toList = (front ++ blank) ++ back := by simp [hsource]
    refine ⟨_, _, sliceBytes?_byteLength hsource, sliceBytes?_byteLength hwide, ?_⟩
    simp [Text.visible_eq_nil hblank]
  | cons p ps ih =>
    rw [List.forall_mem_cons] at hpads hafter
    obtain ⟨hstops, hapart⟩ := List.pairwise_cons.1 hapart
    obtain ⟨htext, upto, before, part, behind, rest, hparts, hbefore, hbehind, hwstart, hnstart,
      hnstop, hwstop⟩ := hpads.1
    have hboth : (front ++ blank) ++ back = upto ++ (before ++ (part ++ (behind ++ rest))) := by
      rw [← hparts, hsource, List.append_assoc]
    obtain ⟨gap, rfl, -⟩ := Text.exists_between hboth (hwstart ▸ hafter.1)
    -- The next ranges are woven from behind this one, with or without the white space there.
    have hnext : source.toList =
        (front ++ blank ++ gap ++ (before ++ part)) ++ (behind ++ rest) := by simp [hparts]
    have hwstop' : Text.bytes (front ++ blank ++ gap ++ (before ++ part) ++ behind) =
        (wide p).1.stop := by simpa using hwstop
    obtain ⟨plain, text, hplain, hwoven, hvisible⟩ := ih hnext hbehind hpads.2
      (fun q hq => hwstop' ▸ hstops _ (List.mem_map_of_mem hq)) hapart
    rw [hnstop] at hplain
    rw [hwstop'] at hwoven
    have hnarrow : source.toList =
        front ++ ((blank ++ (gap ++ before)) ++ (part ++ (behind ++ rest))) := by simp [hparts]
    have hwide : source.toList =
        (front ++ blank) ++ (gap ++ (before ++ (part ++ (behind ++ rest)))) := by simp [hparts]
    refine ⟨_, _, weave_cons hnarrow (by simpa using hnstart) hplain,
      weave_cons hwide hwstart hwoven, ?_⟩
    simp [hvisible, htext, Text.visible_eq_nil hblank, Text.visible_eq_nil hbefore]

/-- Ranges that are not empty can be woven into a source in one way only. -/
theorem IsSplice.unique {source text text' : String} {ranges : List (Span × String)}
    (h : IsSplice source ranges text) (h' : IsSplice source ranges text')
    (hwide : ∀ r ∈ ranges, r.1.start < r.1.stop) : text = text' := by
  obtain ⟨ordered, hperm, hapart, hwoven⟩ := h
  obtain ⟨ordered', hperm', hapart', hwoven'⟩ := h'
  have hsame : ordered = ordered' := by
    refine List.Perm.eq_of_pairwise ?_ hapart hapart' (hperm.trans hperm'.symm)
    intro a b ha hb hab hba
    have ha' := hwide a (hperm.mem_iff.1 ha)
    have hb' := hwide b (hperm'.mem_iff.1 hb)
    omega
  rw [hsame, hwoven'] at hwoven
  exact (Option.some.inj hwoven).symm

/-! ## Spans in their lines -/

/-- A newline stands right before the offset. -/
def afterNewline (source : String) (offset : Nat) : Bool :=
  (Span.mk (offset - 1) offset).text? source == some "\n"

theorem text?_of_append {source : String} {front part back : List Char}
    (h : source.toList = front ++ (part ++ back)) :
    (Span.mk (Text.bytes front) (Text.bytes (front ++ part))).text? source =
      some (String.ofList part) :=
  Span.text?_eq_some_iff.2 ⟨front, back, by simpa using h, rfl, by simp⟩

theorem afterNewline_of_append {source : String} {front back : List Char}
    (h : source.toList = front ++ (['\n'] ++ back)) :
    afterNewline source (Text.bytes (front ++ ['\n'])) = true := by
  have hnewline : Text.bytes (front ++ ['\n']) - 1 = Text.bytes front := by
    rw [Text.bytes_append]
    rfl
  rw [afterNewline, hnewline, text?_of_append h]
  rfl

/-- A span in its lines: the lines above, what stands before the span on the line where it starts, the
text of the span, what stands behind it on the line where it stops, and the rest, which begins with a
newline. -/
structure Surroundings (source : String) (span : Span) where
  above : List Char
  lead : List Char
  part : List Char
  trail : List Char
  below : List Char
  source_eq : source.toList = above ++ (lead ++ (part ++ (trail ++ below)))
  start_eq : Text.bytes (above ++ lead) = span.start
  stop_eq : Text.bytes (above ++ (lead ++ part)) = span.stop
  above_ended : above = [] ∨ ∃ xs, above = xs ++ ['\n']
  lead_unbroken : '\n' ∉ lead
  trail_unbroken : '\n' ∉ trail
  below_begins : below = [] ∨ ∃ xs, below = '\n' :: xs

namespace Surroundings

variable {source : String} {span : Span}

theorem nonempty_of_fits (h : span.fits source = true) : Nonempty (Surroundings source span) := by
  obtain ⟨front, part, back, hsource, hstart, hstop⟩ := Span.fits_iff.1 h
  obtain ⟨above, lead, rfl, hlines⟩ := Text.exists_dividesLine front []
  have hback := back.takeWhile_append_dropWhile (p := (· != '\n'))
  refine ⟨above, lead, part, back.takeWhile (· != '\n'), back.dropWhile (· != '\n'), ?_, hstart, ?_,
    hlines.ended, hlines.part, ?_, ?_⟩
  · rw [hback, hsource, List.append_assoc]
  · rw [← List.append_assoc, Text.bytes_append, hstop]
  · intro hmem
    simpa using List.mem_takeWhile_imp hmem
  · cases hrest : back.dropWhile (· != '\n') with
    | nil => exact .inl rfl
    | cons c rest =>
      have hhead := List.head_dropWhile_not (· != '\n') (l := back) (by simp [hrest])
      exact .inr ⟨rest, by simpa [hrest] using hhead⟩

theorem takeWhile_trail (a : Surroundings source span) :
    (a.trail ++ a.below).takeWhile (· != '\n') = a.trail ∧
      (a.trail ++ a.below).dropWhile (· != '\n') = a.below := by
  have hall : ∀ c ∈ a.trail, (c != '\n') = true := by
    intro c hc
    rw [bne_iff_ne]
    exact fun heq => a.trail_unbroken (heq ▸ hc)
  rw [List.takeWhile_append_of_pos hall, List.dropWhile_append_of_pos hall]
  rcases a.below_begins with hnil | ⟨xs, hnewline⟩
  · simp [hnil]
  · simp [hnewline]

/-- The span is widened up to the lines above and over the newline behind it, if nothing but white
space shares its lines. -/
theorem ownedLines_eq (a : Surroundings source span) :
    Printer.ownedLines source span =
      if Text.allBlank (a.lead ++ a.trail) then
        ⟨Text.bytes a.above, Text.bytes (a.above ++ (a.lead ++ (a.part ++ (a.trail ++ a.below.take 1))))⟩
      else span := by
  have hsource : source.toList = (a.above ++ a.lead) ++ (a.part ++ (a.trail ++ a.below)) := by
    rw [a.source_eq, List.append_assoc]
  have hstop : Text.bytes (a.above ++ a.lead) + Text.bytes a.part = span.stop := by
    rw [← Text.bytes_append, List.append_assoc, a.stop_eq]
  have hlast := Printer.lastLine_append a.above_ended a.lead_unbroken
  have hnewline : (if a.below.isEmpty then 0 else 1) = Text.bytes (a.below.take 1) := by
    rcases a.below_begins with hnil | ⟨xs, hcons⟩
    · rw [hnil]
      rfl
    · rw [hcons]
      rfl
  have hfirst : span.start - Text.bytes a.lead = Text.bytes a.above := by
    rw [← a.start_eq, Text.bytes_append, Nat.add_sub_cancel]
  have hend : span.stop + Text.bytes a.trail + Text.bytes (a.below.take 1) =
      Text.bytes (a.above ++ (a.lead ++ (a.part ++ (a.trail ++ a.below.take 1)))) := by
    simp only [← a.stop_eq, Text.bytes_append, Nat.add_assoc]
  rw [Printer.ownedLines_of_append hsource a.start_eq hstop, a.takeWhile_trail.1, a.takeWhile_trail.2,
    hlast, hnewline, Text.allBlank_append, hfirst, hend]

/-- The range is the span with nothing but white space added: no newline before it and at most one
behind it. It is the span itself if there is something else on the lines of the span. Otherwise it
begins with a line, and it ends behind a newline or with the source. -/
structure Widens (a : Surroundings source span) (range : Span) : Prop where
  start_le : range.start ≤ span.start
  le_stop : span.stop ≤ range.stop
  before : ∃ before, (Span.mk range.start span.start).text? source = some before ∧
    isBlankText before = true ∧ '\n' ∉ before.toList
  behind : ∃ behind, (Span.mk span.stop range.stop).text? source = some behind ∧
    isBlankText behind = true ∧ behind.toList.count '\n' ≤ 1
  shared : (∃ c ∈ a.lead ++ a.trail, Text.isBlank c = false) → range = span
  alone : (∀ c ∈ a.lead ++ a.trail, Text.isBlank c = true) →
    (range.start = 0 ∨ afterNewline source range.start = true) ∧
      (afterNewline source range.stop = true ∨ range.stop = byteLength source)

/-- On lines that the span shares with other text, nothing is added. -/
theorem widens_self (a : Surroundings source span) (h : Text.allBlank (a.lead ++ a.trail) = false) :
    a.Widens span where
  start_le := le_rfl
  le_stop := le_rfl
  before := by
    have hparts : source.toList = (a.above ++ a.lead) ++ ([] ++ (a.part ++ (a.trail ++ a.below))) := by
      simp [a.source_eq]
    have htext := text?_of_append hparts
    rw [List.append_nil, a.start_eq] at htext
    exact ⟨_, htext, rfl, by simp⟩
  behind := by
    have hparts : source.toList = (a.above ++ (a.lead ++ a.part)) ++ ([] ++ (a.trail ++ a.below)) := by
      simp [a.source_eq]
    have htext := text?_of_append hparts
    rw [List.append_nil, a.stop_eq] at htext
    exact ⟨_, htext, rfl, by simp⟩
  shared _ := rfl
  alone hall := absurd (List.all_eq_true.2 hall) (Bool.eq_false_iff.1 h)

/-- On lines that the span has for itself, the white space around it is added, and the newline. -/
theorem widens_lines (a : Surroundings source span)
    (h : Text.allBlank (a.lead ++ a.trail) = true) :
    a.Widens ⟨Text.bytes a.above,
      Text.bytes (a.above ++ (a.lead ++ (a.part ++ (a.trail ++ a.below.take 1))))⟩ where
  start_le := by
    simp only [← a.start_eq, Text.bytes_append]
    omega
  le_stop := by
    simp only [← a.stop_eq, Text.bytes_append]
    omega
  before := by
    have htext := text?_of_append a.source_eq
    rw [a.start_eq] at htext
    rw [Text.allBlank_append, Bool.and_eq_true] at h
    refine ⟨_, htext, ?_, ?_⟩
    · simpa [isBlankText] using h.1
    · simpa using a.lead_unbroken
  behind := by
    have hparts : source.toList = (a.above ++ (a.lead ++ a.part)) ++
        ((a.trail ++ a.below.take 1) ++ a.below.drop 1) := by
      rw [List.append_assoc a.trail, List.take_append_drop, a.source_eq]
      simp
    have htext := text?_of_append hparts
    rw [a.stop_eq] at htext
    rw [Text.allBlank_append, Bool.and_eq_true] at h
    refine ⟨String.ofList (a.trail ++ a.below.take 1), by simpa using htext, ?_, ?_⟩
    · have hnewline : Text.allBlank (a.below.take 1) = true := by
        rcases a.below_begins with hnil | ⟨xs, hbegins⟩
        · rw [hnil]
          rfl
        · rw [hbegins]
          rfl
      simp [isBlankText, Text.allBlank_append, h.2, hnewline]
    · rw [String.toList_ofList, List.count_append, List.count_eq_zero_of_not_mem a.trail_unbroken,
        Nat.zero_add]
      exact List.count_le_length.trans (by simp)
  shared hother := by
    obtain ⟨c, hc, hvisible⟩ := hother
    rw [List.all_eq_true.1 h c hc] at hvisible
    cases hvisible
  alone _ := by
    constructor
    · rcases a.above_ended with hnil | ⟨xs, hended⟩
      · exact .inl (by rw [hnil]; rfl)
      · refine .inr ?_
        have hparts := a.source_eq
        rw [hended, List.append_assoc] at hparts
        simp only [hended]
        exact afterNewline_of_append hparts
    · rcases a.below_begins with hnil | ⟨xs, hbegins⟩
      · refine .inr ?_
        rw [byteLength_eq_bytes, a.source_eq, hnil]
        rfl
      · refine .inl ?_
        have hparts : source.toList =
            (a.above ++ (a.lead ++ (a.part ++ a.trail))) ++ (['\n'] ++ xs) := by
          simp [a.source_eq, hbegins]
        simpa [hbegins] using afterNewline_of_append hparts

theorem widens_ownedLines (a : Surroundings source span) :
    a.Widens (Printer.ownedLines source span) := by
  rw [a.ownedLines_eq]
  cases h : Text.allBlank (a.lead ++ a.trail) with
  | true => exact a.widens_lines h
  | false => exact a.widens_self h

end Surroundings

/-! ## Printed units -/

/-- The text that an edit puts in the place of its statement. -/
def Edit.newText : Edit → String
  | .replace text => text
  | .remove => ""

namespace Printer

/-- The span of an edited statement and its new text. -/
def replacement (p : Statement × Edit) : Span × String := (p.1.origin.span, p.2.newText)

/-- The edited statements as replacements of their spans and of nothing more. -/
def replacements (u : ProgramUnit) : List (Span × String) := (edited u).map replacement

/-- The range that printing replaces for an edited statement, and its new text. -/
def effective (source : String) (p : Statement × Edit) : Span × String :=
  ((changeOf source p.1 p.2).span, (changeOf source p.1 p.2).text)

theorem pads_effective {source : String} {s : Statement} (edit : Edit)
    (h : s.origin.span.fits source = true) :
    Pads source (replacement (s, edit)) (effective source (s, edit)) := by
  obtain ⟨front, part, back, hsource, hstart, hstop⟩ := Span.fits_iff.1 h
  cases edit with
  | replace text =>
    refine ⟨rfl, front, [], part, [], back, hsource, rfl, rfl, hstart, ?_, ?_, ?_⟩
    · simpa [replacement] using hstart
    · simpa [replacement] using hstop
    · simpa [effective, changeOf] using hstop
  | remove =>
    obtain ⟨lines, before, after, rest, rfl, rfl, hbefore, hafter, hfirst, hlast⟩ :=
      exists_ownedLines hsource hstart hstop
    refine ⟨rfl, lines, before, part, after, rest, ?_, hbefore, hafter, hfirst, hstart, ?_, ?_⟩
    · simpa using hsource
    · simpa [replacement, Nat.add_assoc] using hstop
    · simpa [effective, changeOf] using hlast

/-- A text is printed only if all spans fit, no neighbours clash, and all ranges can be replaced. -/
theorem of_print_eq_ok {u : ProgramUnit} {text : String} (h : print u = .ok (.ok text)) :
    u.statements.find? (isMisplaced u.source) = none ∧ clash? (sorted u) = none ∧
      replaceRanges u.source (ranges (sorted u)) = .ok text := by
  rw [print_eq] at h
  cases hfind : u.statements.find? (isMisplaced u.source) with
  | some s => simp [hfind] at h
  | none =>
    cases hclash : clash? (sorted u) with
    | some pair => simp [hfind, hclash] at h
    | none =>
      simp only [hfind, hclash] at h
      cases hreplaced : replaceRanges u.source (ranges (sorted u)) with
      | error a => simp [hreplaced, Except.map] at h
      | ok result =>
        rw [hreplaced] at h
        exact ⟨rfl, rfl, congrArg _ (Except.ok.inj (Except.ok.inj h))⟩

theorem perm_lineup (u : ProgramUnit) : (lineup u).Perm (edited u) := List.mergeSort_perm _ _

theorem ranges_sorted_eq_map (u : ProgramUnit) :
    ranges (sorted u) = (lineup u).map (effective u.source) := by
  rw [sorted_eq_map, ranges, List.map_map]
  rfl

/-- The edited statements are not empty, their spans fit the source, and what printing replaces for
them stands apart. -/
structure Settles (u : ProgramUnit) : Prop where
  wide : ∀ s ∈ u.statements, s.isEdited = true → s.origin.span.start < s.origin.span.stop
  placed : ∀ s ∈ u.statements, s.isEdited = true → s.origin.span.fits u.source = true
  apart : Apart ((lineup u).map (effective u.source))

theorem settles_of_print_eq_ok {u : ProgramUnit} {text : String}
    (hspans : ∀ s ∈ u.statements, s.isEdited = true → s.origin.span.isEmpty = false)
    (h : print u = .ok (.ok text)) : Settles u := by
  obtain ⟨hfind, hclash, -⟩ := of_print_eq_ok h
  have hplaced : ∀ s ∈ u.statements, s.isEdited = true → s.origin.span.fits u.source = true := by
    intro s hs hedited
    simpa [isMisplaced, hedited] using List.find?_eq_none.1 hfind s hs
  have hends : ∀ s ∈ u.statements, s.isEdited = true →
      s.origin.span.start < s.origin.span.stop := by
    intro s hs hedited
    have hlength := hspans s hs hedited
    simp only [Span.isEmpty, Span.length, beq_eq_false_iff_ne] at hlength
    omega
  have hwide := wide_of_statements hplaced fun s hs hedited => (hends s hs hedited).ne
  refine ⟨hends, hplaced, ?_⟩
  rw [← ranges_sorted_eq_map]
  exact hwide.apart_sorted (hwide.clash?_eq_none_iff_pairwise.1 hclash)

namespace Settles

variable {u : ProgramUnit}

theorem pads (h : Settles u) {p : Statement × Edit} (hp : p ∈ lineup u) :
    Pads u.source (replacement p) (effective u.source p) := by
  obtain ⟨hs, hedit⟩ := mem_edited_iff.1 ((perm_lineup u).mem_iff.1 hp)
  exact pads_effective p.2 (h.placed p.1 hs (by simp [Statement.isEdited, hedit]))

theorem apart_replacement (h : Settles u) : Apart ((lineup u).map replacement) := by
  apply List.pairwise_map.2
  refine (List.Pairwise.and_mem.1 (List.pairwise_map.1 h.apart)).imp fun {p q} hpq => ?_
  obtain ⟨hp, hq, hstop⟩ := hpq
  exact (h.pads hp).inside.2.trans (hstop.trans (h.pads hq).inside.1)

/-- Replacing the spans alone gives one text, and it has the visible text of what is printed. -/
theorem exists_plain (h : Settles u) :
    ∃ plain text, (∀ t, IsSplice u.source (replacements u) t ↔ t = plain) ∧
      weave u.source 0 ((lineup u).map (effective u.source)) = some text ∧
        Text.visible text.toList = Text.visible plain.toList := by
  have hsource : u.source.toList = [] ++ ([] ++ u.source.toList) := rfl
  obtain ⟨plain, text, hplain, htext, hvisible⟩ :=
    exists_weave_visible hsource rfl (fun p hp => h.pads hp) (by simp) h.apart
  have hsplice : IsSplice u.source (replacements u) plain :=
    ⟨_, (perm_lineup u).map replacement, h.apart_replacement, hplain⟩
  have hwide : ∀ r ∈ replacements u, r.1.start < r.1.stop := by
    intro r hr
    obtain ⟨p, hp, rfl⟩ := List.mem_map.1 hr
    obtain ⟨hs, hedit⟩ := mem_edited_iff.1 hp
    exact h.wide p.1 hs (by simp [Statement.isEdited, hedit])
  refine ⟨plain, text, fun t => ⟨fun ht => ht.unique hsplice hwide, ?_⟩, htext, hvisible⟩
  rintro rfl
  exact hsplice

end Settles

/-- Printing keeps all other code. If the spans of the edited statements are not empty and a text is
printed, then it is the source with nothing but these spans replaced, up to white space. Of a removed
statement, the range that goes missing widens the span by white space at most, and it is whole lines
exactly if the statement has them for itself. -/
theorem print_keeps_other_code (u : ProgramUnit) (text : String)
    (hspans : ∀ s ∈ u.statements, s.isEdited = true → s.origin.span.isEmpty = false)
    (h : print u = .ok (.ok text)) :
    (∃ plain, (∀ t, IsSplice u.source (replacements u) t ↔ t = plain) ∧
      Text.visible text.toList = Text.visible plain.toList) ∧
    IsSplice u.source (ranges (pending u)) text ∧
    ∀ s ∈ u.statements, s.edit = some .remove →
      changeOf u.source s .remove ∈ pending u ∧
      Nonempty (Surroundings u.source s.origin.span) ∧
      ∀ a : Surroundings u.source s.origin.span,
        a.Widens (changeOf u.source s .remove).span := by
  have hsettles := settles_of_print_eq_ok hspans h
  obtain ⟨hfind, -, hreplaced⟩ := of_print_eq_ok h
  have hapart : Apart (ranges (sorted u)) := ranges_sorted_eq_map u ▸ hsettles.apart
  have hfits : ∀ r ∈ ranges (sorted u), r.1.fits u.source = true := by
    intro r hr
    obtain ⟨c, hc, rfl⟩ := List.mem_map.1 hr
    exact fits_of_mem_sorted hfind hc
  obtain ⟨printed, hprinted, hwoven⟩ := replaceRanges_eq_weave hfits hapart
  obtain rfl : printed = text := Except.ok.inj (hprinted.symm.trans hreplaced)
  obtain ⟨plain, text, hplain, htext, hvisible⟩ := hsettles.exists_plain
  rw [← ranges_sorted_eq_map, hwoven] at htext
  obtain rfl := Option.some.inj htext
  refine ⟨⟨plain, hplain, hvisible⟩, ⟨_, (perm_sorted u).map _, hapart, hwoven⟩, ?_⟩
  intro s hs hremove
  have hedited : s.isEdited = true := by simp [Statement.isEdited, hremove]
  exact ⟨mem_pending_iff.2 ⟨s, hs, .remove, hremove, rfl⟩,
    Surroundings.nonempty_of_fits (hsettles.placed s hs hedited), fun a => a.widens_ownedLines⟩

/-- Four statements: the first and the last are removed from lines of their own, the second is
replaced, and the third is removed from the line of the second. -/
def fourStatements : ProgramUnit where
  name := "m"
  path := "m.rs"
  source := "  a();\r\nb(); c();\nd();"
  classes := [⟨"c", none, [⟨"f", none,
    ⟨[⟨0, [⟨0, ⟨1, 3, ⟨2, 6⟩⟩, "a();", [], some .remove⟩,
      ⟨1, ⟨2, 1, ⟨8, 12⟩⟩, "b();", [], some (.replace "x")⟩,
      ⟨2, ⟨2, 6, ⟨13, 17⟩⟩, "c();", [], some .remove⟩,
      ⟨3, ⟨3, 1, ⟨18, 22⟩⟩, "d();", [], some .remove⟩]⟩], []⟩⟩]⟩]

/-- The lines of the first and the last statement go with them, and the blank before the third one
stays. -/
theorem print_keeps_other_code_fourStatements :
    (∀ s ∈ fourStatements.statements, s.isEdited = true → s.origin.span.isEmpty = false) ∧
    print fourStatements = .ok (.ok "x \n") ∧
    pending fourStatements = [⟨0, ⟨0, 8⟩, ""⟩, ⟨1, ⟨8, 12⟩, "x"⟩, ⟨2, ⟨13, 17⟩, ""⟩, ⟨3, ⟨18, 22⟩, ""⟩] ∧
    (∃ plain, (∀ t, IsSplice fourStatements.source (replacements fourStatements) t ↔ t = plain) ∧
      Text.visible "x \n".toList = Text.visible plain.toList) ∧
    ∀ a : Surroundings fourStatements.source ⟨2, 6⟩, a.Widens ⟨0, 8⟩ := by
  have hspans : ∀ s ∈ fourStatements.statements,
      s.isEdited = true → s.origin.span.isEmpty = false := by decide
  have hsorted : sorted fourStatements = pending fourStatements := by
    apply List.mergeSort_of_pairwise
    decide
  have hprint : print fourStatements = .ok (.ok "x \n") := by
    rw [print_eq, hsorted]
    rfl
  obtain ⟨hplain, -, hremoved⟩ := print_keeps_other_code fourStatements "x \n" hspans hprint
  refine ⟨hspans, hprint, rfl, hplain, ?_⟩
  exact (hremoved ⟨0, ⟨1, 3, ⟨2, 6⟩⟩, "a();", [], some .remove⟩ (by decide) rfl).2.2

end Printer

end LintMend
