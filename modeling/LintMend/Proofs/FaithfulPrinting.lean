import LintMend.Proofs.SwallowedText

/-!
# Which units are printed faithfully

Whether the pending edits of a unit are printed in full is decided by the places of their ranges and
by the ids of the statements. Orderly units are printed faithfully whatever the texts are. If a unit
is not orderly and printing does not refuse it, then other texts in the same places show what is wrong
with it: enough copies of a character that the swallowing range does not consist of.
-/

namespace LintMend

/-- The edit with another text, if it puts in a text at all. -/
def Edit.withText (text : String) : Edit → Edit
  | .replace _ => .replace text
  | .remove => .remove

/-- The statement with another text in its pending edit. -/
def Statement.withText (text : String) (s : Statement) : Statement :=
  { s with edit := s.edit.map (Edit.withText text) }

/-- The unit with another text in all its pending replacements. -/
def ProgramUnit.withTexts (u : ProgramUnit) (text : String) : ProgramUnit :=
  let inBlock (b : FlowBlock) : FlowBlock :=
    { b with statements := b.statements.map (Statement.withText text) }
  let inMethod (m : Method) : Method :=
    { m with graph := { m.graph with blocks := m.graph.blocks.map inBlock } }
  let inClass (c : Class) : Class := { c with methods := c.methods.map inMethod }
  { u with classes := u.classes.map inClass }

@[simp] theorem ProgramUnit.source_withTexts (u : ProgramUnit) (text : String) :
    (u.withTexts text).source = u.source := rfl

theorem ProgramUnit.statements_withTexts (u : ProgramUnit) (text : String) :
    (u.withTexts text).statements = u.statements.map (Statement.withText text) := by
  simp [statements, withTexts, FlowGraph.stored, List.flatMap_map, List.map_flatMap]

namespace Printer

theorem find?_isMisplaced_withTexts (u : ProgramUnit) (text : String) :
    (u.withTexts text).statements.find? (isMisplaced u.source) = none ↔
      u.statements.find? (isMisplaced u.source) = none := by
  rw [ProgramUnit.statements_withTexts, List.find?_map, Option.map_eq_none_iff]
  have hsame : isMisplaced u.source ∘ Statement.withText text = isMisplaced u.source := by
    funext s
    simp [isMisplaced, Statement.isEdited, Statement.withText]
  rw [hsame]

theorem edited_withTexts (u : ProgramUnit) (text : String) :
    edited (u.withTexts text) =
      (edited u).map fun p => (p.1.withText text, p.2.withText text) := by
  rw [edited, edited, ProgramUnit.statements_withTexts, List.filterMap_map, List.map_filterMap]
  apply List.filterMap_congr
  intro s _
  cases hedit : s.edit <;> simp [Statement.withText, hedit]

/-- The statements with pending edits in the order of their changes. -/
def lineup (u : ProgramUnit) : List (Statement × Edit) :=
  (edited u).mergeSort fun p q =>
    Change.le (changeOf u.source p.1 p.2) (changeOf u.source q.1 q.2)

theorem sorted_eq_map (u : ProgramUnit) :
    sorted u = (lineup u).map fun p => changeOf u.source p.1 p.2 := by
  rw [sorted, pending, lineup]
  refine (List.map_mergeSort ?_).symm
  intro p _ q _
  rfl

theorem span_changeOf_withText (source text : String) (s : Statement) (edit : Edit) :
    (changeOf source (s.withText text) (edit.withText text)).span = (changeOf source s edit).span := by
  cases edit <;> rfl

theorem le_changeOf_withText (source text : String) (p q : Statement × Edit) :
    Change.le (changeOf source (p.1.withText text) (p.2.withText text))
        (changeOf source (q.1.withText text) (q.2.withText text)) =
      Change.le (changeOf source p.1 p.2) (changeOf source q.1 q.2) := by
  obtain ⟨s, edit⟩ := p
  obtain ⟨t, edit'⟩ := q
  cases edit <;> cases edit' <;> rfl

theorem sorted_withTexts (u : ProgramUnit) (text : String) :
    sorted (u.withTexts text) =
      (lineup u).map fun p => changeOf u.source (p.1.withText text) (p.2.withText text) := by
  rw [sorted, pending, edited_withTexts, List.map_map, lineup]
  refine (List.map_mergeSort ?_).symm
  intro p _ q _
  exact (le_changeOf_withText u.source text p q).symm

theorem spans_sorted_withTexts (u : ProgramUnit) (text : String) :
    (sorted (u.withTexts text)).map (·.span) = (sorted u).map (·.span) := by
  rw [sorted_withTexts, sorted_eq_map, List.map_map, List.map_map]
  apply List.map_congr_left
  intro p _
  exact span_changeOf_withText u.source text p.1 p.2

/-- Whether neighbours are in each other's way depends on the ranges only. -/
theorem clash?_eq_none_iff (cs : List Change) :
    clash? cs = none ↔
      (cs.map (·.span)).IsChain fun a b => a.overlaps b = false ∧ a ≠ b := by
  induction cs with
  | nil => simp [clash?]
  | cons a rest ih =>
    cases rest with
    | nil => simp [clash?]
    | cons b rest =>
      rw [clash?, List.map_cons, List.map_cons, List.isChain_cons_cons, ← List.map_cons, ← ih]
      by_cases hclash : (a.span.overlaps b.span || a.span == b.span) = true
      · rw [if_pos hclash]
        simp only [Bool.or_eq_true, beq_iff_eq] at hclash
        simp only [reduceCtorEq, false_iff, not_and]
        rintro ⟨hoverlap, hne⟩
        simp [hoverlap, hne] at hclash
      · rw [if_neg hclash]
        simp only [Bool.or_eq_true, beq_iff_eq, not_or, Bool.not_eq_true] at hclash
        simp [hclash]

/-- A unit that printing does not refuse is not refused with other texts either. -/
theorem print_withTexts {u : ProgramUnit} (h : ∀ e, print u ≠ .ok (.error e)) (text : String) :
    u.statements.find? (isMisplaced u.source) = none ∧
      print (u.withTexts text) =
        (replaceRanges u.source (ranges (sorted (u.withTexts text)))).map .ok := by
  have hfind : u.statements.find? (isMisplaced u.source) = none := by
    by_contra hsome
    obtain ⟨s, hs⟩ := Option.ne_none_iff_exists'.1 hsome
    exact h (.spanOutOfRange s.id) (by rw [print_eq, hs])
  have hclash : clash? (sorted u) = none := by
    by_contra hsome
    obtain ⟨⟨a, b⟩, hpair⟩ := Option.ne_none_iff_exists'.1 hsome
    exact h (.overlappingEdits a.id b.id) (by rw [print_eq, hfind]; simp only [hpair])
  have hclash' : clash? (sorted (u.withTexts text)) = none := by
    rw [clash?_eq_none_iff] at hclash ⊢
    rwa [spans_sorted_withTexts]
  refine ⟨hfind, ?_⟩
  rw [print_eq, ProgramUnit.source_withTexts, (find?_isMisplaced_withTexts u text).2 hfind]
  simp only [hclash']

/-! ## Units that are not orderly -/

theorem fits_lineup {u : ProgramUnit} (hfind : u.statements.find? (isMisplaced u.source) = none)
    {p : Statement × Edit} (hp : p ∈ lineup u) :
    (changeOf u.source p.1 p.2).span.fits u.source = true := by
  apply fits_of_mem_sorted hfind
  rw [sorted_eq_map]
  exact List.mem_map_of_mem hp

/-- The ranges of a unit with other texts, in the order of its own changes. -/
theorem ranges_sorted_withTexts (u : ProgramUnit) (text : String) :
    ranges (sorted (u.withTexts text)) =
      (lineup u).map fun p =>
        ((changeOf u.source p.1 p.2).span,
          (changeOf u.source (p.1.withText text) (p.2.withText text)).text) := by
  rw [ranges, sorted_withTexts, List.map_map]
  apply List.map_congr_left
  intro p _
  simp [span_changeOf_withText]

theorem lined_ranges {u : ProgramUnit}
    (hfits : ∀ c ∈ sorted u, c.span.fits u.source = true)
    (hclear : (sorted u).Pairwise fun a b => a.span.overlaps b.span = false) :
    Lined u.source (ranges (sorted u)) where
  fits r hr := by
    obtain ⟨c, hc, rfl⟩ := List.mem_map.1 hr
    exact hfits c hc
  ordered := List.pairwise_map.2 ((pairwise_le_sorted u).imp start_le_of_le)
  clear := List.pairwise_map.2 hclear

theorem text_changeOf_withText (source text : String) (s : Statement) (edit : Edit) :
    (changeOf source (s.withText text) (edit.withText text)).text =
      if edit = .remove then "" else text := by
  cases edit <;> rfl

theorem marks_withTexts (u : ProgramUnit) (m : Char) (n : Nat) :
    Marks m (ranges (sorted (u.withTexts (String.ofList (List.replicate n m))))) := by
  intro r hr
  rw [ranges_sorted_withTexts] at hr
  obtain ⟨p, -, rfl⟩ := List.mem_map.1 hr
  simp only [text_changeOf_withText]
  split
  · exact ⟨0, rfl⟩
  · exact ⟨n, by simp⟩

/-- Two members out of relation, the earlier one with what comes after it. -/
theorem exists_split_of_not_pairwise {α : Type} {R : α → α → Prop} {l : List α}
    (h : ¬ l.Pairwise R) : ∃ pre a rest b, l = pre ++ a :: rest ∧ b ∈ rest ∧ ¬ R a b := by
  rw [List.pairwise_iff_forall_sublist] at h
  push Not at h
  obtain ⟨a, b, hsub, hR⟩ := h
  obtain ⟨upto, after, rfl, ha, hb⟩ := List.cons_sublist_iff.1 hsub
  obtain ⟨pre, mid, rfl⟩ := List.append_of_mem ha
  exact ⟨pre, a, mid ++ after, b, by simp, by simp [List.singleton_sublist.1 hb], hR⟩

theorem pairwise_overlaps_withTexts_iff (u : ProgramUnit) (text : String) :
    ((sorted (u.withTexts text)).Pairwise fun a b => a.span.overlaps b.span = false) ↔
      (sorted u).Pairwise fun a b => a.span.overlaps b.span = false := by
  have hspans (v : ProgramUnit) :
      ((sorted v).Pairwise fun a b => a.span.overlaps b.span = false) ↔
        ((sorted v).map (·.span)).Pairwise fun a b => a.overlaps b = false := by
    rw [List.pairwise_map]
  rw [hspans, hspans, spans_sorted_withTexts]

/-- What faithful printing gives for a unit that is not refused. -/
theorem Faithful.exists_result {u : ProgramUnit} {text : String}
    (hprinted : ∀ e, print u ≠ .ok (.error e)) (h : Faithful (u.withTexts text)) :
    ∃ result, replaceRanges u.source (ranges (sorted (u.withTexts text))) = .ok result ∧
      ((sorted u).Pairwise fun a b => a.span.overlaps b.span = false) ∧
        IsSplice u.source (ranges (sorted (u.withTexts text))) result := by
  obtain ⟨printed, hprint, hfaithful⟩ := h
  rw [(print_withTexts hprinted text).2] at hprint
  cases hreplaced : replaceRanges u.source (ranges (sorted (u.withTexts text))) with
  | error a => simp [hreplaced, Except.map] at hprint
  | ok result =>
    rw [hreplaced] at hprint
    obtain ⟨hclear, hsplice⟩ := hfaithful result (Except.ok.inj hprint).symm
    rw [pairwise_overlaps_pending_iff, pairwise_overlaps_withTexts_iff] at hclear
    exact ⟨result, rfl, hclear, hsplice.perm ((perm_sorted _).symm.map _)⟩

/-- A unit with a swallowed insertion loses marks when they are the new texts. -/
theorem not_faithful_of_swallows {u : ProgramUnit} (hprinted : ∀ e, print u ≠ .ok (.error e))
    {pre rest : List (Statement × Edit)} {p q : Statement × Edit}
    (hlineup : lineup u = pre ++ p :: rest) (hq : q ∈ rest)
    (h : Swallows (changeOf u.source p.1 p.2) (changeOf u.source q.1 q.2)) {m : Char}
    (hm : m.utf8Size = 1)
    (hrare : (changeOf u.source p.1 p.2).span.start +
      (cut u.source (changeOf u.source p.1 p.2).span).count m <
        (changeOf u.source p.1 p.2).span.stop) :
    ¬ Faithful (u.withTexts (String.ofList (List.replicate (byteLength u.source) m))) := by
  intro hfaithful
  obtain ⟨hwide, hqstart, hqstop, hqtext⟩ := h
  have hfind := (print_withTexts hprinted "").1
  obtain ⟨result, hreplaced, hclear, hsplice⟩ := hfaithful.exists_result hprinted
  have hmarks := marks_withTexts u m (byteLength u.source)
  have hlined : Lined u.source (ranges (sorted (u.withTexts
      (String.ofList (List.replicate (byteLength u.source) m))))) := by
    apply lined_ranges (u := u.withTexts _)
    · intro c hc
      exact fits_of_mem_sorted ((find?_isMisplaced_withTexts u _).2 hfind) hc
    · exact (pairwise_overlaps_withTexts_iff u _).2 hclear
  -- Replacing at once keeps the balance of marks; replacing in place loses some of them.
  have hcount := hsplice.count m hlined.fits
  have hranges := ranges_sorted_withTexts u (String.ofList (List.replicate (byteLength u.source) m))
  rw [hlineup, List.map_append, List.map_cons] at hranges
  rw [hranges] at hlined hmarks hreplaced hcount
  have hreplace : q.2 ≠ .remove := by
    intro hremove
    simp [hremove, changeOf] at hqtext
  have hstop : (changeOf u.source p.1 p.2).span.stop ≤ byteLength u.source := by
    have hp := fits_lineup hfind (p := p) (by simp [hlineup])
    simp only [Span.fits, Bool.and_eq_true, decide_eq_true_eq] at hp
    exact hp.1.1.2
  have hlost := count_replaceRanges_lt hm hlined hmarks (List.mem_map_of_mem hq)
    (congrArg₂ Span.mk hqstart hqstop) hwide
    (by simp only [text_changeOf_withText, if_neg hreplace, String.toList_ofList,
          List.length_replicate]; omega)
    hrare hreplaced
  omega

theorem exists_not_faithful {u : ProgramUnit} (hprinted : ∀ e, print u ≠ .ok (.error e))
    (h : ¬ Orderly u) : ∃ text, ¬ Faithful (u.withTexts text) := by
  by_cases hclear : (sorted u).Pairwise fun a b => a.span.overlaps b.span = false
  · have hswallows : ¬ (sorted u).Pairwise fun a b => ¬ Swallows a b := fun hnone =>
      h (hclear.and hnone)
    rw [sorted_eq_map, List.pairwise_map] at hswallows
    obtain ⟨pre, p, rest, q, hlineup, hq, hpq⟩ := exists_split_of_not_pairwise hswallows
    have hpq := not_not.1 hpq
    have hfits := fits_lineup (print_withTexts hprinted "").1 (p := p) (by simp [hlineup])
    obtain ⟨m, hm, hrare⟩ := exists_rare hfits hpq.1
    exact ⟨_, not_faithful_of_swallows hprinted hlineup hq hpq hm hrare⟩
  · refine ⟨"", fun hfaithful => hclear ?_⟩
    obtain ⟨result, -, hclear, -⟩ := hfaithful.exists_result hprinted
    exact hclear

/-- Orderly units are printed faithfully. A unit that is neither orderly nor refused has edits in
such places that some texts are not printed in full. -/
theorem faithful_orderly_exact (u : ProgramUnit) :
    (Orderly u → Faithful u) ∧
      (Orderly u ∨ (∃ e, print u = .ok (.error e)) ∨ ∃ text, ¬ Faithful (u.withTexts text)) := by
  refine ⟨faithful_of_orderly, ?_⟩
  by_cases horderly : Orderly u
  · exact .inl horderly
  · by_cases hrefused : ∃ e, print u = .ok (.error e)
    · exact .inr (.inl hrefused)
    · exact .inr (.inr (exists_not_faithful (fun e he => hrefused ⟨e, he⟩) horderly))

/-- Two statements that begin together. The first one is replaced, and the second one, which is
empty, gets a text. -/
def sharedStart : ProgramUnit where
  name := "m"
  path := "m.rs"
  source := "abcdef"
  classes := [⟨"c", none, [⟨"f", some ⟨1, 1, ⟨0, 6⟩⟩,
    ⟨[⟨0, [⟨0, ⟨1, 1, ⟨0, 4⟩⟩, "abcd", [], some (.replace "X")⟩,
      ⟨1, ⟨1, 1, ⟨0, 0⟩⟩, "", [], some (.replace "yz")⟩]⟩], []⟩⟩]⟩]

/-- The unit is valid, and the text that is put in goes missing with nothing said. -/
theorem not_faithful_sharedStart :
    sharedStart.fault? = none ∧ print sharedStart = .ok (.ok "Xcdef") ∧ ¬ Faithful sharedStart := by
  have hsorted : sorted sharedStart = pending sharedStart := by
    apply List.mergeSort_of_pairwise
    decide
  have hprint : print sharedStart = .ok (.ok "Xcdef") := by
    rw [print_eq, hsorted]
    rfl
  refine ⟨by decide +kernel, hprint, ?_⟩
  rintro ⟨printed, hprinted, hfaithful⟩
  obtain ⟨-, hsplice⟩ := hfaithful "Xcdef" (Except.ok.inj (hprinted.symm.trans hprint))
  have hcount := hsplice.count 'y' (by decide)
  revert hcount
  decide

end Printer

end LintMend
