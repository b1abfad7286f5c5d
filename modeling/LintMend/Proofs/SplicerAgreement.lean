import LintMend.Proofs.FaithfulPrinting
import LintMend.Proofs.PatchApplication

/-!
# Printing agrees with patching

Printing a unit and applying a patch are two ways to replace ranges of a text. They sort by different
keys and compare neighbours by different tests. Where no edited statement is empty this makes no
difference: both refuse the same ranges, and ranges that neither refuses stand in one order only.
-/

namespace LintMend.Printer

/-! ## What the comparison of neighbours misses -/

/-- Two ranges overlap, and an empty one between them in the order of changes keeps them from being
compared. -/
def Hidden (cs : List Change) : Prop :=
  ∃ a b c, [a, b, c].Sublist cs ∧ a.span.overlaps c.span = true ∧
    b.span = ⟨a.span.start, a.span.start⟩

/-- The comparison of neighbours finds every overlap but the hidden ones. -/
theorem pairwise_or_hidden {cs : List Change}
    (hle : cs.Pairwise fun a b => a.span.start ≤ b.span.start)
    (hends : ∀ c ∈ cs, c.span.start ≤ c.span.stop) (h : clash? cs = none) :
    (cs.Pairwise fun a b => a.span.overlaps b.span = false) ∨ Hidden cs := by
  induction cs with
  | nil => exact .inl .nil
  | cons a rest ih =>
    cases rest with
    | nil => exact .inl (List.pairwise_singleton _ a)
    | cons b rest =>
      rw [List.pairwise_cons] at hle
      rw [clash?_eq_none_iff, List.map_cons, List.map_cons, List.isChain_cons_cons, ← List.map_cons,
        ← clash?_eq_none_iff] at h
      have hrest : ∀ c ∈ b :: rest, c.span.start ≤ c.span.stop := fun c hc =>
        hends c (List.mem_cons_of_mem a hc)
      rcases ih hle.2 hrest h.2 with hpairwise | ⟨x, y, z, hsub, hxz, hy⟩
      · by_cases hfirst : ∀ c ∈ b :: rest, a.span.overlaps c.span = false
        · exact .inl (List.pairwise_cons.2 ⟨hfirst, hpairwise⟩)
        · right
          push Not at hfirst
          rcases hfirst with ⟨c, hc, hoverlap⟩
          rw [ne_eq, Bool.not_eq_false] at hoverlap
          have hmem : c ∈ rest := by
            rcases List.mem_cons.1 hc with rfl | hmem
            · simp [h.1.1] at hoverlap
            · exact hmem
          refine ⟨a, b, c, ((List.singleton_sublist.2 hmem).cons_cons b).cons_cons a, hoverlap, ?_⟩
          -- The neighbour begins inside of the first range and does not overlap it.
          have hab := hle.1 b List.mem_cons_self
          have hbc : b.span.start ≤ c.span.start := List.rel_of_pairwise_cons hle.2 hmem
          have hb := hrest b List.mem_cons_self
          have happart := h.1.1
          simp only [Span.overlaps, Bool.and_eq_true, Bool.and_eq_false_iff, decide_eq_true_eq,
            decide_eq_false_iff_not] at hoverlap happart
          have hstart : b.span.start = a.span.start := by omega
          have hstop : b.span.stop = a.span.start := by omega
          calc
            b.span = ⟨b.span.start, b.span.stop⟩ := rfl
            _ = ⟨a.span.start, a.span.start⟩ := by rw [hstart, hstop]
      · exact .inr ⟨x, y, z, hsub.cons a, hxz, hy⟩

/-! ## Effective ranges are at least as wide as the statements -/

theorem ownedLines_start_le (source : String) (span : Span) :
    (ownedLines source span).start ≤ span.start := by
  unfold ownedLines
  dsimp only
  split
  · split
    · exact Nat.sub_le _ _
    · exact le_rfl
  · exact le_rfl

theorem le_ownedLines_stop (source : String) (span : Span) :
    span.stop ≤ (ownedLines source span).stop := by
  unfold ownedLines
  dsimp only
  split
  · split
    · dsimp only
      omega
    · exact le_rfl
  · exact le_rfl

theorem wide_changeOf {source : String} {s : Statement} (edit : Edit)
    (h : s.origin.span.start < s.origin.span.stop) :
    (changeOf source s edit).span.start < (changeOf source s edit).span.stop := by
  cases edit with
  | replace text => exact h
  | remove =>
    have hstart := ownedLines_start_le source s.origin.span
    have hstop := le_ownedLines_stop source s.origin.span
    simp only [changeOf]
    omega

/-- All changes of the unit are made to ranges that fit the source and are not empty. -/
def Wide (u : ProgramUnit) : Prop :=
  ∀ c ∈ pending u, c.span.fits u.source = true ∧ c.span.start < c.span.stop

theorem wide_of_statements {u : ProgramUnit}
    (hplaced : ∀ s ∈ u.statements, s.isEdited = true → s.origin.span.fits u.source = true)
    (hends : ∀ s ∈ u.statements, s.isEdited = true → s.origin.span.start ≠ s.origin.span.stop) :
    Wide u := by
  intro c hc
  rcases mem_pending_iff.1 hc with ⟨s, hs, edit, hedit, rfl⟩
  have hedited : s.isEdited = true := by simp [Statement.isEdited, hedit]
  have hfits := hplaced s hs hedited
  have hle := Span.start_le_stop hfits
  have hne := hends s hs hedited
  exact ⟨fits_changeOf hfits, wide_changeOf edit (Nat.lt_of_le_of_ne hle hne)⟩

theorem Wide.of_mem_sorted {u : ProgramUnit} (h : Wide u) {c : Change} (hc : c ∈ sorted u) :
    c.span.fits u.source = true ∧ c.span.start < c.span.stop :=
  h c ((perm_sorted u).mem_iff.1 hc)

/-- No change of a range that is not empty is hidden from the comparison of neighbours. -/
theorem Wide.clash?_eq_none_iff_pairwise {u : ProgramUnit} (h : Wide u) :
    clash? (sorted u) = none ↔
      (pending u).Pairwise fun a b => a.span.overlaps b.span = false := by
  have hle : (sorted u).Pairwise fun a b => a.span.start ≤ b.span.start :=
    (pairwise_le_sorted u).imp start_le_of_le
  rw [pairwise_overlaps_pending_iff]
  constructor
  · intro hclash
    have hends : ∀ c ∈ sorted u, c.span.start ≤ c.span.stop := fun c hc =>
      (h.of_mem_sorted hc).2.le
    rcases pairwise_or_hidden hle hends hclash with hpairwise | ⟨a, b, c, hsub, -, hempty⟩
    · exact hpairwise
    · have hb := (h.of_mem_sorted (hsub.subset (by simp : b ∈ [a, b, c]))).2
      rw [hempty] at hb
      exact absurd hb (lt_irrefl _)
  · intro hpairwise
    rw [clash?_eq_none_iff]
    apply List.Pairwise.isChain
    apply List.pairwise_map.2
    refine (List.Pairwise.and_mem.1 hpairwise).imp fun {a b} hab => ⟨hab.2.2, ?_⟩
    intro hsame
    have ha := (h.of_mem_sorted hab.1).2
    have hoverlap := hab.2.2
    rw [← hsame] at hoverlap
    simp [Span.overlaps, ha] at hoverlap

/-- Ranges that fit, are not empty and do not overlap are in order only if each one stops before the
next ones begin. -/
theorem Wide.apart_sorted {u : ProgramUnit} (h : Wide u)
    (hclear : (pending u).Pairwise fun a b => a.span.overlaps b.span = false) :
    Apart (ranges (sorted u)) := by
  rw [pairwise_overlaps_pending_iff] at hclear
  have hle := (pairwise_le_sorted u).imp start_le_of_le
  apply List.pairwise_map.2
  refine (List.Pairwise.and_mem.1 (hle.and hclear)).imp fun {a b} hab => ?_
  have hb := (h.of_mem_sorted hab.2.1).2
  have hoverlap := hab.2.2.2
  have hstart := hab.2.2.1
  simp only [Span.overlaps, Bool.and_eq_false_iff, decide_eq_false_iff_not] at hoverlap
  simp only
  omega

/-! ## The pending edits as a patch -/

/-- The change as an edit of a patch, which expects the text that its range has now. -/
def anchored (source : String) (c : Change) : PatchEdit :=
  ⟨c.span, (c.span.text? source).getD "", c.text⟩

theorem sound_anchored {source : String} {c : Change} (h : c.span.fits source = true) :
    Patch.Sound source (anchored source c) := by
  rcases Span.fits_iff.1 h with ⟨front, part, back, hsource, hstart, hstop⟩
  have htext : c.span.text? source = some (String.ofList part) := by
    unfold Span.text?
    rw [← hstart, ← hstop]
    exact sliceBytes?_eq hsource
  refine ⟨h, ?_⟩
  simp [anchored, htext]

theorem collide_anchored_iff {source : String} {a b : Change} (ha : a.span.start < a.span.stop)
    (hb : b.span.start < b.span.stop) :
    Patch.Collide (anchored source a) (anchored source b) ↔ a.span.overlaps b.span = true := by
  change a.span.overlaps b.span = true ∨ a.span.start = b.span.start ↔ _
  simp only [Span.overlaps, Bool.and_eq_true, decide_eq_true_eq]
  omega

section

variable {u : ProgramUnit} {p : Patch} (hp : p.edits.Perm ((pending u).map (anchored u.source)))
include hp

theorem Wide.sound_of_perm (h : Wide u) : ∀ e ∈ p.edits, Patch.Sound u.source e := by
  intro e he
  rcases List.mem_map.1 (hp.mem_iff.1 he) with ⟨c, hc, rfl⟩
  exact sound_anchored (h c hc).1

/-- The patch is applicable exactly if no two effective ranges overlap. -/
theorem Wide.applicable_iff (h : Wide u) :
    p.Applicable u.source ↔
      (pending u).Pairwise fun a b => a.span.overlaps b.span = false := by
  have hpairs : (p.edits.Pairwise fun a b => ¬ Patch.Collide a b) ↔
      (pending u).Pairwise fun a b => a.span.overlaps b.span = false := by
    rw [hp.pairwise_iff fun {a b} hab hba => hab hba.symm, List.pairwise_map]
    apply List.Pairwise.iff_of_mem
    intro a b ha hb
    rw [collide_anchored_iff (h a ha).2 (h b hb).2, Bool.not_eq_true]
  rw [← hpairs]
  exact ⟨fun happlicable => happlicable.clear, fun hclear => ⟨h.sound_of_perm hp, hclear⟩⟩

theorem perm_inOrder_sorted :
    (p.inOrder.map fun x => (x.1.span, x.1.replacement)).Perm (ranges (sorted u)) := by
  have hedits : p.inOrder.map (fun x => (x.1.span, x.1.replacement)) =
      (p.inOrder.map Prod.fst).map fun e => (e.span, e.replacement) := by
    rw [List.map_map]
    rfl
  have hfst : (p.inOrder.map Prod.fst).Perm p.edits := by
    have hmap := p.perm_inOrder.map Prod.fst
    rwa [List.zipIdx_map_fst] at hmap
  have hranges : ((pending u).map (anchored u.source)).map (fun e => (e.span, e.replacement)) =
      ranges (pending u) := by
    rw [List.map_map]
    rfl
  rw [hedits]
  calc
    ((p.inOrder.map Prod.fst).map fun e => (e.span, e.replacement)).Perm
        (((pending u).map (anchored u.source)).map fun e => (e.span, e.replacement)) :=
      (hfst.trans hp).map _
    _ = ranges (pending u) := hranges
    List.Perm _ (ranges (sorted u)) := ((perm_sorted u).map _).symm

/-- Both orders are the order of places, since there is only one in which the ranges stand apart. -/
theorem Wide.inOrder_eq_sorted (h : Wide u)
    (hclear : (pending u).Pairwise fun a b => a.span.overlaps b.span = false) :
    (p.inOrder.map fun x => (x.1.span, x.1.replacement)) = ranges (sorted u) := by
  have happlicable := (h.applicable_iff hp).2 hclear
  have hpatch : Apart (p.inOrder.map fun x => (x.1.span, x.1.replacement)) := by
    apply List.pairwise_map.2
    have hoverlap := (Patch.overlap?_inOrder_eq_none_iff happlicable.sound).2 happlicable.clear
    exact (Patch.pairwise_clear_inOrder happlicable.sound hoverlap).imp fun hab => hab.2.1
  refine List.Perm.eq_of_pairwise ?_ hpatch (h.apart_sorted hclear) (perm_inOrder_sorted hp)
  intro a b ha hb hab hba
  rcases List.mem_map.1 ((perm_inOrder_sorted hp).mem_iff.1 ha) with ⟨c, hc, rfl⟩
  rcases List.mem_map.1 hb with ⟨d, hd, rfl⟩
  have hcwide := (h.of_mem_sorted hc).2
  have hdwide := (h.of_mem_sorted hd).2
  simp only at hab hba
  omega

theorem Wide.apply_of_clear (h : Wide u)
    (hclear : (pending u).Pairwise fun a b => a.span.overlaps b.span = false) :
    p.apply u.source = (replaceRanges u.source (ranges (sorted u))).map .ok := by
  have hnone := Patch.error?_eq_none_iff.2 ((h.applicable_iff hp).2 hclear)
  unfold Patch.apply
  rw [hnone, h.inOrder_eq_sorted hp hclear]

/-- A patch whose edits are sound by themselves is only refused for an overlap. -/
theorem Wide.apply_of_not_clear (h : Wide u)
    (hclear : ¬ (pending u).Pairwise fun a b => a.span.overlaps b.span = false) :
    ∃ i j, p.apply u.source = .ok (.error (.overlap i j)) := by
  have hrefused : p.error? u.source ≠ none := by
    intro hnone
    exact hclear ((h.applicable_iff hp).1 (Patch.error?_eq_none_iff.1 hnone))
  rcases Option.ne_none_iff_exists'.1 hrefused with ⟨err, herr⟩
  have happly : p.apply u.source = .ok (.error err) := by simp [Patch.apply, herr]
  have hblames := Patch.blames_of_error? herr
  have hsound := h.sound_of_perm hp
  cases err with
  | outOfBounds i span length =>
    rcases hblames with ⟨e, he, rfl, -, hfits⟩
    have hfits' := (hsound e (List.mem_of_getElem? he)).1
    simp [hfits] at hfits'
  | staleAnchor i =>
    rcases hblames with ⟨e, he, -, hstale⟩
    exact absurd (hsound e (List.mem_of_getElem? he)).2 hstale
  | overlap i j => exact ⟨i, j, happly⟩

end

/-! ## Both splicers -/

theorem find?_isMisplaced_eq_none {u : ProgramUnit}
    (hplaced : ∀ s ∈ u.statements, s.isEdited = true → s.origin.span.fits u.source = true) :
    u.statements.find? (isMisplaced u.source) = none := by
  rw [List.find?_eq_none]
  intro s hs
  cases hedited : s.isEdited with
  | false => simp [isMisplaced, hedited]
  | true => simp [isMisplaced, hplaced s hs hedited]

theorem find?_isMisplaced_eq_some {u : ProgramUnit} {before after : List Statement} {s : Statement}
    (hstatements : u.statements = before ++ s :: after)
    (hbefore : ∀ t ∈ before, t.isEdited = true → t.origin.span.fits u.source = true)
    (hedited : s.isEdited = true) (hfits : s.origin.span.fits u.source = false) :
    u.statements.find? (isMisplaced u.source) = some s := by
  rw [List.find?_eq_some_iff_append]
  refine ⟨by simp [isMisplaced, hedited, hfits], before, after, hstatements, ?_⟩
  intro t ht
  cases ht' : t.isEdited with
  | false => simp [isMisplaced, ht']
  | true => simp [isMisplaced, hbefore t ht ht']

/-- Printing a unit whose edited statements are not empty is applying its pending edits as a patch,
in whatever order the patch holds them. Only a span that does not fit is noticed by printing alone:
the first one in the order of storage is reported. -/
theorem print_eq_apply_anchored (u : ProgramUnit) (p : Patch)
    (hp : p.edits.Perm ((pending u).map (anchored u.source)))
    (hends : ∀ s ∈ u.statements, s.isEdited = true → s.origin.span.start ≠ s.origin.span.stop) :
    (∀ before s after, u.statements = before ++ s :: after →
      (∀ t ∈ before, t.isEdited = true → t.origin.span.fits u.source = true) →
      s.isEdited = true → s.origin.span.fits u.source = false →
      print u = .ok (.error (.spanOutOfRange s.id))) ∧
    ((∀ s ∈ u.statements, s.isEdited = true → s.origin.span.fits u.source = true) →
      (∀ text, print u = .ok (.ok text) ↔ p.apply u.source = .ok (.ok text)) ∧
      ((∃ i j, print u = .ok (.error (.overlappingEdits i j))) ↔
        ∃ i j, p.apply u.source = .ok (.error (.overlap i j))) ∧
      ((∃ text, print u = .ok (.ok text)) ∨
        ∃ i j, print u = .ok (.error (.overlappingEdits i j)))) := by
  constructor
  · intro before s after hstatements hbefore hedited hfits
    rw [print_eq, find?_isMisplaced_eq_some hstatements hbefore hedited hfits]
  · intro hplaced
    have hwide := wide_of_statements hplaced hends
    have hprint := print_eq u
    rw [find?_isMisplaced_eq_none hplaced] at hprint
    by_cases hclear : (pending u).Pairwise fun a b => a.span.overlaps b.span = false
    · have hranges : ∀ r ∈ ranges (sorted u), r.1.fits u.source = true := by
        intro r hr
        rcases List.mem_map.1 hr with ⟨c, hc, rfl⟩
        exact (hwide.of_mem_sorted hc).1
      rcases replaceRanges_eq_weave hranges (hwide.apart_sorted hclear) with ⟨text, htext, -⟩
      have happly := hwide.apply_of_clear hp hclear
      rw [hwide.clash?_eq_none_iff_pairwise.2 hclear] at hprint
      simp only [htext, Except.map] at hprint happly
      simp [hprint, happly]
    · rcases hwide.apply_of_not_clear hp hclear with ⟨i, j, happly⟩
      rcases Option.ne_none_iff_exists'.1 fun hnone =>
        hclear (hwide.clash?_eq_none_iff_pairwise.1 hnone) with ⟨⟨a, b⟩, hclash⟩
      simp only [hclash] at hprint
      simp [hprint, happly]

/-- Two statements on lines of their own, of which the first one is removed and the second one is
replaced. -/
def twoLines : ProgramUnit where
  name := "m"
  path := "m.rs"
  source := "a();\n  b();\nc();"
  classes := [⟨"c", none, [⟨"f", none,
    ⟨[⟨0, [⟨1, ⟨2, 3, ⟨7, 11⟩⟩, "b();", [], some .remove⟩,
      ⟨0, ⟨1, 1, ⟨0, 4⟩⟩, "a();", [], some (.replace "x")⟩]⟩], []⟩⟩]⟩]

/-- The pending edits of `twoLines` in the order of their places. -/
def twoLinesPatch : Patch := ⟨"", [⟨⟨0, 4⟩, "a();", "x"⟩, ⟨⟨5, 12⟩, "  b();\n", ""⟩]⟩

theorem apply_twoLinesPatch : twoLinesPatch.apply twoLines.source = .ok (.ok "x\nc();") := by
  have horder : twoLinesPatch.inOrder = twoLinesPatch.edits.zipIdx := by
    apply List.mergeSort_of_pairwise
    decide
  unfold Patch.apply Patch.error?
  rw [horder]
  rfl

/-- Printing removes the whole line of the second statement, as the patch does. -/
theorem print_twoLines_eq_apply :
    twoLinesPatch.edits.Perm ((pending twoLines).map (anchored twoLines.source)) ∧
      (∀ s ∈ twoLines.statements,
        s.isEdited = true → s.origin.span.start ≠ s.origin.span.stop) ∧
      print twoLines = .ok (.ok "x\nc();") := by
  have hp : twoLinesPatch.edits.Perm ((pending twoLines).map (anchored twoLines.source)) := by
    decide +kernel
  have hends : ∀ s ∈ twoLines.statements,
      s.isEdited = true → s.origin.span.start ≠ s.origin.span.stop := by decide +kernel
  have hplaced : ∀ s ∈ twoLines.statements,
      s.isEdited = true → s.origin.span.fits twoLines.source = true := by decide +kernel
  have hagree := ((print_eq_apply_anchored twoLines twoLinesPatch hp hends).2 hplaced).1
  exact ⟨hp, hends, (hagree _).2 apply_twoLinesPatch⟩

end LintMend.Printer
