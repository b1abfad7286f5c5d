import LintMend.Proofs.SplicerAgreement
import LintMend.Proofs.StatementEdits

/-!
# Units with removed statements

When statements are removed, nothing is inserted, and all that printing can stumble over are
overlaps. Neighbours are compared, so that an overlap stays unseen only if an empty statement stands
between the two that overlap.
-/

namespace LintMend

namespace ProgramUnit

/-- The unit with the statements of the ids removed. -/
def without (u : ProgramUnit) (ids : List Nat) : ProgramUnit :=
  u.mapStatements fun s => if s.id ∈ ids then s.setEdit .remove else s

theorem without_nil (u : ProgramUnit) : u.without [] = u := by
  apply mapStatements_eq_self
  intro s _
  simp

theorem ids_without (u : ProgramUnit) (ids : List Nat) : (u.without ids).ids = u.ids := by
  apply ids_mapStatements
  intro s
  split <;> rfl

theorem outputName_without (u : ProgramUnit) (ids : List Nat) :
    (u.without ids).outputName = u.outputName := by
  unfold outputName without
  rw [name_mapStatements]

theorem mapStatements_onId (u : ProgramUnit) (id : Nat) :
    u.mapStatements (Statement.onId id (Statement.setEdit .remove)) = u.without [id] := by
  unfold without
  congr 1
  funext s
  simp [Statement.onId]

/-- Removing one more statement. -/
theorem without_without (u : ProgramUnit) (ids : List Nat) (id : Nat) :
    (u.without ids).without [id] = u.without (id :: ids) := by
  unfold without
  rw [mapStatements_mapStatements]
  congr 1
  funext s
  by_cases hmem : s.id ∈ ids
  · simp [Statement.setEdit, hmem]
  · simp [Statement.setEdit, hmem]

theorem notMem_of_mem_statements_without {u : ProgramUnit} {ids : List Nat} {s : Statement}
    (hs : s ∈ (u.without ids).statements) (hedit : s.isEdited = false) :
    s.id ∉ ids ∧ s.id ∈ u.ids := by
  rw [without, statements_mapStatements] at hs
  rcases List.mem_map.1 hs with ⟨t, ht, rfl⟩
  split at hedit
  · simp [Statement.setEdit, Statement.isEdited] at hedit
  · next hmem =>
    rw [if_neg hmem]
    exact ⟨hmem, u.map_id_statements ▸ List.mem_map_of_mem ht⟩

/-! ## Printing what is left -/

/-- The change that the removal of a statement makes. -/
def removalOf (u : ProgramUnit) (s : Statement) : Change := Printer.changeOf u.source s .remove

/-- Two statements whose lines overlap are not compared when both are removed: between them stands an
empty statement, at the start of the first and with a larger id. -/
def Masked (u : ProgramUnit) : Prop :=
  ∃ a ∈ u.statements, ∃ b ∈ u.statements, ∃ c ∈ u.statements,
    a.id < b.id ∧ a.id ≠ c.id ∧ Printer.Change.le (u.removalOf b) (u.removalOf c) = true ∧
      (u.removalOf a).span.overlaps (u.removalOf c).span = true ∧
      (u.removalOf b).span = ⟨(u.removalOf a).span.start, (u.removalOf a).span.start⟩

theorem pending_without {u : ProgramUnit} (h : ∀ s ∈ u.statements, s.edit = none)
    (ids : List Nat) :
    Printer.pending (u.without ids) = (u.statements.filter (·.id ∈ ids)).map u.removalOf := by
  have hedited : ∀ ss : List Statement, (∀ s ∈ ss, s.edit = none) →
      (((ss.map fun s => if s.id ∈ ids then s.setEdit .remove else s).filterMap fun s =>
        s.edit.map (s, ·)).map fun p => Printer.changeOf u.source p.1 p.2) =
        (ss.filter (·.id ∈ ids)).map u.removalOf := by
    intro ss hss
    induction ss with
    | nil => rfl
    | cons s ss ih =>
      rw [List.forall_mem_cons] at hss
      by_cases hmem : s.id ∈ ids
      · simp only [List.map_cons, hmem, if_true, Statement.setEdit, List.filterMap_cons,
          Option.map_some, decide_true, List.filter_cons_of_pos]
        exact congrArg _ (ih hss.2)
      · simp only [List.map_cons, hmem, if_false, List.filterMap_cons, hss.1, Option.map_none,
          decide_false, Bool.false_eq_true, not_false_eq_true, List.filter_cons_of_neg]
        exact ih hss.2
  unfold Printer.pending Printer.edited
  rw [without, statements_mapStatements, source_mapStatements]
  exact hedited u.statements h

/-- All changes of removed statements are removals, and no two come from the same statement. -/
theorem sorted_without {u : ProgramUnit} (hids : u.ids.Nodup)
    (h : ∀ s ∈ u.statements, s.edit = none) (ids : List Nat) :
    (∀ c ∈ Printer.sorted (u.without ids), ∃ s ∈ u.statements, c = u.removalOf s) ∧
      ((Printer.sorted (u.without ids)).map (·.id)).Nodup := by
  have hperm := Printer.perm_sorted (u.without ids)
  rw [pending_without h] at hperm
  constructor
  · intro c hc
    rcases List.mem_map.1 (hperm.mem_iff.1 hc) with ⟨s, hs, rfl⟩
    exact ⟨s, List.mem_of_mem_filter hs, rfl⟩
  · have hmap : (((u.statements.filter (·.id ∈ ids)).map u.removalOf).map (·.id)) =
        (u.statements.filter (·.id ∈ ids)).map (·.id) := by
      rw [List.map_map]
      rfl
    rw [(hperm.map (·.id)).nodup_iff, hmap]
    rw [← map_id_statements] at hids
    exact hids.sublist (List.filter_sublist.map _)

theorem masked_of_hidden {u : ProgramUnit} (hids : u.ids.Nodup)
    (h : ∀ s ∈ u.statements, s.edit = none) {ids : List Nat}
    (hhidden : Printer.Hidden (Printer.sorted (u.without ids))) : u.Masked := by
  rcases sorted_without hids h ids with ⟨hremoval, hnodup⟩
  rcases hhidden with ⟨x, y, z, hsub, hoverlap, hempty⟩
  have hdistinct := hnodup.sublist (hsub.map (·.id))
  have hordered := (Printer.pairwise_le_sorted (u.without ids)).sublist hsub
  rcases hremoval x (hsub.subset (by simp)) with ⟨a, ha, rfl⟩
  rcases hremoval y (hsub.subset (by simp)) with ⟨b, hb, rfl⟩
  rcases hremoval z (hsub.subset (by simp)) with ⟨c, hc, rfl⟩
  have hab : Printer.Change.le (u.removalOf a) (u.removalOf b) = true :=
    List.rel_of_pairwise_cons hordered List.mem_cons_self
  have hbc : Printer.Change.le (u.removalOf b) (u.removalOf c) = true :=
    List.rel_of_pairwise_cons (List.pairwise_cons.1 hordered).2 List.mem_cons_self
  have hne : a.id ≠ b.id ∧ a.id ≠ c.id := by
    have hfirst := (List.nodup_cons.1 hdistinct).1
    constructor
    · rintro heq
      exact hfirst (List.mem_cons.2 (.inl heq))
    · rintro heq
      exact hfirst (List.mem_cons_of_mem _ (List.mem_cons.2 (.inl heq)))
  have hle : a.id ≤ b.id := by
    simp only [Printer.Change.le, hempty, Bool.or_eq_true, Bool.and_eq_true, decide_eq_true_eq,
      beq_iff_eq] at hab
    rcases hab with hlt | ⟨-, hle⟩
    · exact absurd hlt (Nat.lt_irrefl _)
    · exact hle
  exact ⟨a, ha, b, hb, c, hc, Nat.lt_of_le_of_ne hle hne.1, hne.2, hbc, hoverlap, hempty⟩

/-- Printing removed statements is given up only if an overlap is masked. -/
theorem masked_of_print {u : ProgramUnit} (hids : u.ids.Nodup)
    (h : ∀ s ∈ u.statements, s.edit = none) {ids : List Nat} {x : Abort}
    (hprint : Printer.print (u.without ids) = .error x) : u.Masked := by
  rcases sorted_without hids h ids with ⟨hremoval, -⟩
  cases hfind : (u.without ids).statements.find? (Printer.isMisplaced (u.without ids).source) with
  | some s => simp [Printer.print_eq, hfind] at hprint
  | none =>
    cases hclash : Printer.clash? (Printer.sorted (u.without ids)) with
    | some pair => simp [Printer.print_eq, hfind, hclash] at hprint
    | none =>
      have hstarts := (Printer.pairwise_le_sorted (u.without ids)).imp Printer.start_le_of_le
      have hends : ∀ c ∈ Printer.sorted (u.without ids), c.span.start ≤ c.span.stop :=
        fun c hc => Span.start_le_stop (Printer.fits_of_mem_sorted hfind hc)
      rcases Printer.pairwise_or_hidden hstarts hends hclash with happart | hhidden
      · -- Removals insert nothing, so nothing is swallowed either.
        have horderly : Printer.Orderly (u.without ids) := by
          refine (List.Pairwise.and_mem.1 happart).imp fun {a b} hab => ?_
          refine ⟨hab.2.2, fun hswallows => ?_⟩
          rcases hremoval b hab.2.1 with ⟨s, -, rfl⟩
          exact hswallows.2.2.2 rfl
        rcases Printer.faithful_of_orderly horderly with ⟨printed, hok, -⟩
        rw [hok] at hprint
        simp at hprint
      · exact masked_of_hidden hids h hhidden

/-! ## One removed statement -/

/-- With unique ids, the removal of a statement is the only change. -/
theorem pending_without_singleton {u : ProgramUnit} (hids : u.ids.Nodup)
    (h : ∀ s ∈ u.statements, s.edit = none) {s : Statement} (hs : s ∈ u.statements) :
    Printer.pending (u.without [s.id]) = [u.removalOf s] := by
  have hnodup : u.statements.Nodup := by
    rw [← map_id_statements] at hids
    exact hids.of_map
  have honly : u.statements.filter (·.id ∈ [s.id]) = u.statements.filter (· == s) := by
    apply List.filter_congr
    intro t ht
    rw [Bool.eq_iff_iff, decide_eq_true_iff, List.mem_singleton, beq_iff_eq]
    constructor
    · exact eq_of_id_eq hids ht hs
    · exact congrArg Statement.id
  rw [pending_without h, honly, List.filter_beq, List.count_eq_one_of_mem hnodup hs]
  rfl

theorem find?_isMisplaced_without {u : ProgramUnit} (hids : u.ids.Nodup)
    (h : ∀ s ∈ u.statements, s.edit = none) {s : Statement} (hs : s ∈ u.statements)
    (hfits : s.origin.span.fits u.source = true) :
    (u.without [s.id]).statements.find? (Printer.isMisplaced (u.without [s.id]).source) = none := by
  apply Printer.find?_isMisplaced_eq_none
  intro t ht hedited
  rw [without, statements_mapStatements] at ht
  rcases List.mem_map.1 ht with ⟨r, hr, rfl⟩
  by_cases hid : r.id ∈ [s.id]
  · rw [if_pos hid, eq_of_id_eq hids hr hs (List.mem_singleton.1 hid)]
    exact hfits
  · rw [if_neg hid, Statement.isEdited, h r hr] at hedited
    cases hedited

/-- A unit with one removed statement is printed without it and without some white space around it. -/
theorem exists_print_without {u : ProgramUnit} (hids : u.ids.Nodup)
    (h : ∀ s ∈ u.statements, s.edit = none) {s : Statement} (hs : s ∈ u.statements)
    {front part back : List Char} (hsource : u.source.toList = front ++ (part ++ back))
    (hstart : Text.bytes front = s.origin.span.start)
    (hstop : Text.bytes front + Text.bytes part = s.origin.span.stop) :
    ∃ lines before after rest, front = lines ++ before ∧ back = after ++ rest ∧
      Text.allBlank before = true ∧ Text.allBlank after = true ∧
      Printer.print (u.without [s.id]) = .ok (.ok (String.ofList (lines ++ rest))) := by
  rcases Printer.exists_ownedLines hsource hstart hstop with
    ⟨lines, before, after, rest, rfl, rfl, hbefore, hafter, hfirst, hlast⟩
  have hfits := Span.fits_iff.2 ⟨_, part, _, hsource, hstart, hstop⟩
  have hwhole : u.source.toList = lines ++ ((before ++ (part ++ after)) ++ rest) := by
    rw [hsource]
    simp
  have hsorted : Printer.sorted (u.without [s.id]) = [u.removalOf s] := by
    rw [Printer.sorted, pending_without_singleton hids h hs, List.mergeSort_singleton]
  have hreplaced : replaceRanges u.source [((u.removalOf s).span, "")] =
      .ok (String.ofList (lines ++ rest)) := by
    rw [replaceRanges_cons, replaceRanges_nil]
    exact replaceRange_eq hwhole hfirst hlast ""
  refine ⟨lines, before, after, rest, rfl, rfl, hbefore, hafter, ?_⟩
  simp only [Printer.print_eq, find?_isMisplaced_without hids h hs hfits, hsorted, Printer.clash?]
  exact congrArg (Except.map Except.ok) hreplaced

end ProgramUnit

end LintMend
