import LintMend.Frontend
import LintMend.Proofs.LoweredUnits
import LintMend.Proofs.Printing
import LintMend.Proofs.StatementEdits

/-!
# Units that are admitted

A unit is admitted if all its origins stand in its source and no two of its statements have the same
id. Whatever is loaded is admitted: JSON is checked for it, and source text is lowered that way. Edits
of statements keep a unit admitted, so that the spans it is printed by never fail to fit.
-/

namespace LintMend

/-- The origins stand in the source, and the ids of the statements are unique. -/
structure ProgramUnit.Admitted (u : ProgramUnit) : Prop where
  fits : ∀ part ∈ u.origins, part.2.span.fits u.source = true
  unique : u.ids.Nodup

/-! ## Loading -/

namespace Frontend

theorem fits_of_fault? {u : ProgramUnit} (h : u.fault? = none) :
    ∀ part ∈ u.origins, part.2.span.fits u.source = true := by
  intro part hpart
  have hnone : u.originFault? part.1 part.2 = none := List.findSome?_eq_none_iff.1 h part hpart
  by_contra hfits
  rw [ProgramUnit.originFault?, if_pos (by simpa using hfits)] at hnone
  exact Option.some_ne_none _ hnone

theorem repeatedId?_eq_none_iff {ids : List Nat} : repeatedId? ids = none ↔ ids.Nodup := by
  have hsorted : repeatedId? ids = none ↔ (ids.filter fun id => 1 < ids.count id) = [] := by
    rw [repeatedId?, List.head?_eq_none_iff, ← List.length_eq_zero_iff, List.length_mergeSort,
      List.length_eq_zero_iff]
  rw [hsorted, List.filter_eq_nil_iff, List.nodup_iff_count_le_one]
  constructor
  · intro h id
    by_cases hid : id ∈ ids
    · simpa using h id hid
    · rw [List.count_eq_zero_of_not_mem hid]
      exact Nat.zero_le 1
  · intro h id _
    simpa using h id

/-- A text is read as a unit if it writes one, and this unit has no fault and unique ids. -/
theorem parseModel_eq_ok_iff {name path source : String} {u : ProgramUnit} :
    parseModel name path source = .ok u ↔
      ((Json.parse? source).bind ProgramUnit.ofJson?).map (withName name) = some u ∧
        u.fault? = none ∧ (u.statements.map (·.id)).Nodup := by
  rw [← repeatedId?_eq_none_iff]
  unfold parseModel
  cases (Json.parse? source).bind ProgramUnit.ofJson? with
  | none => simp
  | some unit =>
    simp only [Option.map_some, Option.some.injEq]
    generalize withName name unit = v
    cases hfault : v.fault? with
    | some fault =>
      simp only [reduceCtorEq, false_iff]
      rintro ⟨rfl, hnone, -⟩
      exact absurd (hfault.symm.trans hnone) (by simp)
    | none =>
      cases hrepeated : repeatedId? (v.statements.map (·.id)) with
      | some id =>
        simp only [reduceCtorEq, false_iff]
        rintro ⟨rfl, -, hnone⟩
        exact absurd (hrepeated.symm.trans hnone) (by simp)
      | none =>
        simp only [Except.ok.injEq]
        constructor
        · rintro rfl
          exact ⟨rfl, hfault, hrepeated⟩
        · exact fun h => h.1

theorem admitted_of_parseModel {name path source : String} {u : ProgramUnit}
    (h : parseModel name path source = .ok u) : u.Admitted := by
  rcases parseModel_eq_ok_iff.1 h with ⟨-, hfault, hids⟩
  rw [ProgramUnit.map_id_statements] at hids
  exact ⟨fits_of_fault? hfault, hids⟩

theorem admitted_of_parseRust {name path source : String} {u : ProgramUnit}
    (h : parseRust name path source = .ok u) : u.Admitted := by
  unfold parseRust at h
  cases hclasses : Rust.classes? source with
  | none => simp [hclasses] at h
  | some classes =>
    obtain rfl : ⟨name, path, source, classes⟩ = u := by simpa [hclasses] using h
    rcases Option.map_eq_some_iff.1 hclasses with ⟨items, -, rfl⟩
    refine ⟨fits_of_fault? (Rust.fault?_unitOf name path source items), ?_⟩
    rw [← ProgramUnit.map_id_statements]
    exact (Rust.ids_unitOf_perm name path source items).nodup_iff.2 List.nodup_range

/-- Whatever is loaded is admitted, in either format. -/
theorem admitted_of_parse {name path source : String} {u : ProgramUnit}
    (h : parse name path source = .ok u) : u.Admitted := by
  unfold parse at h
  split at h
  · exact admitted_of_parseModel h
  · exact admitted_of_parseRust h
  · simp at h

end Frontend

/-! ## Editing -/

/-- A request to edit a statement: by its id, or by a key of the fix that removes console output. -/
inductive EditRequest where
  | set (id : Nat) (edit : Edit)
  | removal (key : String)
deriving DecidableEq, Repr

namespace EditRequest

/-- The unit after the request. A request that concerns no statement leaves it as it is. -/
def apply (u : ProgramUnit) : EditRequest → ProgramUnit
  | .set id edit => (u.modifyStatement? id (Statement.setEdit edit)).getD u
  | .removal key => (ConsoleOutput.remove? u key).getD u

/-- The unit after a sequence of requests. -/
def applyAll (u : ProgramUnit) (requests : List EditRequest) : ProgramUnit :=
  requests.foldl apply u

/-- What a request means for a statement. -/
def onStatement : EditRequest → Statement → Statement
  | .set id edit, s => if s.id = id then s.setEdit edit else s
  | .removal key, s =>
    if wordOfText? key = some s.id ∧ s.edit = none then s.setEdit .remove else s

theorem onStatement_keeps (r : EditRequest) (s : Statement) :
    (r.onStatement s).id = s.id ∧ (r.onStatement s).origin = s.origin ∧
      (r.onStatement s).expressions = s.expressions := by
  cases r with
  | set id edit =>
    rw [onStatement]
    split <;> exact ⟨rfl, rfl, rfl⟩
  | removal key =>
    rw [onStatement]
    split <;> exact ⟨rfl, rfl, rfl⟩

/-- The statements that a request changes have the id that it names. -/
theorem exists_id_of_onStatement_ne (r : EditRequest) :
    ∃ id : Option Nat, ∀ s, r.onStatement s ≠ s → id = some s.id := by
  cases r with
  | set id edit =>
    refine ⟨some id, fun s hs => ?_⟩
    by_contra hid
    exact hs (if_neg fun heq => hid (congrArg some heq.symm))
  | removal key =>
    refine ⟨wordOfText? key, fun s hs => ?_⟩
    by_contra hid
    exact hs (if_neg fun hboth => hid hboth.1)

/-- With unique ids, a request does to the unit what it means for its statements. -/
theorem apply_eq {u : ProgramUnit} (h : u.ids.Nodup) (r : EditRequest) :
    r.apply u = u.mapStatements r.onStatement := by
  cases r with
  | set id edit =>
    have hset : onStatement (.set id edit) = Statement.onId id (Statement.setEdit edit) := by
      funext s
      simp [onStatement, Statement.onId]
    rw [apply, ProgramUnit.modifyStatement?_eq h, hset]
    split
    · rfl
    · next hid =>
      rw [Option.getD_none, ProgramUnit.mapStatements_eq_self]
      intro s hs
      have hne : s.id ≠ id := by
        rintro rfl
        exact hid (u.map_id_statements ▸ List.mem_map_of_mem hs)
      simp [Statement.onId, hne]
  | removal key =>
    cases hchange : ConsoleOutput.remove? u key with
    | none =>
      rw [apply, hchange, Option.getD_none, ProgramUnit.mapStatements_eq_self]
      intro s hs
      apply if_neg
      rintro ⟨hkey, hedit⟩
      have hsome := (ConsoleOutput.remove?_eq_some_iff h).2
        ⟨s, hs, hkey, by simp [Statement.isEdited, hedit], rfl⟩
      exact Option.some_ne_none _ (hsome.symm.trans hchange)
    | some changed =>
      rcases (ConsoleOutput.remove?_eq_some_iff h).1 hchange with ⟨s, hs, hkey, hedit, rfl⟩
      rw [apply, hchange, Option.getD_some]
      apply ProgramUnit.mapStatements_congr
      intro t ht
      by_cases hid : t.id = s.id
      · obtain rfl := ProgramUnit.eq_of_id_eq h ht hs hid
        have hnone : t.edit = none := by simpa [Statement.isEdited] using hedit
        simp [onStatement, Statement.onId, Statement.setEdit, hkey, hnone]
      · have hne : ¬ s.id = t.id := fun heq => hid heq.symm
        simp [onStatement, Statement.onId, hid, hne, hkey]

end EditRequest

namespace ProgramUnit.Admitted

variable {u : ProgramUnit}

theorem apply (h : u.Admitted) (r : EditRequest) : (r.apply u).Admitted := by
  have hid : ∀ s, (r.onStatement s).id = s.id := fun s => (r.onStatement_keeps s).1
  have horigin : ∀ s, (r.onStatement s).origin = s.origin := fun s => (r.onStatement_keeps s).2.1
  have hexpressions : ∀ s, (r.onStatement s).expressions = s.expressions := fun s =>
    (r.onStatement_keeps s).2.2
  rw [EditRequest.apply_eq h.unique]
  constructor
  · rw [origins_mapStatements u hid horigin hexpressions]
    exact h.fits
  · rw [ids_mapStatements u hid]
    exact h.unique

theorem applyAll (h : u.Admitted) (requests : List EditRequest) :
    (EditRequest.applyAll u requests).Admitted := by
  induction requests generalizing u with
  | nil => exact h
  | cons r requests ih => exact ih (h.apply r)

theorem statement_fits (h : u.Admitted) {s : Statement} (hs : s ∈ u.statements) :
    s.origin.span.fits u.source = true := by
  rcases List.mem_flatMap.1 hs with ⟨c, hc, hs⟩
  rcases List.mem_flatMap.1 hs with ⟨m, hm, hs⟩
  apply h.fits (s!"statement {s.id}", s.origin)
  refine List.mem_flatMap.2 ⟨c, hc, List.mem_append_right _ ?_⟩
  refine List.mem_flatMap.2 ⟨m, hm, List.mem_append_right _ ?_⟩
  exact List.mem_flatMap.2 ⟨s, hs, List.mem_cons_self⟩

theorem print_ne_spanOutOfRange (h : u.Admitted) (id : Nat) :
    Printer.print u ≠ .ok (.error (.spanOutOfRange id)) := by
  have hplaced : u.statements.find? (Printer.isMisplaced u.source) = none := by
    rw [List.find?_eq_none]
    intro s hs
    simp [Printer.isMisplaced, h.statement_fits hs]
  rw [Printer.print_eq, hplaced]
  dsimp only
  split
  · simp
  · cases replaceRanges u.source (Printer.ranges (Printer.sorted u)) <;> simp [Except.map]

end ProgramUnit.Admitted

/-- A unit that has been loaded stays printable. After any requests all origins stand in the source
and ids are unique; the next request edits the one statement that it means and changes nothing else
of the unit; and printing never meets a span that does not fit. -/
theorem admitted_after_requests {name path source : String} {loaded : ProgramUnit}
    (h : Frontend.parse name path source = .ok loaded) (requests : List EditRequest) :
    let u := EditRequest.applyAll loaded requests
    (∀ part ∈ u.origins, part.2.span.fits u.source = true) ∧
      (u.statements.map (·.id)).Nodup ∧
      (∀ r : EditRequest, r.apply u = u.mapStatements r.onStatement ∧
        ∀ s ∈ u.statements, ∀ t ∈ u.statements,
          r.onStatement s ≠ s → r.onStatement t ≠ t → s = t) ∧
      ∀ id, Printer.print u ≠ .ok (.error (.spanOutOfRange id)) := by
  intro u
  have hu : u.Admitted := (Frontend.admitted_of_parse h).applyAll requests
  refine ⟨hu.fits, ?_, ?_, hu.print_ne_spanOutOfRange⟩
  · rw [ProgramUnit.map_id_statements]
    exact hu.unique
  · intro r
    refine ⟨EditRequest.apply_eq hu.unique r, ?_⟩
    intro s hs t ht hschanged htchanged
    rcases r.exists_id_of_onStatement_ne with ⟨id, hid⟩
    have hsame : some s.id = some t.id := (hid s hschanged).symm.trans (hid t htchanged)
    exact ProgramUnit.eq_of_id_eq hu.unique hs ht (Option.some.inj hsame)

/-- A function of two statements, the first of which writes to the console. -/
def greeting : String := "fn f() \x7b\n    println!(\"é\");\n    g();\n\x7d\n"

theorem ids_greeting :
    ∃ loaded, Frontend.parse "f.rs" "f.rs" greeting = .ok loaded ∧ loaded.ids = [0, 1] := by
  have hids : (Frontend.parse "f.rs" "f.rs" greeting).toOption.map (·.ids) = some [0, 1] := by
    decide +kernel
  cases hparse : Frontend.parse "f.rs" "f.rs" greeting with
  | error e => simp [hparse, Except.toOption] at hids
  | ok loaded => exact ⟨loaded, rfl, by simpa [hparse, Except.toOption] using hids⟩

theorem admitted_greeting :
    ∃ loaded, Frontend.parse "f.rs" "f.rs" greeting = .ok loaded ∧ loaded.ids = [0, 1] ∧
      let u := EditRequest.applyAll loaded
        [.removal "0", .set 1 (.replace "h();"), .removal "0", .set 9 .remove]
      (∀ part ∈ u.origins, part.2.span.fits u.source = true) ∧
        (u.statements.map (·.id)).Nodup ∧
        (∀ r : EditRequest, r.apply u = u.mapStatements r.onStatement ∧
          ∀ s ∈ u.statements, ∀ t ∈ u.statements,
            r.onStatement s ≠ s → r.onStatement t ≠ t → s = t) ∧
        ∀ id, Printer.print u ≠ .ok (.error (.spanOutOfRange id)) := by
  rcases ids_greeting with ⟨loaded, hparse, hids⟩
  exact ⟨loaded, hparse, hids, admitted_after_requests hparse _⟩

end LintMend
