import LintMend.Program.Printer
import LintMend.Proofs.Splicing

/-!
# Printing and what it leaves alone

Printing makes the changes of the pending edits one after the other. It is faithful if that is the
same as making all of them at once. For this it is enough that no two effective ranges overlap and
that no text is inserted where a range that is replaced later begins.
-/

namespace LintMend.Printer

/-! ## Owned lines -/

theorem exists_append_lastLine (cs : List Char) : ∃ lines, cs = lines ++ lastLine cs := by
  refine ⟨(cs.reverse.dropWhile (· != '\n')).reverse, ?_⟩
  rw [lastLine, ← List.reverse_append, List.takeWhile_append_dropWhile, List.reverse_reverse]

/-- Behind whole lines, a part of a line is the last line. -/
theorem lastLine_append {above part : List Char}
    (habove : above = [] ∨ ∃ xs, above = xs ++ ['\n']) (hpart : '\n' ∉ part) :
    lastLine (above ++ part) = part := by
  have hall : ∀ c ∈ part.reverse, (c != '\n') = true := by
    intro c hc
    rw [bne_iff_ne]
    exact fun heq => hpart (heq ▸ List.mem_reverse.1 hc)
  have hstop : above.reverse.takeWhile (· != '\n') = [] := by
    rcases habove with rfl | ⟨xs, rfl⟩
    · rfl
    · rw [List.reverse_append]
      rfl
  rw [lastLine, List.reverse_append, List.takeWhile_append_of_pos hall, hstop, List.append_nil,
    List.reverse_reverse]

/-- The characters up to the next newline, which is counted if there is one. A newline is blank. -/
theorem exists_append_line (cs : List Char) : ∃ line rest, cs = line ++ rest ∧
    Text.bytes line = Text.bytes (cs.takeWhile (· != '\n')) +
        (if (cs.dropWhile (· != '\n')).isEmpty then 0 else 1) ∧
      Text.allBlank line = Text.allBlank (cs.takeWhile (· != '\n')) := by
  have hsplit := (cs.takeWhile_append_dropWhile (p := (· != '\n'))).symm
  cases hdrop : cs.dropWhile (· != '\n') with
  | nil => exact ⟨cs.takeWhile (· != '\n'), [], by rw [hdrop] at hsplit; exact hsplit, by simp, rfl⟩
  | cons c rest =>
    have hc : c = '\n' := by
      have hhead := List.head_dropWhile_not (· != '\n') (l := cs) (by simp [hdrop])
      simpa [hdrop] using hhead
    subst hc
    have hblank : Text.isBlank '\n' = true := by decide
    refine ⟨cs.takeWhile (· != '\n') ++ ['\n'], rest, ?_, ?_, ?_⟩
    · rw [hdrop] at hsplit
      simpa using hsplit
    · rw [Text.bytes_append]
      rfl
    · simp [Text.allBlank, hblank]

/-- Whether a span is widened is decided by the part of its first line before it and the part of its
last line behind it. -/
theorem ownedLines_of_append {source : String} {span : Span} {front part back : List Char}
    (hsource : source.toList = front ++ (part ++ back)) (hstart : Text.bytes front = span.start)
    (hstop : Text.bytes front + Text.bytes part = span.stop) :
    ownedLines source span =
      if Text.allBlank (lastLine front) && Text.allBlank (back.takeWhile (· != '\n')) then
        ⟨span.start - Text.bytes (lastLine front), span.stop +
          Text.bytes (back.takeWhile (· != '\n')) +
            (if (back.dropWhile (· != '\n')).isEmpty then 0 else 1)⟩
      else span := by
  have hbefore : Text.charsBefore? source.toList span.start = some front.length := by
    rw [hsource, ← hstart, Text.charsBefore?_append]
  have hupto : Text.charsBefore? source.toList span.stop = some (front ++ part).length := by
    rw [hsource, ← hstop, ← Text.bytes_append, ← List.append_assoc, Text.charsBefore?_append]
  have htake : source.toList.take front.length = front := by simp [hsource]
  have hdrop : source.toList.drop (front ++ part).length = back := by
    rw [hsource, ← List.append_assoc, List.drop_left]
  simp only [ownedLines, hbefore, hupto, htake, hdrop]

/-- Widening a span to its lines adds white space on both sides, if anything. -/
theorem exists_ownedLines {source : String} {span : Span} {front part back : List Char}
    (hsource : source.toList = front ++ (part ++ back)) (hstart : Text.bytes front = span.start)
    (hstop : Text.bytes front + Text.bytes part = span.stop) :
    ∃ lines before after rest, front = lines ++ before ∧ back = after ++ rest ∧
      Text.allBlank before = true ∧ Text.allBlank after = true ∧
      Text.bytes lines = (ownedLines source span).start ∧
      Text.bytes lines + Text.bytes (before ++ (part ++ after)) = (ownedLines source span).stop := by
  rw [ownedLines_of_append hsource hstart hstop]
  split
  · next hblank =>
    rw [Bool.and_eq_true] at hblank
    obtain ⟨lines, hlines⟩ := exists_append_lastLine front
    obtain ⟨line, rest, hback, hline, hall⟩ := exists_append_line back
    have hbytes : Text.bytes front = Text.bytes lines + Text.bytes (lastLine front) := by
      rw [← Text.bytes_append, ← hlines]
    refine ⟨lines, lastLine front, line, rest, hlines, hback, hblank.1, hall.trans hblank.2, ?_, ?_⟩
    · simp only
      omega
    · simp only [Text.bytes_append, hline]
      omega
  · refine ⟨front, [], [], back, ?_, rfl, rfl, rfl, hstart, ?_⟩
    · rw [List.append_nil]
    · rw [List.nil_append, List.append_nil]
      exact hstop

theorem fits_ownedLines {source : String} {span : Span} (h : span.fits source = true) :
    (ownedLines source span).fits source = true := by
  obtain ⟨front, part, back, hsource, hstart, hstop⟩ := Span.fits_iff.1 h
  obtain ⟨lines, before, after, rest, rfl, rfl, -, -, hfirst, hlast⟩ :=
    exists_ownedLines hsource hstart hstop
  refine Span.fits_iff.2 ⟨lines, before ++ (part ++ after), rest, ?_, hfirst, hlast⟩
  rw [hsource]
  simp

/-! ## What is printed -/

/-- The statements with pending edits, as they are stored. -/
def edited (u : ProgramUnit) : List (Statement × Edit) :=
  u.statements.filterMap fun s => s.edit.map (s, ·)

/-- The changes that the pending edits make: the effective ranges and their new texts. -/
def pending (u : ProgramUnit) : List Change :=
  (edited u).map fun p => changeOf u.source p.1 p.2

/-- The changes in the order in which neighbours are compared. They are made from the last one to the
first. -/
def sorted (u : ProgramUnit) : List Change := (pending u).mergeSort Change.le

/-- The ranges of changes with their new texts. -/
def ranges (cs : List Change) : List (Span × String) := cs.map fun c => (c.span, c.text)

/-- The statement is to be edited, but its span does not fit the source. -/
def isMisplaced (source : String) (s : Statement) : Bool :=
  s.isEdited && !s.origin.span.fits source

theorem changes_eq (source : String) (ss : List Statement) :
    changes source ss =
      match ss.find? (isMisplaced source) with
      | some s => .error (.spanOutOfRange s.id)
      | none => .ok ((ss.filterMap fun s => s.edit.map (s, ·)).map fun p =>
          changeOf source p.1 p.2) := by
  induction ss with
  | nil => rfl
  | cons s rest ih =>
    unfold changes
    cases hedit : s.edit with
    | none =>
      have hplaced : isMisplaced source s = false := by simp [isMisplaced, Statement.isEdited, hedit]
      simp [hplaced, hedit, ih]
    | some edit =>
      cases hfits : s.origin.span.fits source with
      | false => simp [isMisplaced, Statement.isEdited, hedit, hfits]
      | true =>
        have hplaced : isMisplaced source s = false := by simp [isMisplaced, hfits]
        rw [List.find?_cons_of_neg (by simp [hplaced]), ih]
        cases rest.find? (isMisplaced source) <;> simp [hedit, Except.map]

theorem print_eq (u : ProgramUnit) :
    print u =
      match u.statements.find? (isMisplaced u.source) with
      | some s => .ok (.error (.spanOutOfRange s.id))
      | none =>
        match clash? (sorted u) with
        | some (a, b) => .ok (.error (.overlappingEdits a.id b.id))
        | none => (replaceRanges u.source (ranges (sorted u))).map .ok := by
  rw [print, changes_eq]
  cases u.statements.find? (isMisplaced u.source) <;> rfl

theorem fits_changeOf {source : String} {s : Statement} {edit : Edit}
    (h : s.origin.span.fits source = true) : (changeOf source s edit).span.fits source = true := by
  cases edit with
  | replace text => exact h
  | remove => exact fits_ownedLines h

theorem mem_edited_iff {u : ProgramUnit} {p : Statement × Edit} :
    p ∈ edited u ↔ p.1 ∈ u.statements ∧ p.1.edit = some p.2 := by
  rw [edited, List.mem_filterMap]
  constructor
  · rintro ⟨s, hs, hp⟩
    obtain ⟨edit, hedit, rfl⟩ := Option.map_eq_some_iff.1 hp
    exact ⟨hs, hedit⟩
  · rintro ⟨hs, hedit⟩
    exact ⟨p.1, hs, by rw [hedit]; rfl⟩

theorem mem_pending_iff {u : ProgramUnit} {c : Change} :
    c ∈ pending u ↔ ∃ s ∈ u.statements, ∃ edit, s.edit = some edit ∧
      c = changeOf u.source s edit := by
  rw [pending, List.mem_map]
  constructor
  · rintro ⟨p, hp, rfl⟩
    obtain ⟨hs, hedit⟩ := mem_edited_iff.1 hp
    exact ⟨p.1, hs, p.2, hedit, rfl⟩
  · rintro ⟨s, hs, edit, hedit, rfl⟩
    exact ⟨(s, edit), mem_edited_iff.2 ⟨hs, hedit⟩, rfl⟩

theorem perm_sorted (u : ProgramUnit) : (sorted u).Perm (pending u) := List.mergeSort_perm _ _

theorem fits_of_mem_sorted {u : ProgramUnit}
    (h : u.statements.find? (isMisplaced u.source) = none) {c : Change} (hc : c ∈ sorted u) :
    c.span.fits u.source = true := by
  obtain ⟨s, hs, edit, hedit, rfl⟩ := mem_pending_iff.1 ((perm_sorted u).mem_iff.1 hc)
  apply fits_changeOf
  simpa [isMisplaced, Statement.isEdited, hedit] using List.find?_eq_none.1 h s hs

theorem pairwise_le_sorted (u : ProgramUnit) :
    (sorted u).Pairwise fun a b => Change.le a b = true := by
  apply List.pairwise_mergeSort
  · intro a b c hab hbc
    simp only [Change.le, Bool.or_eq_true, Bool.and_eq_true, decide_eq_true_eq, beq_iff_eq] at *
    omega
  · intro a b
    simp only [Change.le, Bool.or_eq_true, Bool.and_eq_true, decide_eq_true_eq, beq_iff_eq]
    omega

theorem start_le_of_le {a b : Change} (h : Change.le a b = true) :
    a.span.start ≤ b.span.start := by
  simp only [Change.le, Bool.or_eq_true, Bool.and_eq_true, decide_eq_true_eq, beq_iff_eq] at h
  omega

/-! ## Faithful printing -/

/-- Printing comes to an end, and a text is only printed if no two effective ranges overlap. The text
is then the source with all of them replaced at once. -/
def Faithful (u : ProgramUnit) : Prop :=
  ∃ printed, print u = .ok printed ∧ ∀ text, printed = .ok text →
    (pending u).Pairwise (fun a b => a.span.overlaps b.span = false) ∧
      IsSplice u.source (ranges (pending u)) text

/-- The second change inserts a text where the first one, which is made later, takes bytes away. -/
def Swallows (a b : Change) : Prop :=
  a.span.start < a.span.stop ∧ b.span.start = a.span.start ∧ b.span.stop = a.span.start ∧
    b.text ≠ ""

/-- No two effective ranges overlap, and no change swallows the text of one that is made before. -/
def Orderly (u : ProgramUnit) : Prop :=
  (sorted u).Pairwise fun a b => a.span.overlaps b.span = false ∧ ¬ Swallows a b

theorem Orderly.settled {u : ProgramUnit} (h : Orderly u)
    (hfits : ∀ c ∈ sorted u, c.span.fits u.source = true) : Settled (ranges (sorted u)) := by
  apply List.pairwise_map.2
  refine (List.Pairwise.and_mem.1 ((pairwise_le_sorted u).and h)).imp fun {a b} hab => ?_
  obtain ⟨-, hb, hle, hoverlap, hswallow⟩ := hab
  have hstart := start_le_of_le hle
  have hends := Span.start_le_stop (hfits b hb)
  refine ⟨hstart, ?_⟩
  by_cases hstop : a.span.stop ≤ b.span.start
  · exact .inl hstop
  · right
    simp only [Span.overlaps, Bool.and_eq_false_iff, decide_eq_false_iff_not] at hoverlap
    have htext : b.text = "" := by
      by_contra htext
      exact hswallow ⟨by omega, by omega, by omega, htext⟩
    exact ⟨by simp [isIdle, htext]; omega, by simp only; omega⟩

theorem pairwise_overlaps_pending_iff {u : ProgramUnit} :
    ((pending u).Pairwise fun a b => a.span.overlaps b.span = false) ↔
      (sorted u).Pairwise fun a b => a.span.overlaps b.span = false := by
  refine ((perm_sorted u).pairwise_iff fun {a b} h => ?_).symm
  rwa [Span.overlaps_comm]

theorem faithful_of_orderly {u : ProgramUnit} (h : Orderly u) : Faithful u := by
  unfold Faithful
  rw [print_eq]
  cases hfind : u.statements.find? (isMisplaced u.source) with
  | some s => exact ⟨_, rfl, by simp⟩
  | none =>
    cases hclash : clash? (sorted u) with
    | some pair => exact ⟨_, rfl, by simp⟩
    | none =>
      have hfits : ∀ c ∈ sorted u, c.span.fits u.source = true := fun c hc =>
        fits_of_mem_sorted hfind hc
      have hranges : ∀ r ∈ ranges (sorted u), r.1.fits u.source = true := by
        intro r hr
        obtain ⟨c, hc, rfl⟩ := List.mem_map.1 hr
        exact hfits c hc
      obtain ⟨text, hreplaced, hsplice⟩ := (h.settled hfits).exists_isSplice hranges
      refine ⟨.ok text, by simp [hreplaced, Except.map], ?_⟩
      rintro _ ⟨⟩
      refine ⟨pairwise_overlaps_pending_iff.2 (h.imp fun hab => hab.1), ?_⟩
      exact hsplice.perm ((perm_sorted u).map _)

end LintMend.Printer
