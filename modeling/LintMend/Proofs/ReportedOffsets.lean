import LintMend.Proofs.LoweredUnits
import LintMend.Proofs.TokenPlaces
import Mathlib.Data.List.Induction

/-!
# Offsets of reported positions

Positions are reported for the text without its byte order mark and looked up in the text with it. On
every line but the first that makes no difference. On the first line of a text with a mark, columns
count from the mark on, so that each place is taken for the one a character before it.
-/

namespace LintMend

namespace Text

theorem bytesOfFirstFrom_take {total n : Nat} {cs : List Char} (h : n ≤ cs.length) :
    bytesOfFirstFrom total n cs = some (total + bytes (cs.take n)) := by
  induction n generalizing total cs with
  | zero => simp [bytesOfFirstFrom]
  | succ n ih =>
    cases cs with
    | nil => simp at h
    | cons c cs =>
      rw [bytesOfFirstFrom, ih (by simpa using h), List.take_succ_cons, bytes_cons, Nat.add_assoc]

/-- The line behind a newline begins with what follows it. -/
theorem getElem?_lineStartsFrom (found : List (Nat × List Char)) (base : Nat) (pre post : List Char) :
    (lineStartsFrom found base (pre ++ '\n' :: post)).reverse[found.length + pre.count '\n']? =
      some (base + bytes pre + 1, post) := by
  induction pre generalizing found base with
  | nil =>
    rw [List.nil_append, lineStartsFrom]
    rcases exists_lineStartsFrom ((base + 1, post) :: found) (base + 1) post with ⟨new, hnew⟩
    rw [hnew, List.reverse_append, List.reverse_cons]
    simp
  | cons c pre ih =>
    by_cases hc : c = '\n'
    · subst hc
      rw [List.cons_append, lineStartsFrom]
      have hfound := ih ((base + 1, pre ++ '\n' :: post) :: found) (base + 1)
      rw [List.length_cons] at hfound
      have hbytes : base + 1 + bytes pre + 1 = base + bytes ('\n' :: pre) + 1 := by
        rw [bytes_cons, show '\n'.utf8Size = 1 from rfl]
        omega
      rw [List.count_cons_self, ← Nat.add_assoc, Nat.add_right_comm, hfound, hbytes]
    · rw [List.cons_append, lineStartsFrom.eq_3 _ _ _ _ hc, List.count_cons_of_ne hc, ih, bytes_cons,
        Nat.add_assoc base]

/-- The line behind a newline begins with what follows it. -/
theorem getElem?_lineStarts (pre post : List Char) :
    (lineStarts (pre ++ '\n' :: post))[pre.count '\n' + 1]? = some (bytes pre + 1, post) := by
  have h := getElem?_lineStartsFrom [(0, pre ++ '\n' :: post)] 0 pre post
  rwa [List.length_singleton, Nat.add_comm, Nat.zero_add] at h

end Text

namespace Rust

/-! ## Lines and columns -/

theorem line_reported (front : List Char) : (reported front).line = front.count '\n' + 1 := by
  induction front using List.reverseRecOn with
  | nil => rfl
  | append_singleton front c ih =>
    rw [reported_concat, advance]
    by_cases hc : c = '\n'
    · subst hc
      simp [ih]
    · simp [ih, hc]

/-- Behind a newline, lines count the newlines and columns the characters of the line. -/
theorem reported_newline {pre line : List Char} (h : '\n' ∉ line) :
    reported (pre ++ '\n' :: line) = ⟨pre.count '\n' + 2, line.length⟩ := by
  rw [List.append_cons, reported_append, foldl_advance_of_not_mem h, reported_concat, advance]
  simp [line_reported]

/-! ## Offsets -/

/-- The byte order mark at the beginning of a text, if there is one. -/
def byteOrderMark (source : String) : List Char :=
  if source.toList.head? = some '\ufeff' then ['\ufeff'] else []

theorem toList_eq_byteOrderMark_append (source : String) :
    source.toList = byteOrderMark source ++ dropMark source.toList := by
  unfold byteOrderMark dropMark
  generalize source.toList = cs
  split
  · next hhead =>
    rcases List.head?_eq_some_iff.1 hhead with ⟨rest, rfl⟩
    rfl
  · next hhead =>
    split
    · exact absurd rfl hhead
    · rfl

theorem byteOrderMark_cases (source : String) :
    byteOrderMark source = [] ∨ byteOrderMark source = ['\ufeff'] := by
  unfold byteOrderMark
  split
  · exact .inr rfl
  · exact .inl rfl

/-- The place behind `front` is on the line that begins with a byte order mark. -/
def OnMarkedLine (source : String) (front : List Char) : Prop :=
  byteOrderMark source ≠ [] ∧ '\n' ∉ front

instance (source : String) (front : List Char) : Decidable (OnMarkedLine source front) :=
  inferInstanceAs (Decidable (_ ∧ _))

/-- The offset that is found for the place behind `front`: its own, or on a line with a mark that of
the character before it. -/
def shownOffset (source : String) (front : List Char) : Nat :=
  if OnMarkedLine source front then Text.bytes (byteOrderMark source ++ front).dropLast
  else Text.bytes (byteOrderMark source ++ front)

/-- A text with a newline divides at its last one. -/
theorem exists_last_newline {front : List Char} (h : '\n' ∈ front) :
    ∃ pre line, front = pre ++ '\n' :: line ∧ '\n' ∉ line := by
  rcases List.eq_append_cons_of_mem (List.mem_reverse.2 h) with ⟨line, pre, hfront, hline⟩
  refine ⟨pre.reverse, line.reverse, ?_, by simpa using hline⟩
  rw [← List.reverse_reverse front, hfront]
  simp

theorem offset?_reported {source : String} {front back : List Char}
    (h : dropMark source.toList = front ++ back) :
    (LineIndex.ofText source).offset? (reported front).line (reported front).column =
      some (shownOffset source front) := by
  have hsource : source.toList = byteOrderMark source ++ (front ++ back) := by
    rw [← h]
    exact toList_eq_byteOrderMark_append source
  have hcount : (byteOrderMark source).count '\n' = 0 := by
    rcases byteOrderMark_cases source with hmark | hmark <;> simp [hmark]
  by_cases hnewline : '\n' ∈ front
  · have hshown : shownOffset source front = Text.bytes (byteOrderMark source ++ front) :=
      if_neg fun hmarked => hmarked.2 hnewline
    rcases exists_last_newline hnewline with ⟨pre, line, rfl, hline⟩
    have hlines : source.toList = (byteOrderMark source ++ pre) ++ '\n' :: (line ++ back) := by
      simp [hsource]
    have hstart := Text.getElem?_lineStarts (byteOrderMark source ++ pre) (line ++ back)
    rw [List.count_append, hcount, Nat.zero_add, ← hlines] at hstart
    have hcolumn : Text.bytesOfFirstFrom (Text.bytes (byteOrderMark source ++ pre) + 1) line.length
        (line ++ back) = some (Text.bytes (byteOrderMark source ++ (pre ++ '\n' :: line))) := by
      rw [Text.bytesOfFirstFrom_take (by simp), List.take_left]
      simp only [Text.bytes_append, Text.bytes_cons, show '\n'.utf8Size = 1 from rfl]
      congr 1
      omega
    rw [reported_newline hline, hshown, ← hcolumn]
    exact congrArg (Option.bind · _) hstart
  · rcases Text.exists_lineStarts_cons source.toList with ⟨later, hlater⟩
    have hfirst : (LineIndex.ofText source).starts[0]? = some (0, source.toList) := by
      rw [LineIndex.ofText, hlater]
      rfl
    have hcolumn : Text.bytesOfFirstFrom 0 front.length source.toList = some
        (shownOffset source front) := by
      rw [Text.bytesOfFirstFrom_take (by simp [hsource]; omega), Nat.zero_add, shownOffset]
      rcases byteOrderMark_cases source with hmark | hmark
      · rw [if_neg fun hmarked => hmarked.1 hmark, hsource, hmark]
        simp
      · have htake : (['\ufeff'] ++ (front ++ back)).take front.length =
          (['\ufeff'] ++ front).dropLast := by
          rw [← List.append_assoc, List.take_append_of_le_length (by simp), List.dropLast_eq_take]
          simp
        rw [if_pos ⟨by simp [hmark], hnewline⟩, hsource, hmark, htake]
    rw [reported_of_not_mem hnewline, ← hcolumn]
    exact congrArg (Option.bind · _) hfirst

theorem shownOffset_of_not_marked {source : String} {front : List Char}
    (h : ¬ OnMarkedLine source front) :
    shownOffset source front = Text.bytes (byteOrderMark source ++ front) := if_neg h

theorem OnMarkedLine.of_append {source : String} {front own : List Char}
    (h : OnMarkedLine source (front ++ own)) : OnMarkedLine source front :=
  ⟨h.1, fun hmem => h.2 (List.mem_append_left own hmem)⟩

/-- On the line with a mark, what is found is not the place itself. -/
theorem shownOffset_lt {source : String} {front : List Char} (h : OnMarkedLine source front) :
    shownOffset source front < Text.bytes (byteOrderMark source ++ front) := by
  rw [shownOffset, if_pos h]
  have hne : byteOrderMark source ++ front ≠ [] := by simp [h.1]
  generalize byteOrderMark source ++ front = cs at hne ⊢
  conv_rhs => rw [← List.dropLast_append_getLast hne, Text.bytes_append, Text.bytes_cons]
  have := (cs.getLast hne).utf8Size_pos
  omega

theorem shownOffset_le (source : String) (front own : List Char) :
    shownOffset source front ≤ shownOffset source (front ++ own) := by
  have hprefix : byteOrderMark source ++ front <+: byteOrderMark source ++ (front ++ own) :=
    ⟨own, List.append_assoc _ _ _⟩
  by_cases hown : OnMarkedLine source (front ++ own)
  · rw [shownOffset, shownOffset, if_pos hown, if_pos hown.of_append, ← List.append_assoc]
    cases own with
    | nil => rw [List.append_nil]
    | cons c own =>
      rw [List.dropLast_append_of_ne_nil (List.cons_ne_nil c own)]
      exact Text.bytes_le_of_sublist ((List.dropLast_sublist _).trans (List.sublist_append_left _ _))
  · rw [shownOffset_of_not_marked hown]
    have hle := Text.bytes_le_of_sublist hprefix.sublist
    by_cases hfront : OnMarkedLine source front
    · exact (Nat.le_of_lt (shownOffset_lt hfront)).trans hle
    · rw [shownOffset_of_not_marked hfront]
      exact hle

theorem span?_reported {source : String} {front own back : List Char}
    (h : dropMark source.toList = front ++ (own ++ back)) :
    (Locator.ofSource source).span? ⟨reported front, reported (front ++ own)⟩ =
      some ⟨shownOffset source front, shownOffset source (front ++ own)⟩ := by
  have hstart := offset?_reported h
  have hstop := offset?_reported (h.trans (List.append_assoc front own back).symm)
  unfold Locator.span? Locator.ofSource
  dsimp only
  rw [hstart, hstop]
  exact if_pos (shownOffset_le source front own)

/-- Characters of the text are located, and where their place is found the text is theirs. -/
theorem locate?_reported {source : String} {front own back : List Char}
    (h : dropMark source.toList = front ++ (own ++ back)) :
    ∃ o text, (Locator.ofSource source).locate? ⟨reported front, reported (front ++ own)⟩ = some
      (o, text) ∧
      o.span = ⟨shownOffset source front, shownOffset source (front ++ own)⟩ ∧
        (¬ OnMarkedLine source front → text = String.ofList own) := by
  have hspan := span?_reported h
  rcases Span.text?_of_fits (Locator.fits_of_span? hspan) with ⟨text, htext⟩
  rcases Option.map_eq_some_iff.1 htext with ⟨slice, hslice, rfl⟩
  refine ⟨(LineIndex.ofText source).origin ⟨shownOffset source front, shownOffset source (front ++ own)⟩,
    String.ofList slice, ?_, rfl, ?_⟩
  · unfold Locator.locate?
    rw [hspan]
    exact congrArg (Option.bind · _) hslice
  · intro hfront
    have hboth : ¬ OnMarkedLine source (front ++ own) := fun hmarked => hfront hmarked.of_append
    have hsource : source.toList = byteOrderMark source ++ front ++ (own ++ back) := by
      rw [List.append_assoc, ← h]
      exact toList_eq_byteOrderMark_append source
    rw [shownOffset_of_not_marked hfront, shownOffset_of_not_marked hboth, ← List.append_assoc,
      Text.bytes_append (byteOrderMark source ++ front), hsource, Text.slice?_append] at hslice
    rw [Option.some.inj hslice]

end Rust

end LintMend
