import LintMend.Proofs.Cutting

/-!
# The lines of a text

Cut after each of its newlines, a text falls into lines with their ends. The lines of the library are
these without their ends, and the line of a byte offset is the one on which the byte lies, counted
from one. An empty piece after the last newline is a line for offsets but not for the lines of a
text, so the two agree on every byte that there is.
-/

namespace LintMend.Text

/-! ## Lines with their ends -/

/-- The text cut after each newline. -/
def cutLines : List Char → List (List Char)
  | [] => []
  | c :: cs =>
    if c = '\n' then [c] :: cutLines cs
    else
      match cutLines cs with
      | [] => [[c]]
      | line :: rest => (c :: line) :: rest

/-- A line without its end: a newline, which a carriage return may precede. -/
def lineText (line : List Char) : List Char :=
  match line.reverse with
  | '\n' :: '\r' :: rest => rest.reverse
  | '\n' :: rest => rest.reverse
  | _ => line

theorem cutLines_append_newline {xs : List Char} (h : '\n' ∉ xs) (cs : List Char) :
    cutLines (xs ++ '\n' :: cs) = (xs ++ ['\n']) :: cutLines cs := by
  induction xs with
  | nil => simp [cutLines]
  | cons x xs ih =>
    rw [List.mem_cons, not_or] at h
    rw [List.cons_append, cutLines, if_neg (Ne.symm h.1), ih h.2]
    rfl

theorem cutLines_of_notMem {xs : List Char} (h : '\n' ∉ xs) (hne : xs ≠ []) :
    cutLines xs = [xs] := by
  induction xs with
  | nil => exact absurd rfl hne
  | cons x xs ih =>
    rw [List.mem_cons, not_or] at h
    rw [cutLines, if_neg (Ne.symm h.1)]
    cases xs with
    | nil => rfl
    | cons y ys => rw [ih h.2 (List.cons_ne_nil y ys)]

/-- What holds of texts without a newline, and of a line in front of a text of which it holds, holds
of all texts. -/
@[elab_as_elim]
theorem lines_induction {motive : List Char → Prop}
    (last : ∀ xs, '\n' ∉ xs → motive xs)
    (line : ∀ xs rest, '\n' ∉ xs → motive rest → motive (xs ++ '\n' :: rest))
    (cs : List Char) : motive cs := by
  induction hlength : cs.length using Nat.strong_induction_on generalizing cs with
  | h n ih =>
    by_cases h : '\n' ∈ cs
    · rcases List.eq_append_cons_of_mem h with ⟨xs, rest, hcs, hxs⟩
      have hlt : rest.length < n := by
        rw [← hlength, hcs, List.length_append, List.length_cons]
        omega
      rw [hcs]
      exact line xs rest hxs (ih rest.length hlt rest rfl)
    · exact last cs h

theorem flatten_cutLines (cs : List Char) : (cutLines cs).flatten = cs := by
  induction cs using lines_induction with
  | last xs h =>
    cases xs with
    | nil => rfl
    | cons x xs => simp [cutLines_of_notMem h]
  | line xs rest h ih => simp [cutLines_append_newline h, ih]

/-- A line with a newline at its end and nowhere else. -/
def IsEnded (line : List Char) : Prop := ∃ xs, '\n' ∉ xs ∧ line = xs ++ ['\n']

/-- All lines but the last are ended, and no line is empty or goes on after a newline. -/
theorem isEnded_of_cutLines {cs line : List Char} {above below : List (List Char)}
    (h : cutLines cs = above ++ line :: below) :
    (∀ l ∈ above, IsEnded l) ∧ line ≠ [] ∧ (IsEnded line ∨ '\n' ∉ line) := by
  induction cs using lines_induction generalizing above with
  | last xs hxs =>
    cases xs with
    | nil => simp [cutLines] at h
    | cons x xs =>
      rw [cutLines_of_notMem hxs (List.cons_ne_nil x xs)] at h
      cases above with
      | nil =>
        rcases List.cons.inj h with ⟨rfl, -⟩
        exact ⟨by simp, List.cons_ne_nil x xs, .inr hxs⟩
      | cons l above => simp at h
  | line xs rest hxs ih =>
    rw [cutLines_append_newline hxs] at h
    cases above with
    | nil =>
      rcases List.cons.inj h with ⟨rfl, -⟩
      exact ⟨by simp, by simp, .inl ⟨xs, hxs, rfl⟩⟩
    | cons l above =>
      rcases List.cons.inj h with ⟨rfl, hrest⟩
      rw [List.forall_mem_cons, and_assoc]
      exact ⟨⟨xs, hxs, rfl⟩, ih hrest⟩

/-- Ended lines in front of a text are its first lines. -/
theorem cutLines_flatten_append {above : List (List Char)} (h : ∀ l ∈ above, IsEnded l)
    (cs : List Char) : cutLines (above.flatten ++ cs) = above ++ cutLines cs := by
  induction above with
  | nil => rfl
  | cons l above ih =>
    rw [List.forall_mem_cons] at h
    rcases h.1 with ⟨xs, hxs, rfl⟩
    rw [List.flatten_cons, List.append_assoc, List.append_assoc, List.singleton_append,
      cutLines_append_newline hxs, ih h.2, List.cons_append]

theorem count_newline_flatten {above : List (List Char)} (h : ∀ l ∈ above, IsEnded l) :
    above.flatten.count '\n' = above.length := by
  induction above with
  | nil => rfl
  | cons l above ih =>
    rw [List.forall_mem_cons] at h
    rcases h.1 with ⟨xs, hxs, rfl⟩
    rw [List.flatten_cons, List.count_append, ih h.2, List.count_append,
      List.count_eq_zero_of_not_mem hxs, List.length_cons]
    simp [Nat.add_comm]

/-! ## Lines without their ends -/

theorem lineText_of_notMem {xs : List Char} (h : '\n' ∉ xs) : lineText xs = xs := by
  unfold lineText
  split
  · next rest hreverse =>
    exact absurd (List.mem_reverse.1 (hreverse ▸ List.mem_cons_self)) h
  · next rest hreverse =>
    exact absurd (List.mem_reverse.1 (hreverse ▸ List.mem_cons_self)) h
  · rfl

/-- The lines of the library are the lines of the text without their ends. -/
theorem linesFrom_eq (line : List Char) (done : List (List Char)) (cs : List Char)
    (h : '\n' ∉ line) :
    linesFrom line done cs = done.reverse ++ (cutLines (line.reverse ++ cs)).map lineText := by
  have hreverse : '\n' ∉ line.reverse := fun hmem => h (List.mem_reverse.1 hmem)
  fun_induction linesFrom line done cs with
  | case1 line done =>
    cases line with
    | nil => simp [cutLines]
    | cons c line =>
      rw [List.append_nil, cutLines_of_notMem hreverse (by simp), List.map_singleton,
        lineText_of_notMem hreverse]
      simp
  | case2 done cs line ih =>
    rw [ih List.not_mem_nil (by simp), cutLines_append_newline hreverse]
    simp [lineText]
  | case3 done cs line hcr ih =>
    rw [ih List.not_mem_nil (by simp), cutLines_append_newline hreverse]
    have htext : lineText (line.reverse ++ ['\n']) = line.reverse := by
      unfold lineText
      rw [List.reverse_append, List.reverse_reverse]
      split
      · next rest heq => exact absurd (List.cons.inj heq).2 (hcr rest)
      · next rest _ heq => exact congrArg List.reverse (List.cons.inj heq).2.symm
      · next _ hother => exact absurd rfl (hother line)
    simp [htext]
  | case4 line done c cs hc ih =>
    have hline : '\n' ∉ c :: line := by
      rw [List.mem_cons, not_or]
      exact ⟨fun heq => hc heq.symm, h⟩
    rw [ih hline (fun hmem => hline (List.mem_reverse.1 hmem))]
    simp

theorem lines_eq (cs : List Char) : lines cs = (cutLines cs).map lineText :=
  linesFrom_eq [] [] cs List.not_mem_nil

theorem textLines_eq_map (text : String) :
    textLines text = (cutLines text.toList).map fun line => String.ofList (lineText line) := by
  rw [textLines, lines_eq, List.map_map]
  rfl

/-! ## Where lines begin -/

/-- The offsets right after the newlines of a text in front of which `base` bytes stand. -/
def lineEnds (base : Nat) : List Char → List Nat
  | [] => []
  | c :: cs =>
    if c = '\n' then (base + c.utf8Size) :: lineEnds (base + c.utf8Size) cs
    else lineEnds (base + c.utf8Size) cs

theorem lineEnds_append (base : Nat) (xs ys : List Char) :
    lineEnds base (xs ++ ys) = lineEnds base xs ++ lineEnds (base + bytes xs) ys := by
  induction xs generalizing base with
  | nil => rfl
  | cons x xs ih =>
    rw [List.cons_append, lineEnds, lineEnds, ih, bytes_cons, Nat.add_assoc]
    split <;> rfl

theorem lineEnds_of_notMem {xs : List Char} (h : '\n' ∉ xs) (base : Nat) : lineEnds base xs = [] := by
  induction xs generalizing base with
  | nil => rfl
  | cons x xs ih =>
    rw [List.mem_cons, not_or] at h
    rw [lineEnds, if_neg (Ne.symm h.1), ih h.2]

theorem length_lineEnds (base : Nat) (cs : List Char) :
    (lineEnds base cs).length = cs.count '\n' := by
  induction cs generalizing base with
  | nil => rfl
  | cons c cs ih =>
    rw [lineEnds, List.count_cons]
    split
    · next h => simp [h, ih]
    · next h => simp [h, ih]

theorem bounds_of_mem_lineEnds {base e : Nat} {cs : List Char} (h : e ∈ lineEnds base cs) :
    base ≤ e ∧ e ≤ base + bytes cs := by
  induction cs generalizing base with
  | nil => simp [lineEnds] at h
  | cons c cs ih =>
    rw [bytes_cons]
    rw [lineEnds] at h
    split at h
    · cases List.mem_cons.1 h with
      | inl heq => omega
      | inr hmem =>
        have := ih hmem
        omega
    · have := ih h
      omega

/-- No line begins before the first character is over. -/
theorem le_of_mem_lineEnds_cons {base e : Nat} {c : Char} {cs : List Char}
    (h : e ∈ lineEnds base (c :: cs)) : base + c.utf8Size ≤ e := by
  rw [lineEnds] at h
  split at h
  · cases List.mem_cons.1 h with
    | inl heq => exact heq.ge
    | inr hmem => exact (bounds_of_mem_lineEnds hmem).1
  · exact (bounds_of_mem_lineEnds h).1

theorem fst_lineStartsFrom (found : List (Nat × List Char)) (base : Nat) (cs : List Char) :
    (lineStartsFrom found base cs).reverse.map (·.1) =
      found.reverse.map (·.1) ++ lineEnds base cs := by
  fun_induction lineStartsFrom found base cs with
  | case1 found base => simp [lineEnds]
  | case2 found base cs ih =>
    have hone : '\n'.utf8Size = 1 := rfl
    rw [ih, lineEnds, if_pos rfl, hone]
    simp
  | case3 found base c cs hc ih => rw [ih, lineEnds, if_neg hc]

theorem fst_lineStarts (cs : List Char) : (lineStarts cs).map (·.1) = 0 :: lineEnds 0 cs :=
  fst_lineStartsFrom [(0, cs)] 0 cs

end LintMend.Text

namespace LintMend

open Text

/-- The position of an offset depends only on where lines begin. -/
theorem LineIndex.position_eq_takeWhile (source : String) (offset : Nat) :
    (LineIndex.ofText source).position offset =
      let starts := (0 :: lineEnds 0 source.toList).takeWhile (· ≤ offset)
      ⟨starts.length, offset - starts.getLastD 0 + 1⟩ := by
  have hmap : ((lineStarts source.toList).takeWhile (·.1 ≤ offset)).map (·.1) =
      (0 :: lineEnds 0 source.toList).takeWhile (· ≤ offset) := by
    rw [← fst_lineStarts, List.takeWhile_map]
    rfl
  simp only [← hmap, position, ofText, List.length_map]
  congr 3
  rw [List.getLastD_eq_getLast?, List.getLastD_eq_getLast?, List.getLast?_map]
  cases ((lineStarts source.toList).takeWhile (·.1 ≤ offset)).getLast? <;> rfl

/-- The position of an offset up to which whole characters stand, of which those after the last
newline begin the line. -/
theorem LineIndex.position_eq {source : String} {front part rest : List Char} {offset : Nat}
    (hsource : source.toList = front ++ (part ++ rest))
    (hfront : front = [] ∨ ∃ xs, front = xs ++ ['\n']) (hpart : '\n' ∉ part)
    (hle : bytes front + bytes part ≤ offset)
    (hlt : ∀ c ∈ rest.head?, offset < bytes front + bytes part + c.utf8Size) :
    (LineIndex.ofText source).position offset =
      ⟨front.count '\n' + 1, offset - bytes front + 1⟩ := by
  have hends : lineEnds 0 source.toList = lineEnds 0 front ++ lineEnds (bytes front + bytes part) rest := by
    rw [hsource, lineEnds_append, lineEnds_append, lineEnds_of_notMem hpart, List.nil_append,
      Nat.zero_add]
  have hbefore : ∀ e ∈ 0 :: lineEnds 0 front, e ≤ offset := by
    rw [List.forall_mem_cons]
    refine ⟨Nat.zero_le _, fun e he => ?_⟩
    have := (bounds_of_mem_lineEnds he).2
    omega
  have hafter : (lineEnds (bytes front + bytes part) rest).takeWhile (· ≤ offset) = [] := by
    cases rest with
    | nil => rfl
    | cons c rest =>
      cases hmore : lineEnds (bytes front + bytes part) (c :: rest) with
      | nil => rfl
      | cons e more =>
        have he : e ∈ lineEnds (bytes front + bytes part) (c :: rest) :=
          hmore ▸ List.mem_cons_self
        apply List.takeWhile_cons_of_neg
        rw [decide_eq_true_eq, Nat.not_le]
        exact (hlt c rfl).trans_le (le_of_mem_lineEnds_cons he)
  have hstarts : (0 :: lineEnds 0 source.toList).takeWhile (· ≤ offset) = 0 :: lineEnds 0 front := by
    rw [hends, ← List.cons_append, List.takeWhile_append_of_pos, hafter, List.append_nil]
    intro e he
    rw [decide_eq_true_eq]
    exact hbefore e he
  have hlast : (0 :: lineEnds 0 front).getLastD 0 = bytes front := by
    cases hfront with
    | inl hnil => rw [hnil]; rfl
    | inr hnewline =>
      rcases hnewline with ⟨xs, rfl⟩
      have hend : lineEnds (0 + bytes xs) ['\n'] = [bytes (xs ++ ['\n'])] := by simp [lineEnds]
      rw [lineEnds_append, hend, ← List.cons_append, List.getLastD_concat]
  rw [position_eq_takeWhile]
  simp only [hstarts, hlast, List.length_cons, length_lineEnds]

/-! ## The line of a byte -/

/-- The byte at the offset lies on the line `line` of the text, right below the lines `above`. -/
structure Text.OnLine (cs : List Char) (offset : Nat) (above : List (List Char)) (line : List Char) :
    Prop where
  cut : ∃ below, cutLines cs = above ++ line :: below
  start_le : bytes above.flatten ≤ offset
  lt_stop : offset < bytes above.flatten + bytes line

/-- Every byte of a text lies on one of its lines. -/
theorem Text.exists_onLine {cs : List Char} {offset : Nat} (h : offset < bytes cs) :
    ∃ above line, OnLine cs offset above line := by
  have hlines : ∀ (ls : List (List Char)) (offset : Nat), offset < bytes ls.flatten →
      ∃ above line below, ls = above ++ line :: below ∧ bytes above.flatten ≤ offset ∧
        offset < bytes above.flatten + bytes line := by
    intro ls
    induction ls with
    | nil => intro offset h; simp at h
    | cons l ls ih =>
      intro offset h
      rw [List.flatten_cons, bytes_append] at h
      by_cases hl : offset < bytes l
      · exact ⟨[], l, ls, rfl, Nat.zero_le _, by simpa using hl⟩
      · rcases ih (offset - bytes l) (by omega) with ⟨above, line, below, rfl, hle, hlt⟩
        refine ⟨l :: above, line, below, rfl, ?_, ?_⟩
        · rw [List.flatten_cons, bytes_append]
          omega
        · rw [List.flatten_cons, bytes_append]
          omega
  rw [← flatten_cutLines cs] at h
  rcases hlines _ _ h with ⟨above, line, below, hcut, hle, hlt⟩
  exact ⟨above, line, ⟨below, hcut⟩, hle, hlt⟩

/-- Every byte of a text belongs to a character. -/
theorem Text.exists_char_at {cs : List Char} {offset : Nat} (h : offset < bytes cs) :
    ∃ part c rest, cs = part ++ c :: rest ∧ bytes part ≤ offset ∧
      offset < bytes part + c.utf8Size := by
  induction cs generalizing offset with
  | nil => simp at h
  | cons c cs ih =>
    rw [bytes_cons] at h
    by_cases hc : offset < c.utf8Size
    · exact ⟨[], c, cs, rfl, Nat.zero_le _, by simpa using hc⟩
    · rcases @ih (offset - c.utf8Size) (by omega) with ⟨part, d, rest, rfl, hle, hlt⟩
      refine ⟨c :: part, d, rest, rfl, ?_, ?_⟩
      · rw [bytes_cons]
        omega
      · rw [bytes_cons]
        omega

theorem Text.flatten_ended {above : List (List Char)} (h : ∀ l ∈ above, IsEnded l) :
    above.flatten = [] ∨ ∃ xs, above.flatten = xs ++ ['\n'] := by
  cases List.eq_nil_or_concat above with
  | inl hnil => exact .inl (by rw [hnil]; rfl)
  | inr hconcat =>
    rcases hconcat with ⟨front, l, rfl⟩
    rcases h l (by simp) with ⟨xs, -, rfl⟩
    exact .inr ⟨front.flatten ++ xs, by simp⟩

/-- No text has more lines than bytes. -/
theorem Text.length_cutLines_le (cs : List Char) : (cutLines cs).length ≤ bytes cs := by
  induction cs with
  | nil => exact Nat.le_refl 0
  | cons c cs ih =>
    have hpos : 0 < c.utf8Size := Char.utf8Size_pos c
    rw [cutLines, bytes_cons]
    split
    · rw [List.length_cons]
      omega
    · split
      · next hnone =>
        rw [List.length_singleton]
        omega
      · next line rest hsome =>
        rw [hsome, List.length_cons] at ih
        rw [List.length_cons]
        omega

/-- The line of an offset is the one on which its byte lies. -/
theorem Text.OnLine.position {source : String} {offset : Nat} {above : List (List Char)}
    {line : List Char} (h : OnLine source.toList offset above line) :
    (LineIndex.ofText source).position offset =
      ⟨above.length + 1, offset - bytes above.flatten + 1⟩ := by
  rcases h.cut with ⟨below, hcut⟩
  rcases isEnded_of_cutLines hcut with ⟨habove, -, hline⟩
  have hlt : offset - bytes above.flatten < bytes line := by
    have := h.start_le
    have := h.lt_stop
    omega
  rcases exists_char_at hlt with ⟨part, c, rest, hsplit, hle, hlt⟩
  have hpart : '\n' ∉ part := by
    intro hmem
    cases hline with
    | inl hended =>
      rcases hended with ⟨xs, hxs, hxline⟩
      have hlength : part.length ≤ xs.length := by
        have := congrArg List.length (hsplit.symm.trans hxline)
        simp only [List.length_append, List.length_cons, List.length_nil] at this
        omega
      have hparts : part <+: xs :=
        List.prefix_of_prefix_length_le ⟨c :: rest, hsplit.symm⟩ ⟨['\n'], hxline.symm⟩ hlength
      exact hxs (hparts.subset hmem)
    | inr hfree =>
      rw [hsplit] at hfree
      exact hfree (List.mem_append_left _ hmem)
  have hsource : source.toList = above.flatten ++ (part ++ (c :: rest ++ below.flatten)) := by
    rw [← flatten_cutLines source.toList, hcut, hsplit]
    simp
  have hstart := h.start_le
  rw [LineIndex.position_eq hsource (flatten_ended habove) hpart, count_newline_flatten habove]
  · omega
  · intro d hd
    obtain rfl : c = d := by simpa using hd
    omega

/-- A byte lies on one line only. -/
theorem Text.OnLine.unique {source : String} {offset : Nat} {above above' : List (List Char)}
    {line line' : List Char} (h : OnLine source.toList offset above line)
    (h' : OnLine source.toList offset above' line') : above = above' ∧ line = line' := by
  rcases h.cut with ⟨below, hcut⟩
  rcases h'.cut with ⟨below', hcut'⟩
  have hline := congrArg Position.line (h.position.symm.trans h'.position)
  have hlength : above.length = above'.length := Nat.succ.inj hline
  have hsame := List.append_inj (hcut.symm.trans hcut') hlength
  exact ⟨hsame.1, (List.cons.inj hsame.2).1⟩

end LintMend
