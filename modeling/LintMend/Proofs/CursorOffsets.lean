import LintMend.Proofs.EditorPositions
import LintMend.Proofs.LinePositions

/-!
# From cursors back to offsets

The cursor of an offset counts the newlines before it and the characters on its line, and the index of
the text goes from such a line and such a count back to the offset. Two things can spoil the way back:
numbers that an editor cannot hold, and an offset between the two characters of a line end, whose
cursor is the one in front of both. Without them, cursors tell offsets apart and keep their order.
-/

namespace LintMend

open Text

/-- The offset lies between a carriage return and the newline that follows it. -/
def splitsLineEnd (text : String) (offset : Nat) : Bool :=
  (Span.mk (offset - 1) (offset + 1)).text? text == some "\r\n"

theorem splitsLineEnd_iff {text : String} {offset : Nat} :
    splitsLineEnd text offset = true ↔ ∃ front back : List Char,
      text.toList = front ++ ['\r'] ++ '\n' :: back ∧ offset = bytes (front ++ ['\r']) := by
  rw [splitsLineEnd, beq_iff_eq, Span.text?_eq_some_iff]
  have hend : ("\r\n" : String).toList = ['\r', '\n'] := rfl
  have htwo : bytes ['\r', '\n'] = 2 := rfl
  have hone : bytes ['\r'] = 1 := rfl
  simp only [hend, htwo, bytes_append, hone]
  constructor
  · rintro ⟨front, back, htext, hstart, hstop⟩
    exact ⟨front, back, by simpa using htext, by omega⟩
  · rintro ⟨front, back, htext, rfl⟩
    exact ⟨front, back, by simpa using htext, by omega, by omega⟩

namespace Cursor

theorem lt_iff {a b : Cursor} :
    a.lt b = true ↔ a.line < b.line ∨ a.line = b.line ∧ a.character < b.character := by
  simp [Cursor.lt]

/-! ## The place behind a text -/

/-- The place behind a text: its newlines, and the characters behind the last of them. -/
def behind (front : List Char) : Cursor :=
  ⟨front.count '\n', (Printer.lastLine front).length⟩

theorem behind_append {above part : List Char} (habove : above = [] ∨ ∃ xs, above = xs ++ ['\n'])
    (hpart : '\n' ∉ part) : behind (above ++ part) = ⟨above.count '\n', part.length⟩ := by
  rw [behind, Printer.lastLine_append habove hpart, List.count_append,
    List.count_eq_zero_of_not_mem hpart, Nat.add_zero]

/-- A longer text ends at a later place. -/
theorem behind_lt_behind (front : List Char) {more : List Char} (hmore : more ≠ []) :
    (behind front).lt (behind (front ++ more)) = true := by
  rw [lt_iff]
  by_cases hnewline : '\n' ∈ more
  · have hpos := List.count_pos_iff.2 hnewline
    refine .inl ?_
    simp only [behind, List.count_append]
    omega
  · obtain ⟨above, part, rfl, hdivides⟩ := exists_dividesLine front more
    have hpart : '\n' ∉ part ++ more := by simp [hdivides.part, hnewline]
    rw [List.append_assoc, behind_append hdivides.ended hdivides.part,
      behind_append hdivides.ended hpart]
    have hpos := List.length_pos_of_ne_nil hmore
    refine .inr ⟨rfl, ?_⟩
    simp only [List.length_append]
    omega

/-- The place behind the beginning of a text leads to the end of that beginning. -/
theorem offset?_behind {text : String} {front rest : List Char} (htext : text.toList = front ++ rest) :
    (LineIndex.ofText text).offset? ((behind front).line + 1) (behind front).character =
      some (bytes front) := by
  obtain ⟨above, part, rfl, hdivides⟩ := exists_dividesLine front rest
  rw [behind_append hdivides.ended hdivides.part, bytes_append]
  exact LineIndex.offset?_eq (htext.trans hdivides.parts) hdivides.ended

/-! ## Offsets of a text whose numbers an editor can hold -/

section Small

variable {text : String} (hlines : (textLines text).length < limit)
  (hcharacters : ∀ line ∈ textLines text, line.length < limit)

include hlines hcharacters

/-- No number is cut off. -/
theorem ofOffset_eq_min {above : List (List Char)} {part rest : List Char}
    (htext : text.toList = above.flatten ++ (part ++ rest)) (habove : ∀ l ∈ above, IsEnded l)
    (hpart : '\n' ∉ part) :
    ofOffset text (LineIndex.ofText text) (bytes (above.flatten ++ part)) =
      ⟨above.length, min part.length (firstText (part ++ rest)).length⟩ := by
  have hall : textLines text =
      (above ++ cutLines (part ++ rest)).map fun line => String.ofList (lineText line) := by
    rw [textLines_eq_map, htext, cutLines_flatten_append habove]
  have habovelt : above.length < limit := by
    rw [hall, List.length_map, List.length_append] at hlines
    omega
  have hfirstlt : (firstText (part ++ rest)).length < limit := by
    rw [firstText]
    cases hcut : cutLines (part ++ rest) with
    | nil => exact Nat.zero_lt_of_lt habovelt
    | cons line below =>
      have hline := hcharacters (String.ofList (lineText line)) (by rw [hall, hcut]; simp)
      rwa [String.length_ofList] at hline
  rw [ofOffset_eq htext habove hpart, Nat.mod_eq_of_lt habovelt,
    Nat.mod_eq_of_lt (Nat.lt_of_le_of_lt (Nat.min_le_right _ _) hfirstlt)]

theorem ofOffset_eq_behind {front rest : List Char} (htext : text.toList = front ++ rest)
    (hwhole : splitsLineEnd text (bytes front) = false) :
    ofOffset text (LineIndex.ofText text) (bytes front) = behind front := by
  obtain ⟨above, part, rfl, habove, hpart⟩ := exists_lines front
  rw [ofOffset_eq_min hlines hcharacters (by rw [htext, List.append_assoc]) habove hpart,
    behind_append (flatten_ended habove) hpart, count_newline_flatten habove]
  rcases prefix_firstText_or hpart rest with hinside | ⟨hend, more, rfl⟩
  · rw [Nat.min_eq_left hinside.length_le]
  · have hsplit : splitsLineEnd text (bytes (above.flatten ++ part)) = true := by
      rw [splitsLineEnd_iff]
      rw [hend, ← List.append_assoc] at htext ⊢
      exact ⟨_, more, htext, rfl⟩
    rw [hwhole] at hsplit
    contradiction

/-- Inside a line end, the cursor is the one in front of it. -/
theorem ofOffset_eq_behind_front {front rest : List Char}
    (htext : text.toList = front ++ ['\r'] ++ '\n' :: rest) :
    ofOffset text (LineIndex.ofText text) (bytes (front ++ ['\r'])) = behind front := by
  obtain ⟨above, part, rfl, habove, hpart⟩ := exists_lines front
  have hline : '\n' ∉ part ++ ['\r'] := by simp [hpart]
  have hfirst : firstText (part ++ ['\r'] ++ '\n' :: rest) = part := by
    rw [firstText, cutLines_append_newline hline]
    simp [lineText]
  rw [List.append_assoc above.flatten] at htext ⊢
  rw [List.append_assoc] at htext
  rw [ofOffset_eq_min hlines hcharacters htext habove hline, behind_append (flatten_ended habove) hpart,
    count_newline_flatten habove, hfirst, Nat.min_eq_right (by simp)]

theorem ofOffset_lt_ofOffset {a b : Nat} (ha : isByteBoundary text a = true)
    (hb : isByteBoundary text b = true) (hawhole : splitsLineEnd text a = false)
    (hbwhole : splitsLineEnd text b = false) (hlt : a < b) :
    (ofOffset text (LineIndex.ofText text) a).lt (ofOffset text (LineIndex.ofText text) b) = true := by
  obtain ⟨front, rest, hfront, rfl⟩ := isBoundary_iff.1 ha
  obtain ⟨long, short, hlong, rfl⟩ := isBoundary_iff.1 hb
  obtain ⟨more, rfl, -⟩ := exists_between (hfront.symm.trans hlong) hlt.le
  have hmore : more ≠ [] := by
    rintro rfl
    simp at hlt
  rw [ofOffset_eq_behind hlines hcharacters hfront hawhole,
    ofOffset_eq_behind hlines hcharacters hlong hbwhole]
  exact behind_lt_behind front hmore

end Small

/-- Cursors lead back to the offsets they came from. In a text whose lines and whose characters on a
line an editor can count, the cursor of a boundary outside the line ends leads back to the boundary,
and that of an offset inside a line end to the offset in front of it. So boundaries outside the line
ends have cursors of their own, in their own order. -/
theorem ofOffset_lossless (text : String) (hlines : (textLines text).length < limit)
    (hcharacters : ∀ line ∈ textLines text, line.length < limit) :
    (∀ offset, isByteBoundary text offset = true → splitsLineEnd text offset = false →
      (LineIndex.ofText text).offset? ((ofOffset text (LineIndex.ofText text) offset).line + 1)
        (ofOffset text (LineIndex.ofText text) offset).character = some offset) ∧
      (∀ offset, splitsLineEnd text offset = true →
        (LineIndex.ofText text).offset? ((ofOffset text (LineIndex.ofText text) offset).line + 1)
          (ofOffset text (LineIndex.ofText text) offset).character = some (offset - 1)) ∧
        ∀ a b, isByteBoundary text a = true → isByteBoundary text b = true →
          splitsLineEnd text a = false → splitsLineEnd text b = false →
            ((ofOffset text (LineIndex.ofText text) a).lt
              (ofOffset text (LineIndex.ofText text) b) = true ↔ a < b) ∧
              (ofOffset text (LineIndex.ofText text) a =
                ofOffset text (LineIndex.ofText text) b ↔ a = b) := by
  have hback : ∀ offset, isByteBoundary text offset = true → splitsLineEnd text offset = false →
      (LineIndex.ofText text).offset? ((ofOffset text (LineIndex.ofText text) offset).line + 1)
        (ofOffset text (LineIndex.ofText text) offset).character = some offset := by
    intro offset hboundary hwhole
    obtain ⟨front, rest, htext, rfl⟩ := isBoundary_iff.1 hboundary
    rw [ofOffset_eq_behind hlines hcharacters htext hwhole]
    exact offset?_behind htext
  refine ⟨hback, ?_, ?_⟩
  · intro offset hsplit
    obtain ⟨front, rest, htext, rfl⟩ := splitsLineEnd_iff.1 hsplit
    rw [ofOffset_eq_behind_front hlines hcharacters htext, bytes_append]
    exact offset?_behind (by rw [htext, List.append_assoc])
  · intro a b ha hb hawhole hbwhole
    have hinj : ofOffset text (LineIndex.ofText text) a = ofOffset text (LineIndex.ofText text) b ↔
        a = b := by
      refine ⟨fun heq => ?_, fun heq => heq ▸ rfl⟩
      have hsome := hback a ha hawhole
      rw [heq, hback b hb hbwhole] at hsome
      exact (Option.some.inj hsome).symm
    refine ⟨⟨fun hlt => ?_, ofOffset_lt_ofOffset hlines hcharacters ha hb hawhole hbwhole⟩, hinj⟩
    rw [lt_iff] at hlt
    rcases Nat.lt_trichotomy a b with hab | rfl | hba
    · exact hab
    · omega
    · have hother := ofOffset_lt_ofOffset hlines hcharacters hb ha hbwhole hawhole hba
      rw [lt_iff] at hother
      omega

/-- A letter of two bytes in front of a line end of two characters, the offset inside that line end,
and the end of the text. -/
theorem ofOffset_lossless_accented :
    (textLines "é\r\nx\n").length < limit ∧
      (∀ line ∈ textLines "é\r\nx\n", line.length < limit) ∧
        isByteBoundary "é\r\nx\n" 2 = true ∧ splitsLineEnd "é\r\nx\n" 2 = false ∧
          isByteBoundary "é\r\nx\n" 6 = true ∧ splitsLineEnd "é\r\nx\n" 6 = false ∧
            splitsLineEnd "é\r\nx\n" 3 = true ∧
      ofOffset "é\r\nx\n" (LineIndex.ofText "é\r\nx\n") 6 = ⟨2, 0⟩ ∧
        (LineIndex.ofText "é\r\nx\n").offset? 3 0 = some 6 ∧
          ofOffset "é\r\nx\n" (LineIndex.ofText "é\r\nx\n") 3 = ⟨0, 1⟩ ∧
            (LineIndex.ofText "é\r\nx\n").offset? 1 1 = some 2 ∧
              (ofOffset "é\r\nx\n" (LineIndex.ofText "é\r\nx\n") 2).lt
                (ofOffset "é\r\nx\n" (LineIndex.ofText "é\r\nx\n") 6) = true := by
  have hlines : (textLines "é\r\nx\n").length < limit := by decide +kernel
  have hcharacters : ∀ line ∈ textLines "é\r\nx\n", line.length < limit := by decide +kernel
  have hletter : isByteBoundary "é\r\nx\n" 2 = true := by decide +kernel
  have hletterwhole : splitsLineEnd "é\r\nx\n" 2 = false := by decide +kernel
  have hstop : isByteBoundary "é\r\nx\n" 6 = true := by decide +kernel
  have hstopwhole : splitsLineEnd "é\r\nx\n" 6 = false := by decide +kernel
  have hsplit : splitsLineEnd "é\r\nx\n" 3 = true := by decide +kernel
  have hlast : ofOffset "é\r\nx\n" (LineIndex.ofText "é\r\nx\n") 6 = ⟨2, 0⟩ := by decide +kernel
  have hinside : ofOffset "é\r\nx\n" (LineIndex.ofText "é\r\nx\n") 3 = ⟨0, 1⟩ := by decide +kernel
  obtain ⟨hback, hfront, horder⟩ := ofOffset_lossless "é\r\nx\n" hlines hcharacters
  have hsix := hback 6 hstop hstopwhole
  have htwo := hfront 3 hsplit
  rw [hlast] at hsix
  rw [hinside] at htwo
  exact ⟨hlines, hcharacters, hletter, hletterwhole, hstop, hstopwhole, hsplit, hlast, hsix, hinside,
    htwo, (horder 2 6 hletter hstop hletterwhole hstopwhole).1.2 (by decide)⟩

end Cursor

end LintMend
