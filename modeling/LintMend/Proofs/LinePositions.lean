import LintMend.Proofs.ReportedOffsets
import LintMend.Proofs.SourceLines

/-!
# Offsets and positions

The index of a text turns a byte offset into a line and a byte column, and a line and a character
column into a byte offset. Both ways are read off one division of the text: whole lines, the part of
a line, and the rest. So nothing is lost on the way from an offset to its position and back, later
offsets have later positions, and an offset that comes out lies between two characters.
-/

namespace LintMend

open Text

/-! ## Newlines as bytes -/

/-- Number of bytes before the offset that are newlines. -/
def newlineBytesBefore (source : String) (offset : Nat) : Nat :=
  (source.toUTF8.data.toList.take offset).count 10

namespace Text

theorem newline_eq_ofNat_iff {n : Nat} (h : n < 256) : 10 = UInt8.ofNat n ↔ n = 10 := by
  rw [← UInt8.toNat_inj, UInt8.toNat_ofNat_of_lt' (by simpa using h)]
  exact eq_comm

/-- No byte of a character is a newline unless the character is. -/
theorem count_newline_utf8EncodeChar (c : Char) :
    (String.utf8EncodeChar c).count 10 = [c].count '\n' := by
  by_cases hc : c = '\n'
  · subst hc
    rfl
  · have hvalue : c.val.toNat ≠ 10 := fun hvalue => hc (Char.ext (UInt32.toNat_inj.1 hvalue))
    have hnone : [c].count '\n' = 0 := List.count_eq_zero_of_not_mem (by simpa using Ne.symm hc)
    rw [hnone, List.count_eq_zero, String.utf8EncodeChar]
    intro hmem
    generalize c.val.toNat = v at hvalue hmem
    split_ifs at hmem with hone htwo hthree
    all_goals
      simp only [List.mem_cons, List.not_mem_nil, or_false] at hmem
      simp (disch := omega) only [newline_eq_ofNat_iff] at hmem
      omega

theorem length_flatMap_utf8EncodeChar (cs : List Char) :
    (cs.flatMap String.utf8EncodeChar).length = bytes cs := by
  induction cs with
  | nil => rfl
  | cons c cs ih =>
    rw [List.flatMap_cons, List.length_append, ih, String.length_utf8EncodeChar, bytes_cons]

theorem count_newline_flatMap_utf8EncodeChar (cs : List Char) :
    (cs.flatMap String.utf8EncodeChar).count 10 = cs.count '\n' := by
  induction cs with
  | nil => rfl
  | cons c cs ih =>
    rw [List.flatMap_cons, List.count_append, ih, count_newline_utf8EncodeChar, ← List.count_append,
      List.singleton_append]

end Text

theorem newlineBytesBefore_eq {source : String} {front back : List Char}
    (h : source.toList = front ++ back) :
    newlineBytesBefore source (bytes front) = front.count '\n' := by
  have hbytes : source.toUTF8.data.toList = source.toList.flatMap String.utf8EncodeChar := by
    rw [← String.ofList_toList (s := source)]
    change (String.ofList source.toList).toByteArray.data.toList = _
    rw [String.toByteArray_ofList, List.utf8Encode]
    simp
  rw [newlineBytesBefore, hbytes, h, List.flatMap_append, ← length_flatMap_utf8EncodeChar,
    List.take_left, count_newline_flatMap_utf8EncodeChar]

/-! ## The division of a text at an offset -/

/-- The text divides into whole lines, the part of a line and the rest. -/
structure Text.DividesLine (cs above part rest : List Char) : Prop where
  parts : cs = above ++ (part ++ rest)
  ended : above = [] ∨ ∃ xs, above = xs ++ ['\n']
  part : '\n' ∉ part

theorem Text.exists_dividesLine (front rest : List Char) :
    ∃ above part, front = above ++ part ∧ DividesLine (front ++ rest) above part rest := by
  by_cases h : '\n' ∈ front
  · obtain ⟨pre, line, rfl, hline⟩ := Rust.exists_last_newline h
    exact ⟨pre ++ ['\n'], line, by simp, by simp, .inr ⟨pre, rfl⟩, hline⟩
  · exact ⟨[], front, rfl, rfl, .inl rfl, h⟩

/-- The line begins at the offset: at the start of the text or right behind a newline, and with one
newline in front of it for each line above. -/
def BeginsLine (source : String) (line start : Nat) : Prop :=
  ∃ above back, source.toList = above ++ back ∧ (above = [] ∨ ∃ xs, above = xs ++ ['\n']) ∧
    line = above.count '\n' + 1 ∧ start = bytes above

theorem Position.lt_iff {p q : Position} :
    p.lt q = true ↔ p.line < q.line ∨ p.line = q.line ∧ p.column < q.column := by
  simp [Position.lt]

namespace LineIndex

section Division

variable {source : String} {above part rest : List Char}

theorem getElem?_starts (hsource : source.toList = above ++ rest)
    (habove : above = [] ∨ ∃ xs, above = xs ++ ['\n']) :
    (ofText source).starts[above.count '\n']? = some (bytes above, rest) := by
  rcases habove with rfl | ⟨xs, rfl⟩
  · obtain ⟨later, hlater⟩ := exists_lineStarts_cons source.toList
    rw [ofText, hlater, hsource]
    rfl
  · have hline := getElem?_lineStarts xs rest
    rw [List.append_assoc, List.singleton_append] at hsource
    rw [ofText, hsource, List.count_append, List.count_singleton_self, hline, bytes_append]
    rfl

/-- The column of an offset may also count characters of later lines. -/
theorem offset?_eq (hsource : source.toList = above ++ (part ++ rest))
    (habove : above = [] ∨ ∃ xs, above = xs ++ ['\n']) :
    (ofText source).offset? (above.count '\n' + 1) part.length = some (bytes above + bytes part) := by
  have hstart := getElem?_starts hsource habove
  calc (ofText source).offset? (above.count '\n' + 1) part.length
      = (some (bytes above, part ++ rest)).bind
          (fun found => bytesOfFirstFrom found.1 part.length found.2) := congrArg (Option.bind · _) hstart
    _ = some (bytes above + bytes ((part ++ rest).take part.length)) :=
        bytesOfFirstFrom_take (by simp)
    _ = some (bytes above + bytes part) := by rw [List.take_left]

theorem position_of_dividesLine (h : DividesLine source.toList above part rest) :
    (ofText source).position (bytes above + bytes part) = ⟨above.count '\n' + 1, bytes part + 1⟩ := by
  have hlt : ∀ c ∈ rest.head?, bytes above + bytes part < bytes above + bytes part + c.utf8Size :=
    fun c _ => Nat.lt_add_of_pos_right c.utf8Size_pos
  rw [position_eq h.parts h.ended h.part le_rfl hlt, Nat.add_sub_cancel_left]

end Division

/-! ## There and back -/

theorem exists_beginsLine {source : String} {offset : Nat}
    (h : isByteBoundary source offset = true) :
    ∃ start text, BeginsLine source ((ofText source).position offset).line start ∧
      ((ofText source).position offset).line = newlineBytesBefore source offset + 1 ∧
        offset + 1 = start + ((ofText source).position offset).column ∧
          (Span.mk start offset).text? source = some text ∧
            (ofText source).offset? ((ofText source).position offset).line text.toList.length =
              some offset := by
  obtain ⟨front, rest, hsource, rfl⟩ := isBoundary_iff.1 h
  obtain ⟨above, part, rfl, hdivides⟩ := exists_dividesLine front rest
  rw [← hsource] at hdivides
  have hnewlines : newlineBytesBefore source (bytes (above ++ part)) = above.count '\n' := by
    rw [newlineBytesBefore_eq hsource, List.count_append, List.count_eq_zero_of_not_mem hdivides.part]
    rfl
  have htext : (Span.mk (bytes above) (bytes above + bytes part)).text? source =
      some (String.ofList part) :=
    Span.text?_eq_some_iff.2 ⟨above, rest, by simpa using hdivides.parts, rfl, by simp⟩
  have hoffset := offset?_eq hdivides.parts hdivides.ended
  rw [hnewlines, bytes_append, position_of_dividesLine hdivides]
  refine ⟨bytes above, String.ofList part, ?_, rfl, rfl, htext, ?_⟩
  · exact ⟨above, part ++ rest, hdivides.parts, hdivides.ended, rfl, rfl⟩
  · rw [String.toList_ofList]
    exact hoffset

theorem getLastD_takeWhile_le (starts : List Nat) (offset : Nat) :
    (starts.takeWhile (· ≤ offset)).getLastD 0 ≤ offset := by
  rw [List.getLastD_eq_getLast?]
  cases hlast : (starts.takeWhile (· ≤ offset)).getLast? with
  | none => exact Nat.zero_le offset
  | some start =>
    have hmem := List.mem_of_getLast? hlast
    simpa using List.mem_takeWhile_imp hmem

/-- Of the places where lines begin, those up to an earlier offset come first. -/
theorem takeWhile_le_isPrefix (starts : List Nat) {a b : Nat} (h : a ≤ b) :
    starts.takeWhile (· ≤ a) <+: starts.takeWhile (· ≤ b) := by
  have hboth : (starts.takeWhile (· ≤ b)).takeWhile (· ≤ a) = starts.takeWhile (· ≤ a) := by
    rw [List.takeWhile_takeWhile]
    congr 1
    funext start
    by_cases hle : start ≤ a
    · simp [hle, hle.trans h]
    · simp [hle]
  rw [← hboth]
  exact List.takeWhile_prefix _

theorem position_lt_position (source : String) {a b : Nat} (h : a < b) :
    ((ofText source).position a).lt ((ofText source).position b) = true := by
  rw [position_eq_takeWhile, position_eq_takeWhile, Position.lt_iff]
  generalize 0 :: lineEnds 0 source.toList = starts
  dsimp only
  have hlast := getLastD_takeWhile_le starts a
  obtain ⟨more, hmore⟩ := takeWhile_le_isPrefix starts h.le
  cases more with
  | nil =>
    rw [List.append_nil] at hmore
    rw [← hmore]
    exact .inr ⟨rfl, by omega⟩
  | cons start more =>
    have hlength := congrArg List.length hmore
    rw [List.length_append, List.length_cons] at hlength
    exact .inl (by omega)

/-- Lines and columns lose nothing. The position of a boundary of a text has the line behind as many
newlines as stand before it and the byte column at which it stands there, and the characters from the
start of the line on lead back to it. Positions grow with offsets. No line and column leads anywhere
but to a boundary. -/
theorem conversions_lossless (source : String) :
    (∀ offset, offset ≤ byteLength source → isByteBoundary source offset = true →
      ∃ start text, BeginsLine source ((ofText source).position offset).line start ∧
        ((ofText source).position offset).line = newlineBytesBefore source offset + 1 ∧
          offset + 1 = start + ((ofText source).position offset).column ∧
            (Span.mk start offset).text? source = some text ∧
              (ofText source).offset? ((ofText source).position offset).line text.toList.length =
                some offset) ∧
      (∀ a b, a < b → ((ofText source).position a).lt ((ofText source).position b) = true) ∧
        ∀ line column, (ofText source).offset? line column = none ∨ ∃ offset,
          (ofText source).offset? line column = some offset ∧ offset ≤ byteLength source ∧
            isByteBoundary source offset = true := by
  refine ⟨fun _ _ h => exists_beginsLine h, fun _ _ h => position_lt_position source h, ?_⟩
  intro line column
  cases h : (ofText source).offset? line column with
  | none => exact .inl rfl
  | some offset =>
    have hboundary := isByteBoundary_offset? h
    obtain ⟨front, rest, hsource, rfl⟩ := isBoundary_iff.1 hboundary
    have hle : bytes front ≤ byteLength source := by
      rw [byteLength_eq_bytes, hsource, bytes_append]
      exact Nat.le_add_right _ _
    exact .inr ⟨bytes front, rfl, hle, hboundary⟩

/-- A boundary on the second line, behind a letter of two bytes. -/
theorem conversions_lossless_accented :
    4 ≤ byteLength "é\nbc" ∧ isByteBoundary "é\nbc" 4 = true ∧
      (ofText "é\nbc").position 4 = ⟨2, 2⟩ ∧
        ∃ start text, BeginsLine "é\nbc" ((ofText "é\nbc").position 4).line start ∧
          ((ofText "é\nbc").position 4).line = newlineBytesBefore "é\nbc" 4 + 1 ∧
            4 + 1 = start + ((ofText "é\nbc").position 4).column ∧
              (Span.mk start 4).text? "é\nbc" = some text ∧
                (ofText "é\nbc").offset? ((ofText "é\nbc").position 4).line text.toList.length =
                  some 4 := by
  have hle : 4 ≤ byteLength "é\nbc" := by decide +kernel
  have hboundary : isByteBoundary "é\nbc" 4 = true := by decide +kernel
  exact ⟨hle, hboundary, by decide +kernel, (conversions_lossless "é\nbc").1 4 hle hboundary⟩

end LineIndex

end LintMend
