import LintMend.Proofs.DefectColumns
import LintMend.Proofs.LinePositions

/-!
# Columns of tokens

A defect at a token is looked for on the first line of a span. If the token stands there, the line and
the column of the defect lead to its last occurrence, read in the whole source and counted in bytes. If
it does not, the column is the one at which the span begins.
-/

namespace LintMend

open Text

/-! ## The first line of a span -/

/-- The characters `part` are those of the span up to its end or the end of its first line, whichever
comes first. -/
structure Span.FirstLine (span : Span) (source : String) (front part back : List Char) : Prop where
  parts : source.toList = front ++ (part ++ back)
  start : bytes front = span.start
  stop_le : bytes front + bytes part ≤ span.stop
  newline_notMem : '\n' ∉ part
  ended : bytes front + bytes part = span.stop ∨ back.head? = some '\n'

theorem Text.newline_notMem_takeWhile (cs : List Char) : '\n' ∉ cs.takeWhile (· != '\n') := by
  intro hmem
  simpa using List.mem_takeWhile_imp hmem

/-- Behind the characters that are no newlines there is a newline, or nothing. -/
theorem Text.dropWhile_newline (cs : List Char) :
    cs.dropWhile (· != '\n') = [] ∨ (cs.dropWhile (· != '\n')).head? = some '\n' := by
  cases h : cs.dropWhile (· != '\n') with
  | nil => exact .inl rfl
  | cons c rest =>
    have hc : c = '\n' := by
      have hnot := List.head_dropWhile_not (· != '\n') (l := cs) (by simp [h])
      simpa [h] using hnot
    exact .inr (congrArg some hc)

theorem Span.fits.exists_firstLine {span : Span} {u : ProgramUnit} {o : Origin}
    (h : span.fits u.source = true) (ho : o.span = span) :
    ∃ front part back, span.FirstLine u.source front part back ∧ u.originLine o = String.ofList part := by
  obtain ⟨front, piece, tail, hsource, hstart, hstop⟩ := Span.fits_iff.1 h
  have hlength : byteLength u.source = bytes front + (bytes piece + bytes tail) := by
    rw [byteLength_eq_bytes, hsource, bytes_append, bytes_append]
  have htext : sliceBytes? u.source span.start span.stop = some (String.ofList piece) := by
    rw [sliceBytes?, hsource, ← hstart, ← hstop, slice?_append, Option.map_some]
  have hpiece : piece.takeWhile (· != '\n') ++ piece.dropWhile (· != '\n') = piece :=
    List.takeWhile_append_dropWhile
  have hbytes := congrArg bytes hpiece
  rw [bytes_append] at hbytes
  refine ⟨front, piece.takeWhile (· != '\n'), piece.dropWhile (· != '\n') ++ tail, ?_, ?_⟩
  · refine ⟨?_, hstart, by omega, newline_notMem_takeWhile piece, ?_⟩
    · rw [← List.append_assoc (piece.takeWhile _), hpiece, hsource]
    · rcases dropWhile_newline piece with hnone | hnewline
      · left
        rw [hnone, bytes_nil] at hbytes
        omega
      · right
        rw [List.head?_append, hnewline]
        rfl
  · have hmin : min span.stop (byteLength u.source) = span.stop := by omega
    have hmin' : min span.start span.stop = span.start := by omega
    rw [ProgramUnit.originLine, ho, hmin, hmin', htext]
    dsimp only
    rw [String.toList_ofList]

theorem Text.count_newline_le (cs : List Char) : cs.count '\n' ≤ bytes cs := by
  induction cs with
  | nil => exact Nat.le_refl 0
  | cons c cs ih =>
    have hpos := c.utf8Size_pos
    rw [bytes_cons, List.count_cons]
    split <;> omega

/-- The origin of a span is read off the line on which it begins. -/
theorem Span.FirstLine.exists_origin {span : Span} {source : String} {front part back : List Char}
    (h : span.FirstLine source front part back) :
    ∃ above before, front = above ++ before ∧
      DividesLine source.toList above before (part ++ back) ∧
        (LineIndex.ofText source).origin span = ⟨above.count '\n' + 1, bytes before + 1, span⟩ := by
  obtain ⟨above, before, hfront, hdivides⟩ := exists_dividesLine front (part ++ back)
  rw [← h.parts] at hdivides
  have hposition := LineIndex.position_of_dividesLine hdivides
  rw [← bytes_append, ← hfront, h.start] at hposition
  refine ⟨above, before, hfront, hdivides, ?_⟩
  rw [LineIndex.origin, hposition]

/-! ## Where a defect points -/

/-- The line and the start column of the defect lead to the offset, where the token stands inside the
span and on that line. -/
structure Defect.PointsAt (d : Defect) (source : String) (span : Span) (token : String)
    (offset : Nat) : Prop where
  leads : ∃ line start text, d.startLine = (line : Nat) ∧ BeginsLine source line start ∧
    offset + 1 = start + d.startColumn ∧
      (Span.mk start (offset + byteLength token)).text? source = some text ∧ '\n' ∉ text.toList
  occurs : OccursAt token.toList source.toList offset
  start_le : span.start ≤ offset
  le_stop : offset + byteLength token ≤ span.stop

/-- An occurrence on the first line of a span, and a defect with the line and the column of its
beginning. -/
theorem Span.FirstLine.pointsAt {span : Span} {source token : String} {d : Defect}
    {above before pre post back : List Char}
    (h : span.FirstLine source (above ++ before) (pre ++ (token.toList ++ post)) back)
    (hdivides : DividesLine source.toList above before (pre ++ (token.toList ++ post) ++ back))
    (hline : d.startLine = (above.count '\n' + 1 : Nat))
    (hcolumn : d.startColumn = bytes before + 1 + bytes pre) :
    d.PointsAt source span token (span.start + bytes pre) where
  leads := by
    have hsource := hdivides.parts
    have hstart := h.start
    rw [bytes_append] at hstart
    have htext : (Span.mk (bytes above) (span.start + bytes pre + byteLength token)).text? source =
        some (String.ofList (before ++ pre ++ token.toList)) := by
      refine Span.text?_eq_some_iff.2 ⟨above, post ++ back, ?_, rfl, ?_⟩
      · rw [hsource, String.toList_ofList]
        simp only [List.append_assoc]
      · rw [String.toList_ofList, byteLength_eq_bytes, bytes_append, bytes_append]
        dsimp only
        omega
    have hnewline : '\n' ∉ before ++ pre ++ token.toList := by
      have hpart := h.newline_notMem
      have hbefore := hdivides.part
      simp only [List.mem_append, not_or] at hpart ⊢
      exact ⟨⟨hbefore, hpart.1⟩, hpart.2.1⟩
    refine ⟨above.count '\n' + 1, bytes above, _, hline, ?_, by omega, htext, ?_⟩
    · exact ⟨above, _, hsource, hdivides.ended, rfl, rfl⟩
    · rw [String.toList_ofList]
      exact hnewline
  occurs := by
    refine ⟨above ++ before ++ pre, post ++ back, ?_, ?_⟩
    · rw [h.parts]
      simp only [List.append_assoc]
    · rw [bytes_append, h.start]
  start_le := Nat.le_add_right _ _
  le_stop := by
    have hstop := h.stop_le
    have hstart := h.start
    rw [bytes_append _ (token.toList ++ post), bytes_append, bytes_append] at hstop
    rw [bytes_append] at hstart
    rw [byteLength_eq_bytes]
    omega

namespace Context

theorem tokenOffset_eq {c : Context} {o : Origin} {part : List Char}
    (h : c.unit.originLine o = String.ofList part) (token : String) :
    c.tokenOffset o token = (rfind? token.toList part).getD 0 := by
  rw [tokenOffset, h, String.toList_ofList]

/-- Columns fit a word where sources and tokens are as long as texts can be. -/
theorem fits_of_column_le {c : Context} (o : Origin) (token : String)
    (hcolumn : o.column ≤ byteLength c.unit.source) (hsource : byteLength c.unit.source < signedLimit)
    (htoken : byteLength token < signedLimit) : c.Fits o token := by
  have hwidth := (c.tokenOffset_add_le o token).trans_lt (max_lt hsource htoken)
  unfold Fits
  simp only [signedLimit, wordLimit] at *
  omega

/-- A defect at a token of a span is always built, and its columns are as far apart as the token is
wide. If the token stands on the first line of the span, the defect points at it, and no occurrence on
that line is a later one. If it does not, the defect begins with the span. Sources and tokens are as
long as texts can be. -/
theorem defectAt_points_at_last (c : Context) {span : Span} {token : String} (description : String)
    (hfits : span.fits c.unit.source = true) (hspan : span.start < span.stop)
    (hsource : byteLength c.unit.source < signedLimit) (htoken : byteLength token < signedLimit) :
    ∃ d front part back,
      c.defectAt ((LineIndex.ofText c.unit.source).origin span) token description = .ok d ∧
        span.FirstLine c.unit.source front part back ∧
          d.endColumn = d.startColumn + byteLength token ∧
            (token.toList <:+: part → ∃ offset, d.PointsAt c.unit.source span token offset ∧
              ∀ k, OccursAt token.toList part k → span.start + k ≤ offset) ∧
            (¬ token.toList <:+: part →
              d.startColumn = ((LineIndex.ofText c.unit.source).origin span).column) := by
  obtain ⟨front, part, back, hfirst, hpart⟩ := Span.fits.exists_firstLine
    (o := (LineIndex.ofText c.unit.source).origin span) hfits rfl
  obtain ⟨above, before, rfl, hdivides, horigin⟩ := hfirst.exists_origin
  rw [horigin] at hpart ⊢
  have hlength : bytes above + bytes before < byteLength c.unit.source := by
    have hstart := hfirst.start
    rw [bytes_append] at hstart
    have hstop : span.stop ≤ byteLength c.unit.source := by
      simp only [Span.fits, Bool.and_eq_true, decide_eq_true_eq] at hfits
      exact hfits.1.1.2
    omega
  have hline : lineOf (above.count '\n' + 1) = (above.count '\n' + 1 : Nat) := by
    have hnewlines := count_newline_le above
    exact if_pos (by omega)
  have hcolumns := fits_of_column_le ⟨above.count '\n' + 1, bytes before + 1, span⟩ token
    (by dsimp only; omega) hsource htoken
  have hoffset := tokenOffset_eq hpart token
  refine ⟨_, above ++ before, part, back, defectAt_of_fits hcolumns description, hfirst, ?_, ?_, ?_⟩
  · exact (Nat.add_assoc _ _ _).symm
  · intro hinfix
    obtain ⟨pre, post, hparts⟩ := hinfix
    rw [List.append_assoc] at hparts
    obtain ⟨k, hfound, -⟩ := exists_rfind? ⟨pre, post, hparts.symm, rfl⟩
    obtain ⟨pre, post, rfl, rfl⟩ := occursAt_of_rfind? hfound
    rw [hfound] at hoffset
    refine ⟨span.start + bytes pre, hfirst.pointsAt hdivides hline ?_, ?_⟩
    · exact congrArg (bytes before + 1 + ·) hoffset
    · intro k hk
      obtain ⟨last, hlast, hle⟩ := exists_rfind? hk
      cases hfound.symm.trans hlast
      exact Nat.add_le_add_left hle _
  · intro hnone
    have hmissing : rfind? token.toList part = none := by
      cases hfound : rfind? token.toList part with
      | none => rfl
      | some k =>
        obtain ⟨pre, post, rfl, -⟩ := occursAt_of_rfind? hfound
        exact absurd ⟨pre, post, List.append_assoc _ _ _⟩ hnone
    rw [hmissing] at hoffset
    exact congrArg (bytes before + 1 + ·) hoffset

/-- A call over two lines, with a letter of two bytes in front of it, in it and below it. -/
def splitCall : Context := ⟨⟨"a.rs", "a.rs", "é = go(é,\n é);", []⟩, "r", .warning, "docs/rules/r.md"⟩

theorem defectAt_points_at_last_splitCall :
    (splitCall.defectAt ((LineIndex.ofText splitCall.unit.source).origin ⟨3, 17⟩) "é" "x").toOption.map
        (fun d => (d.startLine, d.startColumn, d.endColumn)) = some (1, 9, 11) ∧
      ∃ d front part back,
        splitCall.defectAt ((LineIndex.ofText splitCall.unit.source).origin ⟨3, 17⟩) "é" "x" = .ok d ∧
          Span.FirstLine ⟨3, 17⟩ splitCall.unit.source front part back ∧
            d.endColumn = d.startColumn + byteLength "é" ∧
              ("é".toList <:+: part → ∃ offset, d.PointsAt splitCall.unit.source ⟨3, 17⟩ "é" offset ∧
                ∀ k, OccursAt "é".toList part k → 3 + k ≤ offset) ∧
              (¬ "é".toList <:+: part →
                d.startColumn = ((LineIndex.ofText splitCall.unit.source).origin ⟨3, 17⟩).column) := by
  refine ⟨by decide +kernel, ?_⟩
  have hfits : (Span.mk 3 17).fits splitCall.unit.source = true := by decide +kernel
  have hsource : byteLength splitCall.unit.source < signedLimit := by decide +kernel
  have htoken : byteLength "é" < signedLimit := by decide +kernel
  exact defectAt_points_at_last splitCall "x" hfits (by decide) hsource htoken

end Context

end LintMend
