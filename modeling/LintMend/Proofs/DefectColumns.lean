import LintMend.Check.Checker
import LintMend.Proofs.FoundText

/-!
# Columns of defects

A defect begins at the column of its origin, or as far behind it as its token stands on the first line
of the origin. Its end is as far behind the column of the origin as the text it covers is wide. So
building a defect is given up exactly if that end does not fit a word, and a defect of an origin in
another column is the same one moved.
-/

namespace LintMend

theorem byteLength_originLine_le (u : ProgramUnit) (o : Origin) :
    byteLength (u.originLine o) ≤ byteLength u.source := by
  rw [ProgramUnit.originLine]
  split
  · next text htext =>
    change Span.text? ⟨_, _⟩ u.source = some text at htext
    rcases Span.text?_eq_some_iff.1 htext with ⟨front, back, hsource, -, -⟩
    have hslice : text.toList.Sublist u.source.toList := by
      rw [hsource]
      exact (List.sublist_append_left _ _).trans (List.sublist_append_right _ _)
    rw [byteLength_ofList, byteLength_eq_bytes]
    exact Text.bytes_le_of_sublist ((List.takeWhile_sublist _).trans hslice)
  · exact Nat.zero_le _

namespace Context

/-- How far behind its origin a token stands on the first line of the origin. A token that is not
there counts as standing right at the origin. -/
def tokenOffset (c : Context) (o : Origin) (token : String) : Nat :=
  (Text.rfind? token.toList (c.unit.originLine o).toList).getD 0

theorem tokenOffset_add_le (c : Context) (o : Origin) (token : String) :
    c.tokenOffset o token + byteLength token ≤ max (byteLength c.unit.source) (byteLength token) := by
  rw [tokenOffset]
  cases h : Text.rfind? token.toList (c.unit.originLine o).toList with
  | none => simp
  | some offset =>
    have hwithin := (Text.occursAt_of_rfind? h).add_le
    have hline := byteLength_originLine_le c.unit o
    rw [← byteLength_eq_bytes, ← byteLength_eq_bytes] at hwithin
    exact (hwithin.trans hline).trans (Nat.le_max_left _ _)

/-- What is left of a sum that does not fit. -/
def overflow : Abort := ⟨"attempt to add with overflow"⟩

/-- A defect of an origin that ends `width` bytes behind it. -/
def buildAt (c : Context) (o : Origin) (start width : Nat) (description : String) : Outcome Defect :=
  if o.column + width < wordLimit then
    .ok (c.build o.line (o.column + start) (o.column + width) description)
  else .error overflow

theorem eq_build_of_buildAt {c : Context} {o : Origin} {start width : Nat} {description : String}
    {d : Defect} (h : c.buildAt o start width description = .ok d) :
    d = c.build o.line (o.column + start) (o.column + width) description := by
  rw [buildAt] at h
  split at h
  · exact (Except.ok.inj h).symm
  · cases h

theorem defect_eq_buildAt (c : Context) (o : Origin) (description : String) :
    c.defect o description = c.buildAt o 0 (byteLength (c.unit.originLine o)) description := by
  by_cases h : o.column + byteLength (c.unit.originLine o) < wordLimit
  · simp [defect, buildAt, addWord, h]
  · simp only [defect, buildAt, addWord, h, if_false]
    rfl

/-- The two sums of a token's columns are given up exactly if the second is. -/
theorem defectAt_eq_buildAt (c : Context) (o : Origin) (token description : String) :
    c.defectAt o token description =
      c.buildAt o (c.tokenOffset o token) (c.tokenOffset o token + byteLength token) description := by
  rw [defectAt, columnOf, tokenOffset]
  cases h : Text.rfind? token.toList (c.unit.originLine o).toList with
  | none =>
    by_cases hstop : o.column + byteLength token < wordLimit
    · simp [buildAt, addWord, hstop, bind, Except.bind, pure, Except.pure]
    · simp [buildAt, addWord, hstop, bind, Except.bind, overflow, abort]
  | some offset =>
    by_cases hstop : o.column + (offset + byteLength token) < wordLimit
    · have hstart : o.column + offset < wordLimit := by omega
      simp [buildAt, addWord, hstart, hstop, bind, Except.bind, pure, Except.pure,
        Nat.add_assoc]
    · have hsum : ¬ o.column + offset + byteLength token < wordLimit := by omega
      by_cases hstart : o.column + offset < wordLimit
      · simp [buildAt, addWord, hstart, hstop, hsum, bind, Except.bind, overflow, abort]
      · simp [buildAt, addWord, hstart, hstop, bind, Except.bind, overflow, abort]

/-- A defect at the token ends in a column that fits a word. -/
def Fits (c : Context) (o : Origin) (token : String) : Prop :=
  o.column + (c.tokenOffset o token + byteLength token) < wordLimit

/-- The defect at the token, with columns that may not fit a word. -/
def defectOf (c : Context) (o : Origin) (token description : String) : Defect :=
  c.build o.line (o.column + c.tokenOffset o token)
    (o.column + (c.tokenOffset o token + byteLength token)) description

theorem defectAt_of_fits {c : Context} {o : Origin} {token : String} (h : c.Fits o token)
    (description : String) : c.defectAt o token description = .ok (c.defectOf o token description) := by
  rw [defectAt_eq_buildAt, buildAt]
  exact if_pos h

theorem defectAt_of_not_fits {c : Context} {o : Origin} {token : String} (h : ¬ c.Fits o token)
    (description : String) : c.defectAt o token description = .error overflow := by
  rw [defectAt_eq_buildAt, buildAt]
  exact if_neg h

end Context

end LintMend
