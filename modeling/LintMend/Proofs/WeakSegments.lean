import LintMend.Proofs.DiskPlaces
import LintMend.Proofs.ProposedFixes
import Mathlib.Data.List.DropRight

/-!
# Weak segments of names

The rule on weak cryptography cuts a name into segments and takes the first one that names a weak
algorithm. Its patch is then placed where the letters of this segment first stand in the text of the
expression. That is the segment itself exactly if no segment before it holds the same letters. If one
does, the patch renames a piece in the middle of another identifier.
-/

namespace LintMend

/-! ## Segments -/

namespace Text

/-- The piece is a longest run of characters of the text that are no separators. -/
structure IsSegment (p : Char → Bool) (cs before piece after : List Char) : Prop where
  parts : cs = before ++ (piece ++ after)
  nonempty : piece ≠ []
  plain : ∀ c ∈ piece, p c = false
  left : ∀ c ∈ before.getLast?, p c = true
  right : ∀ c ∈ after.head?, p c = true

variable {p : Char → Bool} {cs before piece after : List Char}

/-- Splitting goes on behind the first separator, if there is one. -/
theorem splitWhen_cases (p : Char → Bool) (cs : List Char) :
    ((∀ c ∈ cs, p c = false) ∧ splitWhen p cs = [cs]) ∨
      ∃ first c rest, cs = first ++ c :: rest ∧ p c = true ∧ (∀ d ∈ first, p d = false) ∧
        splitWhen p cs = first :: splitWhen p rest := by
  induction cs with
  | nil => exact .inl ⟨by simp, rfl⟩
  | cons d cs ih =>
    by_cases hd : p d = true
    · refine .inr ⟨[], d, cs, rfl, hd, by simp, ?_⟩
      rw [splitWhen, if_pos hd]
    · rw [Bool.not_eq_true] at hd
      rcases ih with ⟨hplain, hsplit⟩ | ⟨first, c, rest, rfl, hc, hplain, hsplit⟩
      · refine .inl ⟨List.forall_mem_cons.2 ⟨hd, hplain⟩, ?_⟩
        simp [splitWhen, hd, hsplit]
      · refine .inr ⟨d :: first, c, rest, rfl, hc, List.forall_mem_cons.2 ⟨hd, hplain⟩, ?_⟩
        simp [splitWhen, hd, hsplit]

/-- A piece that is not empty is a segment, and the pieces before it are those of what stands before
it. -/
theorem exists_isSegment {xs ys : List (List Char)} (h : splitWhen p cs = xs ++ piece :: ys)
    (hpiece : piece ≠ []) :
    ∃ before after, IsSegment p cs before piece after ∧ splitWhen p before = xs ++ [[]] := by
  induction xs generalizing cs with
  | nil =>
    rw [List.nil_append] at h
    rcases splitWhen_cases p cs with ⟨hplain, hsplit⟩ | ⟨first, c, rest, rfl, hc, hplain, hsplit⟩
    · cases h.symm.trans hsplit
      exact ⟨[], [], ⟨by simp, hpiece, hplain, by simp, by simp⟩, rfl⟩
    · cases h.symm.trans hsplit
      exact ⟨[], c :: rest, ⟨rfl, hpiece, hplain, by simp, by simpa using hc⟩, rfl⟩
  | cons x xs ih =>
    rcases splitWhen_cases p cs with ⟨hplain, hsplit⟩ | ⟨first, c, rest, rfl, hc, hplain, hsplit⟩
    · have hlength := congrArg List.length (h.symm.trans hsplit)
      simp at hlength
    · rcases List.cons.inj (h.symm.trans hsplit) with ⟨rfl, hrest⟩
      rcases ih hrest.symm with ⟨before, after, hsegment, hbefore⟩
      refine ⟨x ++ c :: before, after, ⟨?_, hpiece, hsegment.plain, ?_, hsegment.right⟩, ?_⟩
      · rw [hsegment.parts]
        simp
      · intro d hd
        cases before with
        | nil =>
          obtain rfl : c = d := by simpa using hd
          exact hc
        | cons b before => exact hsegment.left d (by simpa [List.getLast?_append] using hd)
      · rw [splitWhen_append_cons hc, splitWhen_eq_singleton hplain, hbefore]
        rfl

theorem IsSegment.mem_splitWhen (h : IsSegment p cs before piece after) : piece ∈ splitWhen p cs := by
  have htail : piece ∈ splitWhen p (piece ++ after) := by
    cases after with
    | nil =>
      rw [List.append_nil, splitWhen_eq_singleton h.plain]
      exact List.mem_singleton_self _
    | cons c after =>
      rw [splitWhen_append_cons (h.right c rfl), splitWhen_eq_singleton h.plain]
      exact List.mem_append_left _ (List.mem_singleton_self _)
  rw [h.parts]
  cases List.eq_nil_or_concat' before with
  | inl hnil =>
    rw [hnil]
    exact htail
  | inr hconcat =>
    rcases hconcat with ⟨front, c, rfl⟩
    have hc : p c = true := h.left c (by simp)
    rw [List.append_assoc, List.singleton_append, splitWhen_append_cons hc]
    exact List.mem_append_right _ htail

/-- The characters up to the next separator. -/
theorem exists_run_right (p : Char → Bool) (cs : List Char) : ∃ run after, cs = run ++ after ∧
    (∀ c ∈ run, p c = false) ∧ ∀ c ∈ after.head?, p c = true := by
  refine ⟨cs.takeWhile (!p ·), cs.dropWhile (!p ·), List.takeWhile_append_dropWhile.symm, ?_, ?_⟩
  · intro c hc
    simpa using List.mem_takeWhile_imp hc
  · intro c hc
    have hhead := List.head?_dropWhile_not (!p ·) cs
    rw [Option.mem_def.1 hc] at hhead
    simpa using hhead

/-- The characters back to the last separator. -/
theorem exists_run_left (p : Char → Bool) (cs : List Char) : ∃ before run, cs = before ++ run ∧
    (∀ c ∈ run, p c = false) ∧ ∀ c ∈ before.getLast?, p c = true := by
  rcases exists_run_right p cs.reverse with ⟨run, after, hparts, hrun, hafter⟩
  refine ⟨after.reverse, run.reverse, ?_, ?_, ?_⟩
  · rw [← List.reverse_append, ← hparts, List.reverse_reverse]
  · intro c hc
    exact hrun c (List.mem_reverse.1 hc)
  · rw [List.getLast?_reverse]
    exact hafter

/-- Letters that are no separators stand in one segment. -/
theorem exists_segment_around {part : List Char} (hpart : part ≠ [])
    (hplain : ∀ c ∈ part, p c = false) (front back : List Char) :
    ∃ before left right after, front = before ++ left ∧
      IsSegment p (front ++ (part ++ back)) before (left ++ (part ++ right)) after := by
  rcases exists_run_left p front with ⟨before, left, rfl, hleft, hbefore⟩
  rcases exists_run_right p back with ⟨right, after, rfl, hright, hafter⟩
  refine ⟨before, left, right, after, rfl, ?_, ?_, ?_, hbefore, hafter⟩
  · simp
  · simp [hpart]
  · rw [List.forall_mem_append, List.forall_mem_append]
    exact ⟨hleft, hplain, hright⟩

/-- A segment is found at its own place, or inside of a segment before it. -/
theorem find?_segment_cases {rest : List Char} {offset : Nat} (h : IsSegment p cs before piece after)
    (hfind : find? piece (cs ++ rest) = some offset) :
    (offset = bytes before ∧ ∀ b t a, IsSegment p before b t a → ¬ piece <:+: t) ∨
      ∃ b left right a, IsSegment p before b (left ++ (piece ++ right)) a ∧
        offset = bytes (b ++ left) := by
  have hown : OccursAt piece (cs ++ rest) (bytes before) := by
    refine ⟨before, after ++ rest, ?_, rfl⟩
    rw [h.parts]
    simp
  rcases occursAt_of_find? hfind with ⟨front, back, hparts, rfl⟩
  have hle : bytes front ≤ bytes before := find?_le hfind hown
  have hcut : front ++ (piece ++ back) = before ++ (piece ++ (after ++ rest)) := by
    rw [← hparts, h.parts]
    simp
  rcases exists_between hcut hle with ⟨mid, rfl, hmid⟩
  by_cases hempty : mid = []
  · -- Nothing before it holds its letters, since they would have been found there.
    left
    refine ⟨by rw [hempty, List.append_nil], ?_⟩
    rintro b t a hsegment ⟨left, right, rfl⟩
    have hearlier : OccursAt piece (cs ++ rest) (bytes (b ++ left)) := by
      refine ⟨b ++ left, right ++ (a ++ (piece ++ (after ++ rest))), ?_, rfl⟩
      rw [h.parts, hsegment.parts]
      simp
    have hfirst := find?_le hfind hearlier
    have hbytes := congrArg bytes hsegment.parts
    have hpiece : bytes piece ≠ 0 := mt bytes_eq_zero.1 h.nonempty
    rw [hempty, List.append_nil] at hbytes
    simp only [bytes_append] at hbytes hfirst
    omega
  · -- A separator ends what stands before the segment, and the letters found hold none.
    right
    have hlast : p (mid.getLast hempty) = true := by
      apply h.left
      rw [List.getLast?_append_of_ne_nil _ hempty, List.getLast?_eq_some_getLast hempty]
      rfl
    have hinside : ∃ back', mid = piece ++ back' := by
      rcases List.append_eq_append_iff.1 hmid with ⟨behind, hbehind, -⟩ | ⟨behind, hbehind, -⟩
      · exact ⟨behind, hbehind⟩
      · have hmem : mid.getLast hempty ∈ piece := by
          rw [hbehind]
          exact List.mem_append_left _ (List.getLast_mem hempty)
        rw [h.plain _ hmem] at hlast
        cases hlast
    rcases hinside with ⟨back', rfl⟩
    rcases exists_segment_around h.nonempty h.plain front back' with
      ⟨b, left, right, a, rfl, hsegment⟩
    exact ⟨b, left, right, a, hsegment, rfl⟩

end Text

/-! ## The first weak segment -/

namespace WeakCrypto

/-- Names are cut at colons and dots. -/
def isSeparator (c : Char) : Bool := c == ':' || c == '.'

/-- The letters are the name of a weak algorithm, in any case. -/
def IsWeak (letters : List Char) : Prop :=
  ∃ known ∈ algorithms, known.1.toList = Text.lowerAscii letters

/-- The segment is the first one of the name that is weak. -/
structure IsFirstWeak (name before segment after : List Char) : Prop where
  isSegment : Text.IsSegment isSeparator name before segment after
  weak : IsWeak segment
  first : ∀ b t a, Text.IsSegment isSeparator before b t a → ¬ IsWeak t

/-- The weak algorithm that a piece of a name names, with its replacement. -/
def weakPiece? (piece : String) : Option (String × Option String) :=
  (algorithms.find? fun known => known.1.toList == Text.lowerAscii piece.toList).map
    fun known => (piece, known.2)

theorem weakPiece?_eq_none {piece : String} (h : weakPiece? piece = none) : ¬ IsWeak piece.toList := by
  rintro ⟨known, hknown, hletters⟩
  have hnone := List.find?_eq_none.1 (Option.map_eq_none_iff.1 h) known hknown
  exact hnone (beq_iff_eq.2 hletters)

theorem eq_of_weakPiece? {piece segment : String} {replacement : Option String}
    (h : weakPiece? piece = some (segment, replacement)) : piece = segment ∧ IsWeak piece.toList := by
  rcases Option.map_eq_some_iff.1 h with ⟨known, hknown, hsame⟩
  cases hsame
  have hletters := List.find?_some hknown
  exact ⟨rfl, known, List.mem_of_find?_eq_some hknown, beq_iff_eq.1 hletters⟩

theorem weakPiece?_empty : weakPiece? (String.ofList []) = none := by decide +kernel

/-- Empty pieces can be left out of the search: no algorithm has an empty name. -/
theorem findSome?_segments (name : String) :
    (segments name).findSome? weakPiece? = (Text.splitWhen isSeparator name.toList).findSome?
      fun piece => weakPiece? (String.ofList piece) := by
  rw [segments, List.findSome?_map]
  change ((Text.splitWhen isSeparator name.toList).filter _).findSome? _ = _
  generalize Text.splitWhen isSeparator name.toList = pieces
  induction pieces with
  | nil => rfl
  | cons piece pieces ih =>
    cases piece with
    | nil =>
      rw [List.findSome?_cons, weakPiece?_empty]
      exact ih
    | cons c cs =>
      rw [List.filter_cons_of_pos rfl, List.findSome?_cons, List.findSome?_cons, ih]
      rfl

/-- The weak piece of an expression is the first weak segment of its name. -/
theorem exists_isFirstWeak {x : Expression} {name segment : String} {replacement : Option String}
    (h : weakSegment? x = some (segment, replacement)) (hname : x.name = some name) :
    ∃ before after, IsFirstWeak name.toList before segment.toList after := by
  have hfound : (segments name).findSome? weakPiece? = some (segment, replacement) := by
    rw [weakSegment?, hname] at h
    exact h
  rw [findSome?_segments] at hfound
  rcases List.findSome?_eq_some_iff.1 hfound with ⟨xs, piece, ys, hsplit, hpiece, hbefore⟩
  rcases eq_of_weakPiece? hpiece with ⟨rfl, hweak⟩
  rw [String.toList_ofList] at hweak ⊢
  have hne : piece ≠ [] := by
    rintro rfl
    rw [weakPiece?_empty] at hpiece
    cases hpiece
  rcases Text.exists_isSegment hsplit hne with ⟨before, after, hsegment, hpieces⟩
  refine ⟨before, after, hsegment, hweak, ?_⟩
  intro b t a ht
  have hmem := ht.mem_splitWhen
  rw [hpieces, List.mem_append, List.mem_singleton] at hmem
  have hearlier : t ∈ xs := hmem.resolve_right ht.nonempty
  have hnot := weakPiece?_eq_none (hbefore t hearlier)
  rwa [String.toList_ofList] at hnot

/-! ## Where patches go -/

/-- The span of a part of an expression's text, with what stands before it. -/
def partSpan (x : Expression) (front part : List Char) : Span :=
  ⟨x.origin.span.start + Text.bytes front, x.origin.span.start + Text.bytes front + Text.bytes part⟩

theorem partSpan_eq_iff {x : Expression} {front front' part : List Char} :
    partSpan x front part = partSpan x front' part ↔ Text.bytes front = Text.bytes front' := by
  rw [partSpan, partSpan, Span.mk.injEq]
  omega

/-- For an expression that begins with its name, a patch covers the first weak segment of the name
exactly if no segment before it holds its letters. If one does, the patch covers a piece of it and
leaves something of it over. -/
theorem patch_covers_segment_iff {c : Context} {s : Statement} {x : Expression} {i : Issue} {p : Patch}
    {name : String} (hi : i ∈ rule.issuesAlone c (.expression s x)) (hp : i.fix = some (.patch p))
    (hname : x.name = some name) (hbegins : name.toList <+: x.text.toList)
    (htext : x.origin.span.text? c.unit.source = some x.text) :
    ∃ edit before segment after, p.edits = [edit] ∧
      IsFirstWeak name.toList before segment after ∧
      edit.span.text? c.unit.source = some (String.ofList segment) ∧
      (edit.span = partSpan x before segment ↔
        ∀ b t a, Text.IsSegment isSeparator before b t a → ¬ segment <:+: t) ∧
      (edit.span ≠ partSpan x before segment → ∃ b left right a, left ++ right ≠ [] ∧
        Text.IsSegment isSeparator before b (left ++ (segment ++ right)) a ∧
        edit.span = partSpan x (b ++ left) segment) := by
  rcases exists_of_mem_issuesAlone rfl hi with ⟨issues, h, hi⟩
  rcases proposes_of_check h hi hp with ⟨s', x', segment, replacement, offset, hsame, hproposes⟩
  cases hsame
  rcases exists_isFirstWeak hproposes.weak hname with ⟨before, after, hfirst⟩
  rcases hproposes.exists_apply htext with ⟨front, back, hsource, hstart, -⟩
  rcases hbegins with ⟨rest, hrest⟩
  have hfound := hproposes.found
  rw [← hrest] at hfound
  have hpiece : Text.bytes segment.toList ≠ 0 := mt Text.bytes_eq_zero.1 hfirst.isSegment.nonempty
  refine ⟨_, before, segment.toList, after, hproposes.edits, hfirst, ?_, ?_⟩
  · rw [String.ofList_toList, Span.text?_eq_some_iff]
    refine ⟨front, back, hsource, hstart, ?_⟩
    rw [hstart, ← byteLength_eq_bytes]
    rfl
  · have hspan : ∀ place, offset = Text.bytes place →
        (renameEdit c.unit.source (x.origin.span.start + offset) segment
          (matchCase segment replacement)).span = partSpan x place segment.toList := by
      rintro place rfl
      rw [renameEdit, partSpan, byteLength_eq_bytes]
    rcases Text.find?_segment_cases hfirst.isSegment hfound with
      ⟨hoffset, hclear⟩ | ⟨b, left, right, a, hsegment, hoffset⟩
    · exact ⟨iff_of_true (hspan before hoffset) hclear, fun hne => absurd (hspan before hoffset) hne⟩
    · rw [hspan (b ++ left) hoffset]
      have hne : partSpan x (b ++ left) segment.toList ≠ partSpan x before segment.toList := by
        rw [ne_eq, partSpan_eq_iff, hsegment.parts]
        simp only [Text.bytes_append]
        omega
      refine ⟨iff_of_false hne ?_, fun _ => ⟨b, left, right, a, ?_, hsegment, rfl⟩⟩
      · intro hclear
        exact hclear _ _ _ hsegment ⟨left, right, List.append_assoc _ _ _⟩
      · -- Were nothing left over, the earlier segment would be weak itself.
        intro hnothing
        rcases List.append_eq_nil_iff.1 hnothing with ⟨rfl, rfl⟩
        rw [List.nil_append, List.append_nil] at hsegment
        exact hfirst.first _ _ _ hsegment hfirst.weak

/-- A call with a weak segment behind one that is not. -/
def ringCall : Expression := ⟨.call, some "ring::MD5::new", "ring::MD5::new(x)", ⟨1, 1, ⟨0, 17⟩⟩⟩

/-- The call as all of a source. -/
def ringContext : Context :=
  ⟨{ name := "m", path := "m.rs", source := "ring::MD5::new(x)" }, "weak-crypto", .error, ""⟩

def ringStatement : Statement := ⟨0, ⟨1, 1, ⟨0, 17⟩⟩, "ring::MD5::new(x)", [ringCall], none⟩

theorem patch_covers_segment_iff_ring :
    ∃ i p, i ∈ rule.issuesAlone ringContext (.expression ringStatement ringCall) ∧
      i.fix = some (.patch p) ∧ ringCall.name = some "ring::MD5::new" ∧
      "ring::MD5::new".toList <+: ringCall.text.toList ∧
      ringCall.origin.span.text? ringContext.unit.source = some ringCall.text ∧
      ∃ edit before segment after, p.edits = [edit] ∧
        IsFirstWeak "ring::MD5::new".toList before segment after ∧
        (edit.span = partSpan ringCall before segment ↔
          ∀ b t a, Text.IsSegment isSeparator before b t a → ¬ segment <:+: t) := by
  have hpatches : (rule.issuesAlone ringContext (.expression ringStatement ringCall)).filterMap
      Issue.patch? = [⟨"Replace `MD5` with `Sha256`", [⟨⟨6, 9⟩, "MD5", "Sha256"⟩]⟩] := by
    decide +kernel
  have hbegins : "ring::MD5::new".toList <+: ringCall.text.toList := by decide +kernel
  have htext : ringCall.origin.span.text? ringContext.unit.source = some ringCall.text := by
    decide +kernel
  rcases List.mem_filterMap.1 (hpatches ▸ List.mem_singleton_self _) with ⟨i, hi, hpatch⟩
  have hp := Issue.fix_of_patch? hpatch
  rcases patch_covers_segment_iff hi hp rfl hbegins htext with
    ⟨edit, before, segment, after, hedit, hfirst, -, hiff, -⟩
  exact ⟨i, _, hi, hp, rfl, hbegins, htext, edit, before, segment, after, hedit, hfirst, hiff⟩

/-- A source in which the letters of the weak segment stand in the segment before it, too. -/
def shadowed : String := "fn f() \x7b my_md5::md5(x); \x7d"

/-- The call in it. -/
def shadowedCall : Expression := ⟨.call, some "my_md5::md5", "my_md5::md5(x)", ⟨1, 10, ⟨9, 23⟩⟩⟩

theorem isFirstWeak_shadowed :
    IsFirstWeak "my_md5::md5".toList "my_md5::".toList "md5".toList [] := by
  have hletters : "md5".toList = ['m', 'd', '5'] := by decide +kernel
  have hlast : "my_md5::".toList.getLast? = some ':' := by decide +kernel
  refine ⟨⟨by decide +kernel, ?_, ?_, ?_, ?_⟩, ?_, ?_⟩
  · rw [hletters]
    exact List.cons_ne_nil _ _
  · rw [hletters]
    simp [isSeparator]
  · rw [hlast]
    rintro c ⟨⟩
    rfl
  · simp
  · exact ⟨("md5", some "sha256"), by decide +kernel, by decide +kernel⟩
  · intro b t a hsegment
    have hpieces : Text.splitWhen isSeparator "my_md5::".toList = ["my_md5".toList, [], []] := by
      decide +kernel
    have hmem := hsegment.mem_splitWhen
    rw [hpieces] at hmem
    obtain rfl : t = "my_md5".toList := by simpa [hsegment.nonempty] using hmem
    exact weakPiece?_eq_none (by decide +kernel)

/-- The patch for the call renames a piece of the first segment and leaves the weak one alone. -/
theorem patch_misses_segment_shadowed :
    (Frontend.parse "a.rs" "a.rs" shadowed).toOption.map
        (fun u => u.statements.flatMap (·.expressions)) = some [shadowedCall] ∧
      IsFirstWeak "my_md5::md5".toList "my_md5::".toList "md5".toList [] ∧
      partSpan shadowedCall "my_md5::".toList "md5".toList = ⟨17, 20⟩ ∧
      ((Run.ofConfig {}).checkSource "a.rs" "a.rs" shadowed).toOption.map
        (fun report => report.issues.filterMap Issue.patch?) =
          some [⟨"Replace `md5` with `sha256`", [⟨⟨12, 15⟩, "md5", "sha256"⟩]⟩] := by
  exact ⟨by decide +kernel, isFirstWeak_shadowed, by decide +kernel, by decide +kernel⟩

end WeakCrypto

end LintMend
