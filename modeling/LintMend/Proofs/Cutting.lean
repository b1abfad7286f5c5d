import LintMend.Program.Span
import Mathlib.Data.String.Basic

/-!
# Texts cut at byte offsets

An offset is a boundary of a text exactly if the text falls into two parts of which the first takes
that many bytes. Boundaries, slices and replaced ranges are all read off such a division, so that
later arguments are about parts of lists and no longer about offsets.
-/

namespace LintMend

namespace Text

theorem bytes_eq_zero {cs : List Char} : bytes cs = 0 ↔ cs = [] := by
  cases cs with
  | nil => simp
  | cons c cs =>
    have hc := c.utf8Size_pos
    simp only [bytes_cons, reduceCtorEq, iff_false]
    omega

theorem bytes_le_of_sublist {cs ds : List Char} (h : cs.Sublist ds) : bytes cs ≤ bytes ds := by
  induction h with
  | slnil => exact Nat.le_refl _
  | cons c _ ih =>
    rw [bytes_cons]
    omega
  | cons_cons c _ ih =>
    rw [bytes_cons, bytes_cons]
    omega

theorem charsBeforeFrom_append (seen : Nat) (pre post : List Char) :
    charsBeforeFrom seen (pre ++ post) (bytes pre) = some (seen + pre.length) := by
  induction pre generalizing seen with
  | nil => cases post <;> rfl
  | cons c pre ih =>
    have hc := c.utf8Size_pos
    obtain ⟨n, hn⟩ : ∃ n, bytes (c :: pre) = n + 1 := ⟨bytes (c :: pre) - 1, by simp; omega⟩
    have hle : c.utf8Size ≤ n + 1 := by rw [← hn, bytes_cons]; omega
    have hrest : n + 1 - c.utf8Size = bytes pre := by rw [← hn, bytes_cons]; omega
    rw [hn, List.cons_append, charsBeforeFrom, if_pos hle, hrest, ih]
    simp [Nat.add_assoc, Nat.add_comm 1]

theorem charsBeforeFrom_eq_some {seen : Nat} {cs : List Char} {offset i : Nat}
    (h : charsBeforeFrom seen cs offset = some i) :
    ∃ pre post, cs = pre ++ post ∧ bytes pre = offset := by
  fun_induction charsBeforeFrom seen cs offset with
  | case1 cs seen => exact ⟨[], cs, rfl, rfl⟩
  | case2 => simp at h
  | case3 seen c cs n hle ih =>
    obtain ⟨pre, post, rfl, hbytes⟩ := ih h
    exact ⟨c :: pre, post, rfl, by simp only [bytes_cons]; omega⟩
  | case4 => simp at h

@[simp] theorem charsBefore?_append (pre post : List Char) :
    charsBefore? (pre ++ post) (bytes pre) = some pre.length := by
  simp [charsBefore?, charsBeforeFrom_append]

/-- A boundary divides the text into two parts. -/
theorem isBoundary_iff {cs : List Char} {offset : Nat} :
    isBoundary cs offset = true ↔ ∃ pre post, cs = pre ++ post ∧ bytes pre = offset := by
  constructor
  · intro h
    obtain ⟨i, hi⟩ := Option.isSome_iff_exists.1 h
    exact charsBeforeFrom_eq_some hi
  · rintro ⟨pre, post, rfl, rfl⟩
    simp [isBoundary]

/-- Of two divisions of a text, the one with the shorter first part comes first. -/
theorem exists_between {pre post pre' post' : List Char} (h : pre ++ post = pre' ++ post')
    (hle : bytes pre ≤ bytes pre') : ∃ mid, pre' = pre ++ mid ∧ post = mid ++ post' := by
  rcases List.append_eq_append_iff.1 h with ⟨mid, hpre, hpost⟩ | ⟨mid, hpre, hpost⟩
  · exact ⟨mid, hpre, hpost⟩
  · have hmid : mid = [] := by
      rw [← bytes_eq_zero]
      rw [hpre, bytes_append] at hle
      omega
    subst hmid
    exact ⟨[], by simpa using hpre.symm, by simpa using hpost.symm⟩

/-- Two divisions of a text at the same byte are the same. -/
theorem append_inj_of_bytes {pre post pre' post' : List Char} (h : pre ++ post = pre' ++ post')
    (hbytes : bytes pre = bytes pre') : pre = pre' ∧ post = post' := by
  obtain ⟨mid, hpre, hpost⟩ := exists_between h (Nat.le_of_eq hbytes)
  have hmid : mid = [] := by
    rw [← bytes_eq_zero]
    rw [hpre, bytes_append] at hbytes
    omega
  subst hmid
  exact ⟨by simp [hpre], by simp [hpost]⟩

@[simp] theorem slice?_append (front part back : List Char) :
    slice? (front ++ (part ++ back)) (bytes front) (bytes front + bytes part) = some part := by
  have hstop : charsBefore? (front ++ (part ++ back)) (bytes front + bytes part) =
      some (front.length + part.length) := by
    have h := charsBefore?_append (front ++ part) back
    simpa using h
  simp [slice?, hstop]

@[simp] theorem splice?_append (front part back new : List Char) :
    splice? (front ++ (part ++ back)) (bytes front) (bytes front + bytes part) new =
      some (front ++ (new ++ back)) := by
  have hstop : charsBefore? (front ++ (part ++ back)) (bytes front + bytes part) =
      some (front.length + part.length) := by
    have h := charsBefore?_append (front ++ part) back
    simpa using h
  simp [splice?, hstop, List.drop_append]

end Text

theorem byteLength_ofList (cs : List Char) : byteLength (String.ofList cs) = Text.bytes cs := by
  rw [byteLength, String.utf8ByteSize_ofList]
  induction cs with
  | nil => rfl
  | cons c cs ih => simp [ih, Nat.add_comm]

theorem byteLength_eq_bytes (s : String) : byteLength s = Text.bytes s.toList := by
  rw [← byteLength_ofList, String.ofList_toList]

theorem Span.start_le_stop {span : Span} {source : String} (h : span.fits source = true) :
    span.start ≤ span.stop := by
  simp only [fits, Bool.and_eq_true, decide_eq_true_eq] at h
  exact h.1.1.1

/-- Two boundaries in order divide the text into three parts. -/
theorem exists_parts {source : String} {start stop : Nat} (hle : start ≤ stop)
    (hstart : isByteBoundary source start = true) (hstop : isByteBoundary source stop = true) :
    ∃ front part back : List Char, source.toList = front ++ (part ++ back) ∧
      Text.bytes front = start ∧ Text.bytes front + Text.bytes part = stop := by
  obtain ⟨front, rest, hsource, hfront⟩ := Text.isBoundary_iff.1 hstart
  obtain ⟨upto, back, hsource', hupto⟩ := Text.isBoundary_iff.1 hstop
  have hbetween : Text.bytes front ≤ Text.bytes upto := by omega
  obtain ⟨part, hpart, hrest⟩ := Text.exists_between (hsource ▸ hsource') hbetween
  refine ⟨front, part, back, by rw [hsource, hrest], hfront, ?_⟩
  rw [← hupto, hpart, Text.bytes_append]

/-- A span that fits divides the text into three parts. -/
theorem Span.fits_iff {span : Span} {source : String} :
    span.fits source = true ↔ ∃ front part back : List Char,
      source.toList = front ++ (part ++ back) ∧ Text.bytes front = span.start ∧
        Text.bytes front + Text.bytes part = span.stop := by
  simp only [fits, Bool.and_eq_true, decide_eq_true_eq]
  constructor
  · rintro ⟨⟨⟨hle, -⟩, hstart⟩, hstop⟩
    exact exists_parts hle hstart hstop
  · rintro ⟨front, part, back, hsource, hstart, hstop⟩
    have hlength : byteLength source = Text.bytes front + (Text.bytes part + Text.bytes back) := by
      rw [byteLength_eq_bytes, hsource, Text.bytes_append, Text.bytes_append]
    refine ⟨⟨⟨by omega, by omega⟩, ?_⟩, ?_⟩
    · exact Text.isBoundary_iff.2 ⟨front, part ++ back, hsource, hstart⟩
    · refine Text.isBoundary_iff.2 ⟨front ++ part, back, by simp [hsource], ?_⟩
      rw [Text.bytes_append, hstop]

/-- A span has a text exactly if the text stands there in the source. -/
theorem Span.text?_eq_some_iff {span : Span} {source text : String} :
    span.text? source = some text ↔ ∃ front back : List Char,
      source.toList = front ++ (text.toList ++ back) ∧ Text.bytes front = span.start ∧
        Text.bytes front + Text.bytes text.toList = span.stop := by
  rw [text?, sliceBytes?, Option.map_eq_some_iff]
  constructor
  · rintro ⟨part, hslice, rfl⟩
    have hcut := hslice
    rw [Text.slice?] at hcut
    split at hcut
    · next hle =>
      simp only [Option.bind_eq_bind, Option.bind_eq_some_iff] at hcut
      rcases hcut with ⟨i, hi, j, hj, -⟩
      rcases exists_parts hle (Option.isSome_of_eq_some hi) (Option.isSome_of_eq_some hj) with
        ⟨front, part', back, hsource, hstart, hstop⟩
      rw [hsource, ← hstart, ← hstop, Text.slice?_append] at hslice
      cases hslice
      rw [String.toList_ofList]
      exact ⟨front, back, hsource, hstart, hstop⟩
    · cases hcut
  · rintro ⟨front, back, hsource, hstart, hstop⟩
    refine ⟨text.toList, ?_, String.ofList_toList⟩
    rw [hsource, ← hstart, ← hstop, Text.slice?_append]

end LintMend
