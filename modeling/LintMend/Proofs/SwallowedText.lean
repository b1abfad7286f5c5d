import LintMend.Proofs.Printing

/-!
# Swallowed text

A text that is inserted where a range begins that is replaced after it loses characters to that
range. Counting one character shows it: replacing ranges at once keeps the sum of what is there, what
is taken away and what is put in, while a range that swallows an insertion takes away more.
-/

namespace LintMend

variable {source text result : String} {r : Span × String} {ranges rest : List (Span × String)}
  {m : Char}

/-- The characters that a range takes away from the source. -/
def cut (source : String) (span : Span) : List Char :=
  ((span.text? source).map String.toList).getD []

/-- The characters that several ranges take away. -/
def cuts (source : String) (ranges : List (Span × String)) : List Char :=
  ranges.flatMap fun r => cut source r.1

/-- The characters that are put in for several ranges. -/
def texts (ranges : List (Span × String)) : List Char := ranges.flatMap fun r => r.2.toList

theorem cut_eq {front part back : List Char} {span : Span}
    (h : source.toList = front ++ (part ++ back)) (hstart : Text.bytes front = span.start)
    (hstop : Text.bytes front + Text.bytes part = span.stop) : cut source span = part := by
  simp [cut, Span.text?, ← hstart, ← hstop, sliceBytes?_eq h]

@[simp] theorem cuts_nil (source : String) : cuts source [] = [] := rfl

@[simp] theorem texts_nil : texts [] = [] := rfl

@[simp] theorem count_cuts_cons (m : Char) (source : String) (r : Span × String)
    (rest : List (Span × String)) :
    (cuts source (r :: rest)).count m = (cut source r.1).count m + (cuts source rest).count m := by
  rw [cuts, List.flatMap_cons, List.count_append, cuts]

@[simp] theorem count_texts_cons (m : Char) (r : Span × String) (rest : List (Span × String)) :
    (texts (r :: rest)).count m = r.2.toList.count m + (texts rest).count m := by
  rw [texts, List.flatMap_cons, List.count_append, texts]

/-! ## Replacing at once -/

theorem count_weave (m : Char) {front back : List Char} (hsource : source.toList = front ++ back)
    (hfits : ∀ r ∈ ranges, r.1.fits source = true)
    (hafter : ∀ r ∈ ranges, Text.bytes front ≤ r.1.start) (hapart : Apart ranges)
    (h : weave source (Text.bytes front) ranges = some text) :
    text.toList.count m + (cuts source ranges).count m =
      back.count m + (texts ranges).count m := by
  induction ranges generalizing front back text with
  | nil =>
    rw [weave, sliceBytes?_byteLength hsource] at h
    obtain rfl := Option.some.inj h
    simp
  | cons r rest ih =>
    obtain ⟨span, new⟩ := r
    obtain ⟨hspan, hrest⟩ := List.forall_mem_cons.1 hfits
    obtain ⟨hbefore, -⟩ := List.forall_mem_cons.1 hafter
    obtain ⟨hstops, hapart⟩ := List.pairwise_cons.1 hapart
    obtain ⟨gap, part, after, rfl, hstart, hstop, hgap⟩ := exists_gap hsource hspan hbefore
    have hparts : source.toList = (front ++ gap) ++ (part ++ after) := by simp [hsource]
    have hwhole : source.toList = (front ++ gap ++ part) ++ after := by simp [hsource]
    have hbytes : Text.bytes (front ++ gap ++ part) = span.stop := by
      rw [Text.bytes_append, hstop]
    simp only [weave, hgap, Option.bind_eq_bind, Option.bind_some, Option.bind_eq_some_iff] at h
    obtain ⟨tail, htail, htext⟩ := h
    obtain rfl := Option.some.inj htext
    have hcount := ih hwhole hrest (by rw [hbytes]; exact hstops) hapart (by rw [hbytes]; exact htail)
    simp only [count_cuts_cons, count_texts_cons, cut_eq hparts hstart hstop, String.toList_append,
      List.count_append, String.toList_ofList]
    omega

theorem IsSplice.count (m : Char) (h : IsSplice source ranges text)
    (hfits : ∀ r ∈ ranges, r.1.fits source = true) :
    text.toList.count m + (cuts source ranges).count m =
      source.toList.count m + (texts ranges).count m := by
  obtain ⟨ordered, hperm, hapart, hwoven⟩ := h
  have hcount := count_weave m (List.nil_append source.toList).symm
    (fun r hr => hfits r (hperm.mem_iff.1 hr)) (by simp) hapart hwoven
  rwa [cuts, texts, (hperm.flatMap_right _).count_eq, (hperm.flatMap_right _).count_eq] at hcount

/-! ## Replacing in place -/

theorem replaceRange_eq_ok {span : Span} (h : replaceRange source span text = .ok result) :
    ∃ front part back : List Char, source.toList = front ++ (part ++ back) ∧
      Text.bytes front = span.start ∧ Text.bytes front + Text.bytes part = span.stop ∧
        result.toList = front ++ (text.toList ++ back) := by
  have hsplice : ∃ cs, Text.splice? source.toList span.start span.stop text.toList = some cs := by
    by_contra hnone
    have hnone' := Option.eq_none_iff_forall_ne_some.2 fun cs hcs => hnone ⟨cs, hcs⟩
    simp only [replaceRange, spliceBytes?, hnone', Option.map_none] at h
    split at h
    · simp [abort] at h
    · split at h <;> simp [abort] at h
  obtain ⟨cs, hcs⟩ := hsplice
  have hle : span.start ≤ span.stop := by
    by_contra hgt
    simp [Text.splice?, hgt] at hcs
  rw [Text.splice?, if_pos hle] at hcs
  simp only [Option.bind_eq_bind, Option.bind_eq_some_iff] at hcs
  obtain ⟨i, hi, j, hj, -⟩ := hcs
  obtain ⟨front, part, back, hsource, hstart, hstop⟩ := exists_parts hle
    (Option.isSome_of_eq_some hi) (Option.isSome_of_eq_some hj)
  rw [replaceRange_eq hsource hstart hstop] at h
  obtain rfl := Except.ok.inj h
  exact ⟨front, part, back, hsource, hstart, hstop, by simp⟩

theorem replaceRanges_cons_eq_ok (h : replaceRanges source (r :: rest) = .ok result) :
    ∃ text, replaceRanges source rest = .ok text ∧ replaceRange text r.1 r.2 = .ok result := by
  rw [replaceRanges_cons] at h
  exact Outcome.exists_of_bind_eq_ok h

/-- What stands before all ranges stays as it is. -/
theorem exists_append_of_replaceRanges {front back : List Char}
    (hsource : source.toList = front ++ back)
    (hafter : ∀ r ∈ ranges, Text.bytes front ≤ r.1.start)
    (h : replaceRanges source ranges = .ok result) : ∃ out, result.toList = front ++ out := by
  induction ranges generalizing result with
  | nil =>
    obtain rfl := Except.ok.inj h
    exact ⟨back, hsource⟩
  | cons r rest ih =>
    obtain ⟨hr, hrest⟩ := List.forall_mem_cons.1 hafter
    obtain ⟨text, htext, hresult⟩ := replaceRanges_cons_eq_ok h
    obtain ⟨out, hout⟩ := ih hrest htext
    obtain ⟨upto, part, after, hparts, hstart, -, hnew⟩ := replaceRange_eq_ok hresult
    obtain ⟨gap, rfl, -⟩ := Text.exists_between (hout.symm.trans hparts) (by omega)
    exact ⟨gap ++ (r.2.toList ++ after), by simp [hnew]⟩

/-- Insertions of one character, over and over, at the front of a part of the source that is
otherwise left alone. -/
theorem exists_replicate_of_replaceRanges {front part back : List Char} {span : Span}
    (hsource : source.toList = front ++ (part ++ back)) (hstart : Text.bytes front = span.start)
    (hstop : Text.bytes front + Text.bytes part = span.stop) (hwide : span.start < span.stop)
    (hsorted : ranges.Pairwise fun a b => a.1.start ≤ b.1.start)
    (hcases : ∀ r ∈ ranges, r.1 = ⟨span.start, span.start⟩ ∨ span.stop ≤ r.1.start)
    (htexts : ∀ r ∈ ranges, ∃ n, r.2.toList = List.replicate n m)
    (h : replaceRanges source ranges = .ok result) :
    ∃ k out, result.toList = front ++ (List.replicate k m ++ (part ++ out)) ∧
      ∀ r ∈ ranges, r.1 = ⟨span.start, span.start⟩ → r.2.toList.length ≤ k := by
  induction ranges generalizing result with
  | nil =>
    obtain rfl := Except.ok.inj h
    exact ⟨0, back, hsource, by simp⟩
  | cons r rest ih =>
    obtain ⟨hfirst, hsorted⟩ := List.pairwise_cons.1 hsorted
    by_cases hlate : span.stop ≤ r.1.start
    · have hall : ∀ x ∈ r :: rest, span.stop ≤ x.1.start := by
        refine List.forall_mem_cons.2 ⟨hlate, fun x hx => hlate.trans (hfirst x hx)⟩
      have hfront : source.toList = (front ++ part) ++ back := by simp [hsource]
      obtain ⟨out, hout⟩ := exists_append_of_replaceRanges hfront
        (by rw [Text.bytes_append, hstop]; exact hall) h
      refine ⟨0, out, by simp [hout], fun x hx hspan => ?_⟩
      have hx' := hall x hx
      rw [hspan] at hx'
      simp only at hx'
      omega
    · obtain ⟨hr, hcases⟩ := List.forall_mem_cons.1 hcases
      obtain ⟨⟨n, hn⟩, htexts⟩ := List.forall_mem_cons.1 htexts
      obtain ⟨text, htext, hresult⟩ := replaceRanges_cons_eq_ok h
      obtain ⟨k, out, hout, hlong⟩ := ih hsorted hcases htexts htext
      have hspan := hr.resolve_right hlate
      have hparts : text.toList = front ++ ([] ++ (List.replicate k m ++ (part ++ out))) := by
        simp [hout]
      rw [replaceRange_eq hparts (by rw [hspan, hstart]) (by rw [hspan, hstart]; rfl)] at hresult
      obtain rfl := Except.ok.inj hresult
      refine ⟨n + k, out, ?_, ?_⟩
      · simp only [String.toList_ofList, hn, ← List.replicate_append_replicate, List.append_assoc]
      · refine List.forall_mem_cons.2 ⟨fun _ => by simp [hn], fun x hx hx' => ?_⟩
        exact (hlong x hx hx').trans (Nat.le_add_left k n)

/-! ## Counting marks

The new texts are now made of one character, the mark, which takes one byte. -/

theorem length_le_bytes (cs : List Char) : cs.length ≤ Text.bytes cs := by
  induction cs with
  | nil => simp
  | cons c cs ih =>
    have hc := c.utf8Size_pos
    rw [List.length_cons, Text.bytes_cons]
    omega

theorem bytes_replicate (hm : m.utf8Size = 1) (n : Nat) : Text.bytes (List.replicate n m) = n := by
  induction n with
  | zero => rfl
  | succ n ih => rw [List.replicate_succ, Text.bytes_cons, ih, hm, Nat.add_comm]

/-- A stretch that begins with enough marks has nothing but marks. -/
theorem count_stretch_eq (hm : m.utf8Size = 1) {k : Nat} {stretch after rest : List Char}
    (h : stretch ++ after = List.replicate k m ++ rest) (hk : Text.bytes stretch ≤ k) :
    stretch.count m = Text.bytes stretch := by
  have hle : Text.bytes stretch ≤ Text.bytes (List.replicate k m) := by rwa [bytes_replicate hm]
  obtain ⟨mid, hmarks, -⟩ := Text.exists_between h hle
  have hall : stretch = List.replicate stretch.length m :=
    (List.append_eq_replicate_iff.1 hmarks.symm).2.1
  rw [hall, bytes_replicate hm, List.count_replicate_self]

/-- Marks in front of a part push out of a stretch at most as many marks as they bring into it. -/
theorem count_le_count_stretch (hm : m.utf8Size = 1) {k : Nat}
    {stretch after part out : List Char}
    (h : stretch ++ after = List.replicate k m ++ (part ++ out))
    (hbytes : Text.bytes stretch = Text.bytes part) : part.count m ≤ stretch.count m := by
  rcases Nat.le_total (Text.bytes stretch) k with hk | hk
  · calc part.count m ≤ part.length := List.count_le_length
      _ ≤ Text.bytes part := length_le_bytes part
      _ = stretch.count m := by rw [count_stretch_eq hm h hk, hbytes]
  · -- The marks fill the front of the stretch and push `k` bytes of the part out of it.
    have hle : Text.bytes (List.replicate k m) ≤ Text.bytes stretch := by rwa [bytes_replicate hm]
    obtain ⟨head, hstretch, hrest⟩ := Text.exists_between h.symm hle
    have hhead : Text.bytes stretch = k + Text.bytes head := by
      rw [hstretch, Text.bytes_append, bytes_replicate hm]
    obtain ⟨lost, hpart, -⟩ := Text.exists_between hrest.symm (by omega)
    have hlost : Text.bytes part = Text.bytes head + Text.bytes lost := by
      rw [hpart, Text.bytes_append]
    have hfew : lost.count m ≤ k := by
      calc lost.count m ≤ lost.length := List.count_le_length
        _ ≤ Text.bytes lost := length_le_bytes lost
        _ = k := by omega
    rw [hstretch, hpart, List.count_append, List.count_append, List.count_replicate_self]
    omega

/-- Ranges as they come to be replaced: each fits the source, they are ordered by start, and no two
of them overlap. -/
structure Lined (source : String) (ranges : List (Span × String)) : Prop where
  fits : ∀ r ∈ ranges, r.1.fits source = true
  ordered : ranges.Pairwise fun a b => a.1.start ≤ b.1.start
  clear : ranges.Pairwise fun a b => a.1.overlaps b.1 = false

/-- All new texts are made of the mark. -/
def Marks (m : Char) (ranges : List (Span × String)) : Prop :=
  ∀ r ∈ ranges, ∃ n, r.2.toList = List.replicate n m

theorem Lined.tail (h : Lined source (r :: rest)) : Lined source rest where
  fits x hx := h.fits x (List.mem_cons_of_mem r hx)
  ordered := h.ordered.of_cons
  clear := h.clear.of_cons

theorem Marks.tail (h : Marks m (r :: rest)) : Marks m rest :=
  fun x hx => h x (List.mem_cons_of_mem r hx)

/-- A range that begins before the first one stops is an insertion at its start. -/
theorem Lined.insertion_or_after {x : Span × String} (h : Lined source (r :: rest))
    (hwide : r.1.start < r.1.stop) (hx : x ∈ rest) :
    x.1 = ⟨r.1.start, r.1.start⟩ ∨ r.1.stop ≤ x.1.start := by
  have hends := Span.start_le_stop (h.tail.fits x hx)
  have hstart := List.rel_of_pairwise_cons h.ordered hx
  have hclear := List.rel_of_pairwise_cons h.clear hx
  simp only [Span.overlaps, Bool.and_eq_false_iff, decide_eq_false_iff_not] at hclear
  by_cases hstop : r.1.stop ≤ x.1.start
  · exact .inr hstop
  · left
    have h1 : x.1.start = r.1.start := by omega
    have h2 : x.1.stop = r.1.start := by omega
    exact congrArg₂ Span.mk h1 h2

/-- Once the later ranges are replaced, marks stand between the front of the source and the part of
the first range: all that was inserted where the range begins. -/
theorem exists_moved {front part back : List Char}
    (hsource : source.toList = front ++ (part ++ back)) (hstart : Text.bytes front = r.1.start)
    (hstop : Text.bytes front + Text.bytes part = r.1.stop) (hlined : Lined source (r :: rest))
    (hmarks : Marks m rest) (htext : replaceRanges source rest = .ok text) :
    ∃ k out, text.toList = front ++ (List.replicate k m ++ (part ++ out)) ∧
      (r.1.start < r.1.stop → ∀ x ∈ rest, x.1 = ⟨r.1.start, r.1.start⟩ → x.2.toList.length ≤ k) := by
  by_cases hwide : r.1.start < r.1.stop
  · obtain ⟨k, out, hout, hlong⟩ := exists_replicate_of_replaceRanges hsource hstart hstop hwide
      hlined.tail.ordered (fun x hx => hlined.insertion_or_after hwide hx) hmarks htext
    exact ⟨k, out, hout, fun _ => hlong⟩
  · have hpart : part = [] := by
      rw [← Text.bytes_eq_zero]
      omega
    have hafter : ∀ x ∈ rest, Text.bytes front ≤ x.1.start := by
      intro x hx
      rw [hstart]
      exact List.rel_of_pairwise_cons hlined.ordered hx
    obtain ⟨out, hout⟩ := exists_append_of_replaceRanges hsource hafter htext
    exact ⟨0, out, by simp [hout, hpart], fun h => absurd h hwide⟩

/-- What one replacement takes away: a stretch as wide as its part of the source, read from where the
insertions at its start now stand. -/
theorem exists_stretch (hlined : Lined source (r :: rest)) (hmarks : Marks m rest)
    (htext : replaceRanges source rest = .ok text)
    (hresult : replaceRange text r.1 r.2 = .ok result) :
    ∃ (k : Nat) (stretch after part out : List Char),
      stretch ++ after = List.replicate k m ++ (part ++ out) ∧
        Text.bytes stretch = Text.bytes part ∧ r.1.start + Text.bytes part = r.1.stop ∧
        (cut source r.1).count m = part.count m ∧
        (r.1.start < r.1.stop → ∀ x ∈ rest, x.1 = ⟨r.1.start, r.1.start⟩ → x.2.toList.length ≤ k) ∧
        result.toList.count m + stretch.count m = text.toList.count m + r.2.toList.count m := by
  obtain ⟨front, part, back, hsource, hstart, hstop⟩ :=
    Span.fits_iff.1 (hlined.fits r List.mem_cons_self)
  obtain ⟨k, out, hout, hlong⟩ := exists_moved hsource hstart hstop hlined hmarks htext
  obtain ⟨front', stretch, after, htext', hstart', hstop', hnew⟩ := replaceRange_eq_ok hresult
  obtain ⟨rfl, hstretch⟩ := Text.append_inj_of_bytes (htext'.symm.trans hout) (by omega)
  refine ⟨k, stretch, after, part, out, hstretch, by omega, by omega,
    by rw [cut_eq hsource hstart hstop], hlong, ?_⟩
  rw [hnew, htext']
  simp only [List.count_append]
  omega

theorem count_replaceRange_le (hm : m.utf8Size = 1) (hlined : Lined source (r :: rest))
    (hmarks : Marks m rest) (htext : replaceRanges source rest = .ok text)
    (hresult : replaceRange text r.1 r.2 = .ok result) :
    result.toList.count m + (cut source r.1).count m ≤ text.toList.count m + r.2.toList.count m := by
  obtain ⟨k, stretch, after, part, out, hstretch, hbytes, -, hpart, -, hcount⟩ :=
    exists_stretch hlined hmarks htext hresult
  have hle := count_le_count_stretch hm hstretch hbytes
  omega

/-- A range that swallows a long insertion takes away more marks than it has in the source. -/
theorem count_replaceRange_lt {x : Span × String} (hm : m.utf8Size = 1)
    (hlined : Lined source (r :: rest)) (hmarks : Marks m rest) (hx : x ∈ rest)
    (hspan : x.1 = ⟨r.1.start, r.1.start⟩) (hwide : r.1.start < r.1.stop)
    (hlong : r.1.stop ≤ r.1.start + x.2.toList.length)
    (hrare : r.1.start + (cut source r.1).count m < r.1.stop)
    (htext : replaceRanges source rest = .ok text)
    (hresult : replaceRange text r.1 r.2 = .ok result) :
    result.toList.count m + (cut source r.1).count m < text.toList.count m + r.2.toList.count m := by
  obtain ⟨k, stretch, after, part, out, hstretch, hbytes, hwidth, hpart, hk, hcount⟩ :=
    exists_stretch hlined hmarks htext hresult
  have hmany := hk hwide x hx hspan
  have hall := count_stretch_eq hm hstretch (by omega)
  omega

theorem count_replaceRanges_le (hm : m.utf8Size = 1) (hlined : Lined source ranges)
    (hmarks : Marks m ranges) (h : replaceRanges source ranges = .ok result) :
    result.toList.count m + (cuts source ranges).count m ≤
      source.toList.count m + (texts ranges).count m := by
  induction ranges generalizing result with
  | nil =>
    obtain rfl := Except.ok.inj h
    simp
  | cons r rest ih =>
    obtain ⟨text, htext, hresult⟩ := replaceRanges_cons_eq_ok h
    have hrest := ih hlined.tail hmarks.tail htext
    have hstep := count_replaceRange_le hm hlined hmarks.tail htext hresult
    rw [count_cuts_cons, count_texts_cons]
    omega

/-- Marks are lost for good: no later replacement makes up for the ones that were swallowed. -/
theorem count_replaceRanges_lt {pre : List (Span × String)} {x : Span × String}
    (hm : m.utf8Size = 1) (hlined : Lined source (pre ++ r :: rest))
    (hmarks : Marks m (pre ++ r :: rest)) (hx : x ∈ rest) (hspan : x.1 = ⟨r.1.start, r.1.start⟩)
    (hwide : r.1.start < r.1.stop) (hlong : r.1.stop ≤ r.1.start + x.2.toList.length)
    (hrare : r.1.start + (cut source r.1).count m < r.1.stop)
    (h : replaceRanges source (pre ++ r :: rest) = .ok result) :
    result.toList.count m + (cuts source (pre ++ r :: rest)).count m <
      source.toList.count m + (texts (pre ++ r :: rest)).count m := by
  induction pre generalizing result with
  | nil =>
    obtain ⟨text, htext, hresult⟩ := replaceRanges_cons_eq_ok h
    have hrest := count_replaceRanges_le hm hlined.tail hmarks.tail htext
    have hstep := count_replaceRange_lt hm hlined hmarks.tail hx hspan hwide hlong hrare htext hresult
    rw [List.nil_append, count_cuts_cons, count_texts_cons]
    omega
  | cons p pre ih =>
    obtain ⟨text, htext, hresult⟩ := replaceRanges_cons_eq_ok h
    have hrest := ih hlined.tail hmarks.tail htext
    have hstep := count_replaceRange_le hm hlined hmarks.tail htext hresult
    rw [List.cons_append, count_cuts_cons, count_texts_cons]
    omega

/-- Some one-byte character does not fill a range that is not empty. -/
theorem exists_rare {span : Span} (hfits : span.fits source = true)
    (hwide : span.start < span.stop) :
    ∃ m : Char, m.utf8Size = 1 ∧ span.start + (cut source span).count m < span.stop := by
  obtain ⟨front, part, back, hsource, hstart, hstop⟩ := Span.fits_iff.1 hfits
  cases part with
  | nil =>
    rw [Text.bytes_nil] at hstop
    omega
  | cons c cs =>
    have hother : ∃ m : Char, m.utf8Size = 1 ∧ c ≠ m := by
      by_cases hc : c = 'a'
      · exact ⟨'b', by decide, by simp [hc]⟩
      · exact ⟨'a', by decide, hc⟩
    obtain ⟨m, hm, hne⟩ := hother
    refine ⟨m, hm, ?_⟩
    have hfew : cs.count m ≤ Text.bytes cs := List.count_le_length.trans (length_le_bytes cs)
    have hc := c.utf8Size_pos
    rw [cut_eq hsource hstart hstop, List.count_cons_of_ne hne]
    rw [Text.bytes_cons] at hstop
    omega

end LintMend
