import LintMend.Program.Splice
import LintMend.Proofs.Cutting
import Mathlib.Data.List.Pairwise

/-!
# In-place replacement against simultaneous replacement

Ranges are replaced one after the other, each in the text that the ones before have left behind.
`weave` replaces them all at once: it reads the source from left to right and puts the new texts
between the gaps. For ranges that fit the source and stand apart, replacing them in place never fails
and gives the woven text.
-/

namespace LintMend

variable {source : String} {ranges : List (Span × String)} {front back : List Char}

/-- The source from `start` on, with each range left out and its new text put in its place. -/
def weave (source : String) (start : Nat) : List (Span × String) → Option String
  | [] => sliceBytes? source start (byteLength source)
  | (span, text) :: rest => do
    let gap ← sliceBytes? source start span.start
    let tail ← weave source span.stop rest
    return gap ++ text ++ tail

/-- Each range stops before the next ones begin. -/
def Apart (ordered : List (Span × String)) : Prop :=
  ordered.Pairwise fun a b => a.1.stop ≤ b.1.start

/-- The text is the source with all ranges replaced at once. -/
def IsSplice (source : String) (ranges : List (Span × String)) (text : String) : Prop :=
  ∃ ordered, ordered.Perm ranges ∧ Apart ordered ∧ weave source 0 ordered = some text

theorem sliceBytes?_eq {part : List Char} (h : source.toList = front ++ (part ++ back)) :
    sliceBytes? source (Text.bytes front) (Text.bytes front + Text.bytes part) =
      some (String.ofList part) := by
  simp [sliceBytes?, h]

/-- The slice that stops at the end of the text. -/
theorem sliceBytes?_byteLength (h : source.toList = front ++ back) :
    sliceBytes? source (Text.bytes front) (byteLength source) = some (String.ofList back) := by
  have hparts : source.toList = front ++ (back ++ []) := by simpa using h
  have hslice := sliceBytes?_eq hparts
  rwa [← Text.bytes_append, ← h, ← byteLength_eq_bytes] at hslice

theorem replaceRange_eq {part : List Char} {span : Span}
    (h : source.toList = front ++ (part ++ back)) (hstart : Text.bytes front = span.start)
    (hstop : Text.bytes front + Text.bytes part = span.stop) (text : String) :
    replaceRange source span text = .ok (String.ofList (front ++ (text.toList ++ back))) := by
  simp [replaceRange, spliceBytes?, h, ← hstart, ← hstop]

@[simp] theorem replaceRanges_nil (source : String) : replaceRanges source [] = .ok source := rfl

theorem replaceRanges_cons (source : String) (r : Span × String) (rest : List (Span × String)) :
    replaceRanges source (r :: rest) =
      (replaceRanges source rest).bind fun text => replaceRange text r.1 r.2 := by
  simp only [replaceRanges, List.reverse_cons, List.foldlM_append, List.foldlM_cons, List.foldlM_nil,
    bind_pure]
  rfl

/-- A range that begins after a part of the source stands behind a gap. -/
theorem exists_gap {span : Span} (hsource : source.toList = front ++ back)
    (hfits : span.fits source = true) (hbefore : Text.bytes front ≤ span.start) :
    ∃ gap part after : List Char, back = gap ++ (part ++ after) ∧
      Text.bytes (front ++ gap) = span.start ∧
        Text.bytes (front ++ gap) + Text.bytes part = span.stop ∧
          sliceBytes? source (Text.bytes front) span.start = some (String.ofList gap) := by
  obtain ⟨upto, part, after, hparts, hstart, hstop⟩ := Span.fits_iff.1 hfits
  obtain ⟨gap, rfl, hback⟩ := Text.exists_between (hsource.symm.trans hparts) (by omega)
  refine ⟨gap, part, after, hback, hstart, hstop, ?_⟩
  have hslice := sliceBytes?_eq (hparts.trans (List.append_assoc front gap _))
  rwa [← Text.bytes_append, hstart] at hslice

/-- Replacing ranges that begin after a part of the source leaves that part as it is. The rest is the
woven text. -/
theorem exists_replaceRanges (hsource : source.toList = front ++ back)
    (hfits : ∀ r ∈ ranges, r.1.fits source = true)
    (hafter : ∀ r ∈ ranges, Text.bytes front ≤ r.1.start) (hapart : Apart ranges) :
    ∃ out : List Char, replaceRanges source ranges = .ok (String.ofList (front ++ out)) ∧
      weave source (Text.bytes front) ranges = some (String.ofList out) := by
  induction ranges generalizing front back with
  | nil =>
    refine ⟨back, ?_, sliceBytes?_byteLength hsource⟩
    rw [replaceRanges_nil, ← hsource, String.ofList_toList]
  | cons r rest ih =>
    obtain ⟨span, text⟩ := r
    obtain ⟨hspan, hrest⟩ := List.forall_mem_cons.1 hfits
    obtain ⟨hbefore, -⟩ := List.forall_mem_cons.1 hafter
    obtain ⟨hstops, hapart⟩ := List.pairwise_cons.1 hapart
    obtain ⟨gap, part, after, rfl, hstart, hstop, hgap⟩ := exists_gap hsource hspan hbefore
    have hwhole : source.toList = (front ++ gap ++ part) ++ after := by simp [hsource]
    have hbytes : Text.bytes (front ++ gap ++ part) = span.stop := by
      rw [Text.bytes_append, hstop]
    obtain ⟨out, hreplaced, hwoven⟩ := ih hwhole hrest (by rw [hbytes]; exact hstops) hapart
    refine ⟨gap ++ (text.toList ++ out), ?_, ?_⟩
    · have hleft : (String.ofList (front ++ gap ++ part ++ out)).toList =
          (front ++ gap) ++ (part ++ out) := by simp
      rw [replaceRanges_cons, hreplaced]
      simpa [Except.bind] using replaceRange_eq hleft hstart hstop text
    · rw [hbytes] at hwoven
      simp [weave, hgap, hwoven, String.ofList_append, String.append_assoc]

/-- Ranges that fit the source and stand apart are replaced without fail, and all at once. -/
theorem replaceRanges_eq_weave (hfits : ∀ r ∈ ranges, r.1.fits source = true)
    (hapart : Apart ranges) :
    ∃ text, replaceRanges source ranges = .ok text ∧ weave source 0 ranges = some text := by
  obtain ⟨out, hreplaced, hwoven⟩ := exists_replaceRanges (List.nil_append source.toList).symm hfits
    (by simp) hapart
  exact ⟨_, hreplaced, hwoven⟩

theorem IsSplice.perm {text : String} {ranges' : List (Span × String)}
    (h : IsSplice source ranges text) (hperm : ranges.Perm ranges') :
    IsSplice source ranges' text := by
  obtain ⟨ordered, hordered, hapart, hwoven⟩ := h
  exact ⟨ordered, hordered.trans hperm, hapart, hwoven⟩

/-! ## Ranges that change nothing -/

/-- The range is empty and gets no text. -/
def isIdle (r : Span × String) : Bool := r.1.start == r.1.stop && r.2 == ""

/-- The ranges are ordered by start, and only idle ones begin where an earlier one has not yet
stopped. -/
def Settled (ordered : List (Span × String)) : Prop :=
  ordered.Pairwise fun a b => a.1.start ≤ b.1.start ∧
    (a.1.stop ≤ b.1.start ∨ isIdle b = true ∧ b.1.start = a.1.start)

theorem Settled.apart_filter (h : Settled ranges) : Apart (ranges.filter fun r => !isIdle r) := by
  apply List.pairwise_filter.2
  refine List.Pairwise.imp ?_ h
  intro a b hab _ hb
  rcases hab.2 with hstop | ⟨hidle, -⟩
  · exact hstop
  · simp [hidle] at hb

theorem replaceRange_of_isIdle {r : Span × String} (hidle : isIdle r = true)
    (hstart : Text.bytes front = r.1.start) :
    replaceRange (String.ofList (front ++ back)) r.1 r.2 = .ok (String.ofList (front ++ back)) := by
  simp only [isIdle, Bool.and_eq_true, beq_iff_eq] at hidle
  have hparts : (String.ofList (front ++ back)).toList = front ++ ([] ++ back) := by simp
  have h := replaceRange_eq hparts hstart (by simpa [hstart] using hidle.1) r.2
  simpa [hidle.2] using h

theorem replaceRanges_filter_isIdle (hfits : ∀ r ∈ ranges, r.1.fits source = true)
    (h : Settled ranges) :
    replaceRanges source (ranges.filter fun r => !isIdle r) = replaceRanges source ranges := by
  induction ranges with
  | nil => rfl
  | cons r rest ih =>
    obtain ⟨hr, hrest⟩ := List.forall_mem_cons.1 hfits
    obtain ⟨hfirst, hsettled⟩ := List.pairwise_cons.1 h
    rw [replaceRanges_cons, ← ih hrest hsettled]
    cases hidle : isIdle r with
    | false => simp [hidle, replaceRanges_cons]
    | true =>
      obtain ⟨front, part, back, hsource, hstart, -⟩ := Span.fits_iff.1 hr
      obtain ⟨out, hout, -⟩ := exists_replaceRanges hsource
        (fun x hx => hrest x (List.mem_of_mem_filter hx))
        (fun x hx => hstart ▸ (hfirst x (List.mem_of_mem_filter hx)).1)
        (Settled.apart_filter hsettled)
      rw [List.filter_cons_of_neg (by simp [hidle]), hout]
      exact (replaceRange_of_isIdle hidle hstart).symm

/-- What begins before the first range stops is idle and stands where the first range begins. -/
theorem Settled.idle_of_start_lt {r x : Span × String} {rest : List (Span × String)}
    (h : Settled (r :: rest)) (hx : x ∈ rest) (hlt : x.1.start < r.1.stop) :
    isIdle x = true ∧ x.1.stop = r.1.start := by
  rcases (List.rel_of_pairwise_cons h hx).2 with hstop | ⟨hidle, hstart⟩
  · omega
  · simp only [isIdle, Bool.and_eq_true, beq_iff_eq] at hidle ⊢
    exact ⟨hidle, by omega⟩

/-- Idle ranges can be moved in front of the ranges that they begin with. -/
theorem Settled.exists_perm_apart (h : Settled ranges)
    (hends : ∀ r ∈ ranges, r.1.start ≤ r.1.stop) :
    ∃ ordered, ordered.Perm ranges ∧ Apart ordered ∧
      ordered.filter (fun r => !isIdle r) = ranges.filter fun r => !isIdle r := by
  induction ranges with
  | nil => exact ⟨[], .nil, .nil, rfl⟩
  | cons r rest ih =>
    obtain ⟨hfirst, hsettled⟩ := List.pairwise_cons.1 h
    obtain ⟨hr, hrest⟩ := List.forall_mem_cons.1 hends
    obtain ⟨ordered, hperm, hapart, hfilter⟩ := ih hsettled hrest
    have hearly : ∀ x ∈ ordered, x.1.start < r.1.stop →
        isIdle x = true ∧ x.1.stop = r.1.start :=
      fun x hx => h.idle_of_start_lt (hperm.mem_iff.1 hx)
    -- Idle ranges that begin inside of `r` go in front of it, and all others behind it.
    refine ⟨ordered.filter (fun x => x.1.start < r.1.stop) ++
      r :: ordered.filter (fun x => !decide (x.1.start < r.1.stop)), ?_, ?_, ?_⟩
    · refine List.perm_middle.trans (.cons r ?_)
      exact (List.filter_append_perm _ ordered).trans hperm
    · refine List.pairwise_append.2 ⟨hapart.filter _, ?_, ?_⟩
      · refine List.pairwise_cons.2 ⟨fun x hx => ?_, hapart.filter _⟩
        simpa using (List.mem_filter.1 hx).2
      · intro x hx y hy
        obtain ⟨hmem, hlt⟩ := List.mem_filter.1 hx
        rw [(hearly x hmem (by simpa using hlt)).2]
        rcases List.mem_cons.1 hy with rfl | hy
        · exact le_rfl
        · exact (hfirst y (hperm.mem_iff.1 (List.mem_of_mem_filter hy))).1
    · have hnone : (ordered.filter fun x => x.1.start < r.1.stop).filter (fun x => !isIdle x) = [] := by
        rw [List.filter_eq_nil_iff]
        intro x hx
        obtain ⟨hmem, hlt⟩ := List.mem_filter.1 hx
        simp [(hearly x hmem (by simpa using hlt)).1]
      have hall : (ordered.filter fun x => !decide (x.1.start < r.1.stop)).filter
          (fun x => !isIdle x) = ordered.filter fun x => !isIdle x := by
        rw [List.filter_filter]
        apply List.filter_congr
        intro x hx
        by_cases hlt : x.1.start < r.1.stop
        · simp [(hearly x hx hlt).1]
        · simp [hlt]
      rw [List.filter_append, hnone, List.nil_append, List.filter_cons, hall, hfilter,
        List.filter_cons]

/-- Settled ranges are replaced without fail, and all at once. -/
theorem Settled.exists_isSplice (h : Settled ranges)
    (hfits : ∀ r ∈ ranges, r.1.fits source = true) :
    ∃ text, replaceRanges source ranges = .ok text ∧ IsSplice source ranges text := by
  have hends : ∀ r ∈ ranges, r.1.start ≤ r.1.stop := fun r hr => Span.start_le_stop (hfits r hr)
  obtain ⟨ordered, hperm, hapart, hfilter⟩ := h.exists_perm_apart hends
  have hfits' : ∀ r ∈ ordered, r.1.fits source = true := fun r hr => hfits r (hperm.mem_iff.1 hr)
  have hsettled : Settled ordered := by
    refine (List.Pairwise.and_mem.1 hapart).imp fun {a b} hab => ?_
    have ha := Span.start_le_stop (hfits' a hab.1)
    exact ⟨by omega, .inl hab.2.2⟩
  obtain ⟨text, hreplaced, hwoven⟩ := replaceRanges_eq_weave hfits' hapart
  refine ⟨text, ?_, ordered, hperm, hapart, hwoven⟩
  rw [← replaceRanges_filter_isIdle hfits h, ← hfilter, replaceRanges_filter_isIdle hfits' hsettled,
    hreplaced]

end LintMend
