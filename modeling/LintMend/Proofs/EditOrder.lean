import LintMend.Proofs.PatchApplication

/-!
# The order of edits does not matter

Two patches with the same edits in different orders either give the same text, or they fail with
the same kind of error about the same spans. Edits with one span keep the order of the patch when
they are sorted, so the sorted patches need not be equal; but their spans are, and of two faulty
edits with one span each is faulty in the same way.
-/

namespace LintMend

/-- The order of places: by start, then by stop. -/
def Span.Before (a b : Span) : Prop := a.start < b.start ∨ a.start = b.start ∧ a.stop ≤ b.stop

theorem Span.Before.antisymm {a b : Span} (h : a.Before b) (h' : b.Before a) : a = b := by
  cases a
  cases b
  simp only [Span.Before, Span.mk.injEq] at *
  omega

namespace Patch

/-- What an error says apart from the numbers of edits: its kind, and the spans of the edits it
points at. An edit out of bounds is told with its span, which is the `stated` one. -/
inductive Complaint where
  | outOfBounds (edit stated : Span) (length : Nat)
  | overlap (first second : Span)
  | staleAnchor (edit : Span)
deriving DecidableEq, Repr

/-- The complaint of an error about a patch. There is none if the error counts edits that the patch
does not have. -/
def complaint? (p : Patch) : PatchError → Option Complaint
  | .outOfBounds i stated length =>
    p.edits[i]?.map fun e => .outOfBounds e.span stated length
  | .overlap i j =>
    p.edits[i]?.bind fun a => p.edits[j]?.map fun b => .overlap a.span b.span
  | .staleAnchor i => p.edits[i]?.map fun e => .staleAnchor e.span

variable {p q : Patch} {source : String}

/-! ## The spans of sorted edits -/

theorem placeLe_iff {a b : PatchEdit × Nat} :
    placeLe a b = true ↔ a.1.span.Before b.1.span := by
  simp [placeLe, Span.Before]

theorem map_fst_inOrder_perm (p : Patch) : (p.inOrder.map Prod.fst).Perm p.edits := by
  have hperm := p.perm_inOrder.map Prod.fst
  rwa [List.zipIdx_map_fst] at hperm

theorem pairwise_before_inOrder (p : Patch) :
    (p.inOrder.map fun x => x.1.span).Pairwise Span.Before := by
  rw [List.pairwise_map]
  exact p.pairwise_placeLe_inOrder.imp placeLe_iff.1

/-- Sorting puts the spans of two orders of the same edits into one order. -/
theorem spans_inOrder_of_perm (h : p.edits.Perm q.edits) :
    (p.inOrder.map fun x => x.1.span) = q.inOrder.map fun x => x.1.span := by
  refine List.Perm.eq_of_pairwise (fun a b _ _ hab hba => hab.antisymm hba)
    p.pairwise_before_inOrder q.pairwise_before_inOrder ?_
  have hedits := p.map_fst_inOrder_perm.trans (h.trans q.map_fst_inOrder_perm.symm)
  simpa only [List.map_map, Function.comp_def] using hedits.map PatchEdit.span

/-! ## Faults of single edits -/

/-- What is wrong with an edit by itself, told without its number. -/
def editComplaint? (source : String) (e : PatchEdit) : Option Complaint :=
  if !e.span.fits source then some (.outOfBounds e.span e.span (byteLength source))
  else if e.span.text? source != some e.anchor then some (.staleAnchor e.span)
  else none

theorem editComplaint?_eq_none_iff {e : PatchEdit} :
    editComplaint? source e = none ↔ Sound source e := by
  unfold editComplaint? Sound
  cases e.span.fits source <;> simp

/-- Faulty edits with one span are faulty in the same way: either the span does not fit, or none of
the anchors is what stands there. -/
theorem editComplaint?_congr {a b : PatchEdit} (hspan : a.span = b.span) (ha : ¬ Sound source a)
    (hb : ¬ Sound source b) : editComplaint? source a = editComplaint? source b := by
  unfold Sound at ha hb
  unfold editComplaint?
  rw [hspan] at ha ⊢
  cases hfits : b.span.fits source with
  | false => rfl
  | true =>
    simp only [hfits, true_and] at ha hb
    simp [ha, hb]

theorem complaint?_of_editError? {x : PatchEdit × Nat} {err : PatchError} (hx : x ∈ p.inOrder)
    (h : editError? source x = some err) : p.complaint? err = editComplaint? source x.1 := by
  have hget := getElem?_of_mem_inOrder hx
  unfold editError? at h
  unfold editComplaint?
  split at h
  · next hfits =>
    obtain rfl := Option.some.inj h
    simp only [complaint?, hget, Option.map_some, hfits, if_true]
  · next hfits =>
    split at h
    · next hanchor =>
      obtain rfl := Option.some.inj h
      simp only [complaint?, hget, Option.map_some, hfits, hanchor, if_true]
      rfl
    · simp at h

/-- The edit that is blamed first stands before all faulty edits. -/
theorem exists_first_unsound {err : PatchError}
    (h : p.inOrder.findSome? (editError? source) = some err) :
    ∃ x ∈ p.inOrder, editError? source x = some err ∧ ¬ Sound source x.1 ∧
      ∀ e ∈ p.edits, ¬ Sound source e → x.1.span.Before e.span := by
  obtain ⟨before, x, after, hsplit, herr, hsound⟩ := List.findSome?_eq_some_iff.1 h
  have hunsound : ¬ Sound source x.1 := fun hx => by
    rw [editError?_eq_none_iff.2 hx] at herr
    simp at herr
  refine ⟨x, by simp [hsplit], herr, hunsound, ?_⟩
  have hall : ∀ y ∈ p.inOrder, ¬ Sound source y.1 → x.1.span.Before y.1.span := by
    intro y hy hfaulty
    have hsorted := p.pairwise_placeLe_inOrder
    rw [hsplit] at hy hsorted
    obtain ⟨-, hrest, -⟩ := List.pairwise_append.1 hsorted
    rcases List.mem_append.1 hy with hy | hy
    · exact absurd (editError?_eq_none_iff.1 (hsound y hy)) hfaulty
    · rcases List.mem_cons.1 hy with rfl | hy
      · exact .inr ⟨rfl, le_rfl⟩
      · exact placeLe_iff.1 (List.rel_of_pairwise_cons hrest hy)
  exact forall_mem_inOrder.1 hall

/-- If an order of the edits fails on a single edit, every order does, with the same complaint. -/
theorem findSome?_editError?_of_perm (h : p.edits.Perm q.edits) {err : PatchError}
    (herr : p.inOrder.findSome? (editError? source) = some err) :
    ∃ err' c, q.inOrder.findSome? (editError? source) = some err' ∧ p.complaint? err = some c ∧
      q.complaint? err' = some c := by
  obtain ⟨x, hx, hxerr, hxfaulty, hxfirst⟩ := exists_first_unsound herr
  have hxedit : x.1 ∈ q.edits := h.mem_iff.1 (List.mem_of_getElem? (getElem?_of_mem_inOrder hx))
  cases herr' : q.inOrder.findSome? (editError? source) with
  | none =>
    rw [List.findSome?_eq_none_iff] at herr'
    have hsound : ∀ e ∈ q.edits, Sound source e :=
      forall_mem_inOrder.1 fun y hy => editError?_eq_none_iff.1 (herr' y hy)
    exact absurd (hsound x.1 hxedit) hxfaulty
  | some err' =>
    obtain ⟨y, hy, hyerr, hyfaulty, hyfirst⟩ := exists_first_unsound herr'
    have hyedit : y.1 ∈ p.edits := h.mem_iff.2 (List.mem_of_getElem? (getElem?_of_mem_inOrder hy))
    -- Each of the two first faulty edits stands before the other one.
    have hspan : x.1.span = y.1.span :=
      (hxfirst y.1 hyedit hyfaulty).antisymm (hyfirst x.1 hxedit hxfaulty)
    obtain ⟨c, hc⟩ := Option.ne_none_iff_exists'.1 (mt editComplaint?_eq_none_iff.1 hxfaulty)
    refine ⟨err', c, rfl, ?_, ?_⟩
    · rw [complaint?_of_editError? hx hxerr, hc]
    · rw [complaint?_of_editError? hy hyerr, ← editComplaint?_congr hspan hxfaulty hyfaulty, hc]

/-! ## Edits in each other's way -/

/-- The check of neighbours reads spans only. -/
theorem overlap?_of_spans {l l' : List (PatchEdit × Nat)} {err : PatchError}
    (hspans : (l.map fun x => x.1.span) = l'.map fun x => x.1.span) (h : overlap? l = some err) :
    ∃ a ∈ l, ∃ b ∈ l, ∃ a' ∈ l', ∃ b' ∈ l', err = .overlap a.2 b.2 ∧
      overlap? l' = some (.overlap a'.2 b'.2) ∧ a.1.span = a'.1.span ∧ b.1.span = b'.1.span := by
  fun_induction overlap? l generalizing l' with
  | case1 a b rest hcollide =>
    obtain ⟨a', tail, rfl, (ha : a'.1.span = a.1.span), htail⟩ :=
      List.map_eq_cons_iff.1 hspans.symm
    obtain ⟨b', rest', rfl, (hb : b'.1.span = b.1.span), -⟩ := List.map_eq_cons_iff.1 htail
    refine ⟨a, by simp, b, by simp, a', by simp, b', by simp, (Option.some.inj h).symm, ?_, ha.symm,
      hb.symm⟩
    rw [← ha, ← hb] at hcollide
    rw [overlap?, if_pos hcollide]
  | case2 a b rest hcollide ih =>
    obtain ⟨a', tail, rfl, (ha : a'.1.span = a.1.span), htail⟩ :=
      List.map_eq_cons_iff.1 hspans.symm
    obtain ⟨b', rest', rfl, (hb : b'.1.span = b.1.span), -⟩ := List.map_eq_cons_iff.1 htail
    obtain ⟨x, hx, y, hy, x', hx', y', hy', herr, hfound, hxspan, hyspan⟩ :=
      ih htail.symm h
    rw [← ha, ← hb] at hcollide
    refine ⟨x, List.mem_cons_of_mem a hx, y, List.mem_cons_of_mem a hy, x',
      List.mem_cons_of_mem a' hx', y', List.mem_cons_of_mem a' hy', herr, ?_, hxspan, hyspan⟩
    rw [overlap?, if_neg hcollide, hfound]
  | case3 => simp at h

/-- If an order of the edits has neighbours in each other's way, every order has, with the same
spans. -/
theorem overlap?_of_perm (h : p.edits.Perm q.edits) {err : PatchError}
    (herr : overlap? p.inOrder = some err) :
    ∃ err' c, overlap? q.inOrder = some err' ∧ p.complaint? err = some c ∧
      q.complaint? err' = some c := by
  obtain ⟨a, ha, b, hb, a', ha', b', hb', rfl, hfound, hfirst, hsecond⟩ :=
    overlap?_of_spans (spans_inOrder_of_perm h) herr
  refine ⟨_, .overlap a.1.span b.1.span, hfound, ?_, ?_⟩
  · simp [complaint?, getElem?_of_mem_inOrder ha, getElem?_of_mem_inOrder hb]
  · simp [complaint?, getElem?_of_mem_inOrder ha', getElem?_of_mem_inOrder hb', hfirst, hsecond]

/-! ## Both runs -/

theorem Applicable.of_perm (h : p.edits.Perm q.edits) (happlicable : p.Applicable source) :
    q.Applicable source where
  sound e he := happlicable.sound e (h.mem_iff.2 he)
  clear := (h.pairwise_iff fun hclear hcollide => hclear hcollide.symm).1 happlicable.clear

/-- Edits that are not in each other's way have one order of places. -/
theorem edits_inOrder_of_perm (h : p.edits.Perm q.edits) (happlicable : p.Applicable source) :
    p.inOrder.map Prod.fst = q.inOrder.map Prod.fst := by
  have hstarts : ∀ {r : Patch}, r.Applicable source →
      (r.inOrder.map Prod.fst).Pairwise fun a b => a.span.start < b.span.start := by
    intro r hr
    rw [List.pairwise_map]
    have hoverlap := (overlap?_inOrder_eq_none_iff hr.sound).2 hr.clear
    exact (pairwise_clear_inOrder hr.sound hoverlap).imp And.left
  refine List.Perm.eq_of_pairwise (fun a b _ _ hab hba => absurd hab hba.not_gt)
    (hstarts happlicable) (hstarts (happlicable.of_perm h)) ?_
  exact p.map_fst_inOrder_perm.trans (h.trans q.map_fst_inOrder_perm.symm)

theorem error?_of_perm (h : p.edits.Perm q.edits) {err : PatchError}
    (herr : p.error? source = some err) :
    ∃ err' c, q.error? source = some err' ∧ p.complaint? err = some c ∧
      q.complaint? err' = some c := by
  unfold error? at herr ⊢
  cases hedit : p.inOrder.findSome? (editError? source) with
  | some first =>
    obtain ⟨err', c, hfound, hc, hc'⟩ := findSome?_editError?_of_perm h hedit
    rw [hedit] at herr
    obtain rfl : first = err := by simpa using herr
    exact ⟨err', c, by simp [hfound], hc, hc'⟩
  | none =>
    have hsound : q.inOrder.findSome? (editError? source) = none := by
      by_contra hsome
      obtain ⟨err', herr'⟩ := Option.ne_none_iff_exists'.1 hsome
      obtain ⟨_, _, hfound, -⟩ := findSome?_editError?_of_perm h.symm herr'
      rw [hedit] at hfound
      simp at hfound
    obtain ⟨err', c, hfound, hc, hc'⟩ := overlap?_of_perm h (by simpa [hedit] using herr)
    exact ⟨err', c, by simp [hsound, hfound], hc, hc'⟩

/-- Two patches with the same edits in any two orders give the same text, or they fail with the same
kind of error about the same spans. -/
theorem apply_of_perm (source : String) (p q : Patch) (h : p.edits.Perm q.edits) :
    (∃ text, p.apply source = .ok (.ok text) ∧ q.apply source = .ok (.ok text)) ∨
      ∃ err err' c, p.apply source = .ok (.error err) ∧ q.apply source = .ok (.error err') ∧
        p.complaint? err = some c ∧ q.complaint? err' = some c := by
  cases herr : p.error? source with
  | none =>
    have happlicable := error?_eq_none_iff.1 herr
    obtain ⟨text, htext, -⟩ := apply_of_applicable happlicable
    have hranges : p.inOrder.map (fun x => (x.1.span, x.1.replacement)) =
        q.inOrder.map fun x => (x.1.span, x.1.replacement) := by
      have hedits := congrArg (List.map fun e => (e.span, e.replacement))
        (edits_inOrder_of_perm h happlicable)
      simpa only [List.map_map, Function.comp_def] using hedits
    have herr' := error?_eq_none_iff.2 (happlicable.of_perm h)
    refine .inl ⟨text, htext, ?_⟩
    unfold apply at htext ⊢
    rw [herr] at htext
    rw [herr', ← hranges]
    exact htext
  | some err =>
    obtain ⟨err', c, herr', hc, hc'⟩ := error?_of_perm h herr
    exact .inr ⟨err, err', c, by simp [apply, herr], by simp [apply, herr'], hc, hc'⟩

/-- Two edits with one span, of which only the first finds its anchor. -/
def twins : List PatchEdit := [⟨⟨1, 2⟩, "b", "x"⟩, ⟨⟨1, 2⟩, "c", "y"⟩]

theorem apply_of_perm_twins : twins.Perm twins.reverse ∧
    ((∃ text, (⟨"", twins⟩ : Patch).apply "abc" = .ok (.ok text) ∧
        (⟨"", twins.reverse⟩ : Patch).apply "abc" = .ok (.ok text)) ∨
      ∃ err err' c, (⟨"", twins⟩ : Patch).apply "abc" = .ok (.error err) ∧
        (⟨"", twins.reverse⟩ : Patch).apply "abc" = .ok (.error err') ∧
        (⟨"", twins⟩ : Patch).complaint? err = some c ∧
        (⟨"", twins.reverse⟩ : Patch).complaint? err' = some c) :=
  ⟨(List.reverse_perm twins).symm,
    apply_of_perm "abc" ⟨"", twins⟩ ⟨"", twins.reverse⟩ (List.reverse_perm twins).symm⟩

end Patch

end LintMend
