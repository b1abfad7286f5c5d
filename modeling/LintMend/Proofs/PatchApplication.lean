import LintMend.Defect.Patching
import LintMend.Proofs.Splicing
import Mathlib.Data.List.Pairwise

/-!
# Patches are checked simultaneous replacements

A patch is applied exactly if each of its edits fits the text and finds what it expects there, and no
two of them are in each other's way. Only neighbours in the order of places are compared, which is
enough since edits that are not neighbours are held apart by those between them. What comes out is
the woven text, and an error blames edits that deserve it.
-/

namespace LintMend.Patch

/-- Two edits are in each other's way: they share bytes, or they begin at the same place. -/
def Collide (a b : PatchEdit) : Prop :=
  a.span.overlaps b.span = true ∨ a.span.start = b.span.start

/-- The span of the edit fits the text, and the text there is what the edit expects. -/
def Sound (source : String) (e : PatchEdit) : Prop :=
  e.span.fits source = true ∧ e.span.text? source = some e.anchor

/-- Every edit is sound, and no two edits are in each other's way. -/
structure Applicable (p : Patch) (source : String) : Prop where
  sound : ∀ e ∈ p.edits, Sound source e
  clear : p.edits.Pairwise fun a b => ¬ Collide a b

/-- The error tells of a fault that the edits it names really have. Edits are only said to collide if
each of them is sound by itself. -/
def Blames (p : Patch) (source : String) : PatchError → Prop
  | .outOfBounds i span length => ∃ e, p.edits[i]? = some e ∧ e.span = span ∧
      length = byteLength source ∧ span.fits source = false
  | .staleAnchor i => ∃ e, p.edits[i]? = some e ∧ e.span.fits source = true ∧
      e.span.text? source ≠ some e.anchor
  | .overlap i j => i ≠ j ∧ (∃ a b, p.edits[i]? = some a ∧ p.edits[j]? = some b ∧ Collide a b) ∧
      ∀ e ∈ p.edits, Sound source e

theorem Collide.symm {a b : PatchEdit} (h : Collide a b) : Collide b a := by
  rcases h with h | h
  · exact .inl (by rwa [Span.overlaps_comm])
  · exact .inr h.symm

/-! ## The order of places -/

theorem perm_inOrder (p : Patch) : p.inOrder.Perm p.edits.zipIdx := List.mergeSort_perm _ _

theorem pairwise_placeLe_inOrder (p : Patch) :
    p.inOrder.Pairwise fun a b => placeLe a b = true := by
  apply List.pairwise_mergeSort
  · intro a b c hab hbc
    simp only [placeLe, Bool.or_eq_true, Bool.and_eq_true, decide_eq_true_eq, beq_iff_eq] at *
    omega
  · intro a b
    simp only [placeLe, Bool.or_eq_true, Bool.and_eq_true, decide_eq_true_eq, beq_iff_eq]
    omega

theorem getElem?_of_mem_inOrder {p : Patch} {x : PatchEdit × Nat} (h : x ∈ p.inOrder) :
    p.edits[x.2]? = some x.1 := by
  rw [p.perm_inOrder.mem_iff] at h
  exact List.mem_zipIdx_iff_getElem?.1 h

theorem forall_mem_inOrder {p : Patch} {P : PatchEdit → Prop} :
    (∀ x ∈ p.inOrder, P x.1) ↔ ∀ e ∈ p.edits, P e := by
  constructor
  · intro h e he
    obtain ⟨i, hi⟩ := List.getElem?_of_mem he
    exact h (e, i) (p.perm_inOrder.mem_iff.2 (List.mem_zipIdx_iff_getElem?.2 hi))
  · intro h x hx
    exact h x.1 (List.mem_of_getElem? (getElem?_of_mem_inOrder hx))

theorem nodup_inOrder_indices (p : Patch) : (p.inOrder.map Prod.snd).Nodup := by
  rw [(p.perm_inOrder.map Prod.snd).nodup_iff, List.zipIdx_map_snd]
  exact List.nodup_range' 1

theorem pairwise_inOrder_iff {p : Patch} {R : PatchEdit → PatchEdit → Prop}
    (hsymm : ∀ {a b}, R a b → R b a) :
    (p.inOrder.Pairwise fun a b => R a.1 b.1) ↔ p.edits.Pairwise R := by
  rw [p.perm_inOrder.pairwise_iff (R := fun a b => R a.1 b.1) hsymm, ← List.pairwise_map,
    List.zipIdx_map_fst]

/-! ## Neighbours are enough -/

/-- The first edit begins and stops before the second one, whose ends are in order. -/
def Clear (a b : PatchEdit × Nat) : Prop :=
  a.1.span.start < b.1.span.start ∧ a.1.span.stop ≤ b.1.span.start ∧
    b.1.span.start ≤ b.1.span.stop

instance : Trans Clear Clear Clear where
  trans h h' := by
    unfold Clear at *
    omega

theorem clear_of_placeLe {a b : PatchEdit × Nat} (hle : placeLe a b = true)
    (hb : b.1.span.start ≤ b.1.span.stop) (h : ¬ Collide a.1 b.1) : Clear a b := by
  simp only [placeLe, Collide, Span.overlaps, Bool.or_eq_true, Bool.and_eq_true, decide_eq_true_eq,
    beq_iff_eq, not_or, not_and, Clear] at *
  omega

theorem not_collide_of_clear {a b : PatchEdit × Nat} (h : Clear a b) : ¬ Collide a.1 b.1 := by
  simp only [Clear, Collide, Span.overlaps, Bool.and_eq_true, decide_eq_true_eq] at *
  omega

theorem isChain_clear {l : List (PatchEdit × Nat)}
    (hle : l.Pairwise fun a b => placeLe a b = true)
    (hends : ∀ x ∈ l, x.1.span.start ≤ x.1.span.stop) (h : overlap? l = none) :
    l.IsChain Clear := by
  fun_induction overlap? l with
  | case1 => simp at h
  | case2 a b rest hcollide ih =>
    obtain ⟨hfirst, hrest⟩ := List.pairwise_cons.1 hle
    have hneighbours : ¬ Collide a.1 b.1 := by
      simpa [Collide] using hcollide
    refine .cons_cons ?_ (ih hrest (fun x hx => hends x (List.mem_cons_of_mem a hx)) h)
    exact clear_of_placeLe (hfirst b List.mem_cons_self) (hends b (by simp)) hneighbours
  | case3 l hshort =>
    match l with
    | [] => exact .nil
    | [a] => exact .singleton a
    | a :: b :: rest => exact absurd rfl (hshort a b rest)

theorem overlap?_eq_some {l : List (PatchEdit × Nat)} {err : PatchError}
    (h : overlap? l = some err) :
    ∃ before a b after, l = before ++ a :: b :: after ∧ err = .overlap a.2 b.2 ∧
      Collide a.1 b.1 := by
  fun_induction overlap? l with
  | case1 a b rest hcollide =>
    refine ⟨[], a, b, rest, rfl, by simpa using h.symm, ?_⟩
    simpa [Collide] using hcollide
  | case2 a b rest hcollide ih =>
    obtain ⟨before, c, d, after, heq, herr, hcd⟩ := ih h
    exact ⟨a :: before, c, d, after, by rw [heq]; rfl, herr, hcd⟩
  | case3 => simp at h

theorem pairwise_clear_inOrder {p : Patch} {source : String}
    (hsound : ∀ e ∈ p.edits, Sound source e) (h : overlap? p.inOrder = none) :
    p.inOrder.Pairwise Clear := by
  have hends : ∀ x ∈ p.inOrder, x.1.span.start ≤ x.1.span.stop :=
    forall_mem_inOrder.2 fun e he => Span.start_le_stop (hsound e he).1
  exact List.isChain_iff_pairwise.1 (isChain_clear p.pairwise_placeLe_inOrder hends h)

/-- The check of neighbours finds nothing exactly if no two edits are in each other's way. -/
theorem overlap?_inOrder_eq_none_iff {p : Patch} {source : String}
    (hsound : ∀ e ∈ p.edits, Sound source e) :
    overlap? p.inOrder = none ↔ p.edits.Pairwise fun a b => ¬ Collide a b := by
  have hsymm : ∀ {a b : PatchEdit}, ¬ Collide a b → ¬ Collide b a := fun h h' => h h'.symm
  rw [← pairwise_inOrder_iff hsymm]
  constructor
  · intro h
    exact (pairwise_clear_inOrder hsound h).imp not_collide_of_clear
  · intro hpairwise
    by_contra hsome
    obtain ⟨err, herr⟩ := Option.ne_none_iff_exists'.1 hsome
    obtain ⟨before, a, b, after, heq, -, hcollide⟩ := overlap?_eq_some herr
    rw [heq, List.pairwise_append] at hpairwise
    exact (List.pairwise_cons.1 hpairwise.2.1).1 b List.mem_cons_self hcollide

/-! ## The checks -/

theorem editError?_eq_none_iff {source : String} {x : PatchEdit × Nat} :
    editError? source x = none ↔ Sound source x.1 := by
  unfold editError? Sound
  cases x.1.span.fits source <;> simp

theorem error?_eq_none_iff {p : Patch} {source : String} :
    p.error? source = none ↔ p.Applicable source := by
  have hedits : p.inOrder.findSome? (editError? source) = none ↔ ∀ e ∈ p.edits, Sound source e := by
    rw [List.findSome?_eq_none_iff, ← forall_mem_inOrder]
    simp only [editError?_eq_none_iff]
  unfold error?
  rw [Option.orElse_eq_or, Option.or_eq_none_iff, hedits]
  constructor
  · rintro ⟨hsound, hoverlap⟩
    exact ⟨hsound, (overlap?_inOrder_eq_none_iff hsound).1 hoverlap⟩
  · intro h
    exact ⟨h.sound, (overlap?_inOrder_eq_none_iff h.sound).2 h.clear⟩

theorem blames_of_editError? {p : Patch} {source : String} {x : PatchEdit × Nat} {err : PatchError}
    (hx : x ∈ p.inOrder) (h : editError? source x = some err) : p.Blames source err := by
  have hget := getElem?_of_mem_inOrder hx
  unfold editError? at h
  split at h
  · next hfits =>
    obtain rfl := Option.some.inj h
    exact ⟨x.1, hget, rfl, rfl, by simpa using hfits⟩
  · next hfits =>
    split at h
    · next hanchor =>
      obtain rfl := Option.some.inj h
      exact ⟨x.1, hget, by simpa using hfits, by simpa using hanchor⟩
    · simp at h

theorem blames_of_error? {p : Patch} {source : String} {err : PatchError}
    (h : p.error? source = some err) : p.Blames source err := by
  unfold error? at h
  cases hedit : p.inOrder.findSome? (editError? source) with
  | some first =>
    obtain ⟨x, hx, hfirst⟩ := List.exists_of_findSome?_eq_some hedit
    rw [hedit] at h
    obtain rfl : first = err := by simpa using h
    exact blames_of_editError? hx hfirst
  | none =>
    rw [hedit] at h
    obtain ⟨before, a, b, after, heq, rfl, hcollide⟩ := overlap?_eq_some (by simpa using h)
    have hmem : ∀ x ∈ [a, b], x ∈ p.inOrder := by simp [heq]
    have hnodup := p.nodup_inOrder_indices
    rw [heq] at hnodup
    refine ⟨?_, ⟨a.1, b.1, getElem?_of_mem_inOrder (hmem a (by simp)),
      getElem?_of_mem_inOrder (hmem b (by simp)), hcollide⟩, ?_⟩
    · intro hsame
      simp [List.nodup_append, hsame] at hnodup
    · rw [← forall_mem_inOrder]
      intro x hx
      exact editError?_eq_none_iff.1 (List.findSome?_eq_none_iff.1 hedit x hx)

/-! ## What comes out -/

/-- An applicable patch is applied, and all its edits are made at once. -/
theorem apply_of_applicable {p : Patch} {source : String} (h : p.Applicable source) :
    ∃ text, p.apply source = .ok (.ok text) ∧
      IsSplice source (p.edits.map fun e => (e.span, e.replacement)) text := by
  have hoverlap := (overlap?_inOrder_eq_none_iff h.sound).2 h.clear
  have hapart : Apart (p.inOrder.map fun x => (x.1.span, x.1.replacement)) := by
    apply List.pairwise_map.2
    exact (pairwise_clear_inOrder h.sound hoverlap).imp fun hclear => hclear.2.1
  have hfits : ∀ r ∈ p.inOrder.map fun x => (x.1.span, x.1.replacement),
      r.1.fits source = true := by
    intro r hr
    obtain ⟨x, hx, rfl⟩ := List.mem_map.1 hr
    exact (forall_mem_inOrder.2 h.sound x hx).1
  obtain ⟨text, hreplaced, hwoven⟩ := replaceRanges_eq_weave hfits hapart
  refine ⟨text, ?_, _, ?_, hapart, hwoven⟩
  · simp [apply, error?_eq_none_iff.2 h, hreplaced, Except.map]
  · have hperm := p.perm_inOrder.map fun x => (x.1.span, x.1.replacement)
    have hfst : p.edits.zipIdx.map (fun x => (x.1.span, x.1.replacement)) =
        p.edits.map fun e => (e.span, e.replacement) := by
      conv_rhs => rw [← List.zipIdx_map_fst 0 p.edits, List.map_map]
      rfl
    rwa [hfst] at hperm

/-- A patch is applied exactly if it is applicable; it is then the simultaneous replacement of all
its ranges. Otherwise the error blames edits that are at fault, and single edits before pairs. -/
theorem apply_eq_checked_splice (p : Patch) (source : String) :
    ((∃ text, p.apply source = .ok (.ok text)) ↔ p.Applicable source) ∧
      (∀ text, p.apply source = .ok (.ok text) →
        IsSplice source (p.edits.map fun e => (e.span, e.replacement)) text) ∧
      (¬ p.Applicable source → ∃ err, p.apply source = .ok (.error err) ∧ p.Blames source err) := by
  have hrefused : ¬ p.Applicable source →
      ∃ err, p.apply source = .ok (.error err) ∧ p.Blames source err := by
    intro h
    obtain ⟨err, herr⟩ := Option.ne_none_iff_exists'.1 fun hnone => h (error?_eq_none_iff.1 hnone)
    exact ⟨err, by simp [apply, herr], blames_of_error? herr⟩
  have happlied : ∀ text, p.apply source = .ok (.ok text) → p.Applicable source := by
    intro text htext
    by_contra h
    obtain ⟨err, herr, -⟩ := hrefused h
    rw [htext] at herr
    simp at herr
  refine ⟨⟨fun ⟨text, htext⟩ => happlied text htext, fun h => ?_⟩, fun text htext => ?_, hrefused⟩
  · obtain ⟨text, htext, -⟩ := apply_of_applicable h
    exact ⟨text, htext⟩
  · obtain ⟨text', htext', hsplice⟩ := apply_of_applicable (happlied text htext)
    rw [htext] at htext'
    obtain rfl : text = text' := by simpa using htext'
    exact hsplice

/-! ## Patches with one edit -/

/-- A sound edit divides the text into what stands before it, its anchor and what stands behind it. -/
theorem sound_iff {source : String} {e : PatchEdit} :
    Sound source e ↔ ∃ front part back : List Char, source.toList = front ++ (part ++ back) ∧
      Text.bytes front = e.span.start ∧ Text.bytes front + Text.bytes part = e.span.stop ∧
        e.anchor = String.ofList part := by
  constructor
  · rintro ⟨-, htext⟩
    rcases Span.text?_eq_some_iff.1 htext with ⟨front, back, hsource, hstart, hstop⟩
    exact ⟨front, e.anchor.toList, back, hsource, hstart, hstop, String.ofList_toList.symm⟩
  · rintro ⟨front, part, back, hsource, hstart, hstop, hanchor⟩
    refine ⟨Span.fits_iff.2 ⟨front, part, back, hsource, hstart, hstop⟩, ?_⟩
    rw [Span.text?_eq_some_iff, hanchor, String.toList_ofList]
    exact ⟨front, back, hsource, hstart, hstop⟩

/-- A patch with one edit is applied exactly if the edit is sound, and then replaces its anchor. -/
theorem apply_singleton_iff {description : String} {e : PatchEdit} {source text : String} :
    (⟨description, [e]⟩ : Patch).apply source = .ok (.ok text) ↔ ∃ front part back : List Char,
      source.toList = front ++ (part ++ back) ∧ Text.bytes front = e.span.start ∧
        Text.bytes front + Text.bytes part = e.span.stop ∧ e.anchor = String.ofList part ∧
        text = String.ofList (front ++ (e.replacement.toList ++ back)) := by
  have horder : (⟨description, [e]⟩ : Patch).inOrder = [(e, 0)] := by
    rw [inOrder, List.zipIdx_singleton, List.mergeSort_singleton]
  have herror : (⟨description, [e]⟩ : Patch).error? source = editError? source (e, 0) := by
    rw [error?, horder, List.findSome?_singleton, overlap?]
    · cases editError? source (e, 0) <;> rfl
    · simp
  have hreplace : ∀ {front part back : List Char}, source.toList = front ++ (part ++ back) →
      Text.bytes front = e.span.start → Text.bytes front + Text.bytes part = e.span.stop →
      replaceRanges source [(e.span, e.replacement)] =
        .ok (String.ofList (front ++ (e.replacement.toList ++ back))) := by
    intro front part back hsource hstart hstop
    rw [replaceRanges_cons, replaceRanges_nil]
    exact replaceRange_eq hsource hstart hstop e.replacement
  rw [apply, herror, horder, List.map_singleton]
  constructor
  · intro h
    cases hsound : editError? source (e, 0) with
    | some err => simp [hsound] at h
    | none =>
      rcases sound_iff.1 (editError?_eq_none_iff.1 hsound) with
        ⟨front, part, back, hsource, hstart, hstop, hanchor⟩
      refine ⟨front, part, back, hsource, hstart, hstop, hanchor, ?_⟩
      rw [hsound, hreplace hsource hstart hstop] at h
      exact (Except.ok.inj (Except.ok.inj h)).symm
  · rintro ⟨front, part, back, hsource, hstart, hstop, hanchor, rfl⟩
    have hsound : editError? source (e, 0) = none :=
      editError?_eq_none_iff.2 (sound_iff.2 ⟨front, part, back, hsource, hstart, hstop, hanchor⟩)
    rw [hsound, hreplace hsource hstart hstop]
    rfl

end LintMend.Patch
