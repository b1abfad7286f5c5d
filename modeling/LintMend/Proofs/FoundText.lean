import LintMend.Text.Search
import LintMend.Proofs.Cutting

/-!
# Found text

A search answers exactly if the text holds what is searched for, and the byte offset that it gives is
one at which it stands. So what is found can always be cut out of the text.
-/

namespace LintMend.Text

variable {needle cs : List Char}

/-- The needle stands in the text behind its first `offset` bytes. -/
def OccursAt (needle cs : List Char) (offset : Nat) : Prop :=
  ∃ front back, cs = front ++ (needle ++ back) ∧ offset = bytes front

theorem occursAt_zero (h : needle.isPrefixOf cs = true) : OccursAt needle cs 0 := by
  rcases List.isPrefixOf_iff_prefix.1 h with ⟨back, hback⟩
  exact ⟨[], back, hback.symm, rfl⟩

theorem OccursAt.cons {offset : Nat} (h : OccursAt needle cs offset) (c : Char) :
    OccursAt needle (c :: cs) (c.utf8Size + offset) := by
  rcases h with ⟨front, back, rfl, rfl⟩
  exact ⟨c :: front, back, rfl, (bytes_cons c front).symm⟩

theorem OccursAt.add_le {offset : Nat} (h : OccursAt needle cs offset) :
    offset + bytes needle ≤ bytes cs := by
  rcases h with ⟨front, back, rfl, rfl⟩
  rw [bytes_append, bytes_append]
  omega

/-- The text behind an occurrence can be cut off. -/
theorem OccursAt.exists_dropBytes? {offset : Nat} (h : OccursAt needle cs offset) :
    ∃ back, dropBytes? cs (offset + bytes needle) = some back := by
  rcases h with ⟨front, back, rfl, rfl⟩
  refine ⟨back, ?_⟩
  rw [dropBytes?, ← bytes_append, ← List.append_assoc, charsBefore?_append, Option.map_some,
    List.drop_left]

/-! ## Searching from the left -/

theorem occursAt_of_findFrom {base k : Nat} (h : findFrom needle base cs = some k) :
    ∃ offset, OccursAt needle cs offset ∧ k = base + offset := by
  induction cs generalizing base with
  | nil =>
    rw [findFrom] at h
    split at h
    · next hempty =>
      obtain rfl : base = k := by simpa using h
      exact ⟨0, occursAt_zero (by simpa using hempty), rfl⟩
    · simp at h
  | cons c cs ih =>
    rw [findFrom] at h
    split at h
    · next hhere =>
      obtain rfl : base = k := by simpa using h
      exact ⟨0, occursAt_zero hhere, rfl⟩
    · rcases ih h with ⟨offset, hoccurs, rfl⟩
      exact ⟨c.utf8Size + offset, hoccurs.cons c, by omega⟩

theorem occursAt_of_find? {k : Nat} (h : find? needle cs = some k) : OccursAt needle cs k := by
  rcases occursAt_of_findFrom h with ⟨offset, hoccurs, rfl⟩
  simpa using hoccurs

theorem findFrom_le {base k offset : Nat} (h : findFrom needle base cs = some k)
    (hoccurs : OccursAt needle cs offset) : k ≤ base + offset := by
  induction cs generalizing base offset with
  | nil =>
    rw [findFrom] at h
    split at h
    · obtain rfl : base = k := by simpa using h
      exact Nat.le_add_right _ _
    · simp at h
  | cons c cs ih =>
    rw [findFrom] at h
    split at h
    · obtain rfl : base = k := by simpa using h
      exact Nat.le_add_right _ _
    · next hhere =>
      rcases hoccurs with ⟨front, back, hparts, rfl⟩
      cases front with
      | nil => exact absurd (List.isPrefixOf_iff_prefix.2 ⟨back, hparts.symm⟩) hhere
      | cons d front =>
        rcases List.cons.inj hparts with ⟨rfl, hrest⟩
        have hle := ih h ⟨front, back, hrest, rfl⟩
        rw [bytes_cons]
        omega

/-- A search finds the first place at which the needle stands. -/
theorem find?_le {k offset : Nat} (h : find? needle cs = some k) (hoccurs : OccursAt needle cs offset) :
    k ≤ offset := by
  have hle := findFrom_le h hoccurs
  rwa [Nat.zero_add] at hle

theorem isSome_findFrom {base : Nat} : (findFrom needle base cs).isSome = true ↔ needle <:+: cs := by
  induction cs generalizing base with
  | nil =>
    rw [findFrom, List.infix_nil]
    cases needle <;> simp
  | cons c cs ih =>
    rw [findFrom, List.infix_cons_iff, ← List.isPrefixOf_iff_prefix]
    by_cases hhere : needle.isPrefixOf (c :: cs) = true
    · simp [hhere]
    · simp [hhere, ih]

/-- A search finds what the text holds. -/
theorem contains_iff : contains needle cs = true ↔ needle <:+: cs := isSome_findFrom

/-! ## Searching from the right -/

theorem occursAt_of_rfindFrom {base k : Nat} {last : Option Nat}
    (h : rfindFrom needle base last cs = some k) :
    last = some k ∨ ∃ offset, OccursAt needle cs offset ∧ k = base + offset := by
  induction cs generalizing base last with
  | nil =>
    rw [rfindFrom] at h
    split at h
    · next hempty =>
      obtain rfl : base = k := by simpa using h
      exact .inr ⟨0, occursAt_zero (by simpa using hempty), rfl⟩
    · exact .inl h
  | cons c cs ih =>
    rw [rfindFrom] at h
    rcases ih h with hlast | ⟨offset, hoccurs, rfl⟩
    · split at hlast
      · next hhere =>
        obtain rfl : base = k := by simpa using hlast
        exact .inr ⟨0, occursAt_zero hhere, rfl⟩
      · exact .inl hlast
    · exact .inr ⟨c.utf8Size + offset, hoccurs.cons c, by omega⟩

theorem occursAt_of_rfind? {k : Nat} (h : rfind? needle cs = some k) : OccursAt needle cs k := by
  rcases occursAt_of_rfindFrom h with hlast | ⟨offset, hoccurs, rfl⟩
  · simp at hlast
  · simpa using hoccurs

/-- What was found before is not lost, and what is found later stands behind it. -/
theorem exists_rfindFrom_some {base last : Nat} (h : last ≤ base) :
    ∃ k, rfindFrom needle base (some last) cs = some k ∧ last ≤ k := by
  induction cs generalizing base last with
  | nil =>
    rw [rfindFrom]
    split
    · exact ⟨base, rfl, h⟩
    · exact ⟨last, rfl, Nat.le_refl _⟩
  | cons c cs ih =>
    rw [rfindFrom]
    split
    · rcases ih (Nat.le_add_right base c.utf8Size) with ⟨k, hk, hle⟩
      exact ⟨k, hk, h.trans hle⟩
    · exact ih (h.trans (Nat.le_add_right _ _))

theorem exists_rfindFrom {base offset : Nat} {last : Option Nat} (h : OccursAt needle cs offset)
    (hlast : ∀ l ∈ last, l ≤ base) :
    ∃ k, rfindFrom needle base last cs = some k ∧ base + offset ≤ k := by
  induction cs generalizing base offset last with
  | nil =>
    rcases h with ⟨front, back, hparts, rfl⟩
    rcases List.append_eq_nil_iff.1 hparts.symm with ⟨rfl, hneedle⟩
    rcases List.append_eq_nil_iff.1 hneedle with ⟨rfl, -⟩
    exact ⟨base, rfl, Nat.le_refl _⟩
  | cons c cs ih =>
    rcases h with ⟨front, back, hparts, rfl⟩
    rw [rfindFrom]
    cases front with
    | nil =>
      have hhere : needle.isPrefixOf (c :: cs) = true :=
        List.isPrefixOf_iff_prefix.2 ⟨back, hparts.symm⟩
      rw [if_pos hhere]
      exact exists_rfindFrom_some (Nat.le_add_right _ _)
    | cons d front =>
      rcases List.cons.inj hparts with ⟨rfl, hrest⟩
      have hfound : ∀ l ∈ (if needle.isPrefixOf (c :: cs) = true then some base else last),
          l ≤ base + c.utf8Size := by
        intro l hl
        split at hl
        · cases hl
          exact Nat.le_add_right _ _
        · exact (hlast l hl).trans (Nat.le_add_right _ _)
      rcases ih ⟨front, back, hrest, rfl⟩ hfound with ⟨k, hk, hle⟩
      refine ⟨k, hk, ?_⟩
      rw [bytes_cons]
      omega

/-- A search from the right finds the last place at which the needle stands. -/
theorem exists_rfind? {offset : Nat} (h : OccursAt needle cs offset) :
    ∃ k, rfind? needle cs = some k ∧ offset ≤ k := by
  have hlast : ∀ l ∈ (none : Option Nat), l ≤ 0 := by simp
  rcases exists_rfindFrom h hlast with ⟨k, hk, hle⟩
  rw [Nat.zero_add] at hle
  exact ⟨k, hk, hle⟩

end LintMend.Text
