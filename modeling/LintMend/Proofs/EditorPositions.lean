import LintMend.Editor.Cursor
import LintMend.Proofs.Printing
import LintMend.Proofs.SourceLines

/-!
# Places in an editor

An editor holds a document as UTF-16 code units, ends lines at newlines, at carriage returns and at
both together, and counts the characters of a line in units. The cursors of the library count lines by
newlines alone and characters as such, and are cut off at 32 bits. So a cursor never leads behind the
place it was made for, and it leads to that place exactly if the text before it is *addressable*: its
carriage returns belong to newlines, its last line stays within the basic plane, and its numbers are
small enough.
-/

namespace LintMend

/-! ## Lines up to a place -/

namespace Text

/-- A text is a number of lines with their ends, and a part without a newline behind them. -/
theorem exists_lines (cs : List Char) :
    ∃ (above : List (List Char)) (part : List Char),
      cs = above.flatten ++ part ∧ (∀ l ∈ above, IsEnded l) ∧ '\n' ∉ part := by
  induction cs using lines_induction with
  | last xs h => exact ⟨[], xs, rfl, by simp, h⟩
  | line xs rest h ih =>
    rcases ih with ⟨above, part, rfl, habove, hpart⟩
    refine ⟨(xs ++ ['\n']) :: above, part, by simp, ?_, hpart⟩
    exact List.forall_mem_cons.2 ⟨⟨xs, h, rfl⟩, habove⟩

theorem lastLine_eq {above : List (List Char)} (habove : ∀ l ∈ above, IsEnded l) {part : List Char}
    (hpart : '\n' ∉ part) : Printer.lastLine (above.flatten ++ part) = part :=
  Printer.lastLine_append (flatten_ended habove) hpart

/-- What a line leaves out of its text is its end. -/
theorem exists_lineText_append (line : List Char) :
    ∃ ending, line = lineText line ++ ending ∧
      (ending = [] ∨ ending = ['\n'] ∨ ending = ['\r', '\n']) := by
  have hline : line = line.reverse.reverse := line.reverse_reverse.symm
  unfold lineText
  split
  · next rest hreverse =>
    exact ⟨['\r', '\n'], by rw [hline, hreverse]; simp, by simp⟩
  · next rest _ hreverse =>
    exact ⟨['\n'], by rw [hline, hreverse]; simp, by simp⟩
  · exact ⟨[], by simp, by simp⟩

/-- A part of a line belongs to the text of the line, unless it goes on to the carriage return in front
of the newline. -/
theorem prefix_lineText_or {part line : List Char} (hpart : '\n' ∉ part) (h : part <+: line) :
    part <+: lineText line ∨ part = lineText line ++ ['\r'] ∧ line = part ++ ['\n'] := by
  rcases exists_lineText_append line with ⟨ending, hline, hending⟩
  cases List.prefix_or_prefix_of_prefix h ⟨ending, hline.symm⟩ with
  | inl hinside => exact .inl hinside
  | inr houtside =>
    rcases houtside with ⟨more, hmore⟩
    rcases h with ⟨tail, htail⟩
    have hboth : lineText line ++ (more ++ tail) = lineText line ++ ending := by
      rw [← List.append_assoc, hmore, htail, ← hline]
    have hrest : more ++ tail = ending := List.append_cancel_left hboth
    have hfree : '\n' ∉ more := fun hmem => hpart (hmore ▸ List.mem_append_right _ hmem)
    cases more with
    | nil =>
      rw [List.append_nil] at hmore
      exact .inl ⟨[], by rw [hmore, List.append_nil]⟩
    | cons c more =>
      rw [List.mem_cons, not_or] at hfree
      -- Of the three line ends, only the last one begins with anything but a newline.
      rcases hending with rfl | rfl | rfl
      · simp at hrest
      · exact absurd (List.cons.inj hrest).1.symm hfree.1
      · rcases List.cons.inj hrest with ⟨rfl, htwo⟩
        cases more with
        | nil =>
          exact .inr ⟨hmore.symm, by rw [← htail]; exact congrArg (part ++ ·) htwo⟩
        | cons d more =>
          refine absurd ?_ hfree.2
          rw [(List.cons.inj htwo).1]
          exact List.mem_cons_self

/-- The first line of a text goes on at least up to the first newline. -/
theorem prefix_of_cutLines {part rest line : List Char} {below : List (List Char)}
    (hpart : '\n' ∉ part) (h : cutLines (part ++ rest) = line :: below) : part <+: line := by
  have hflatten : line ++ below.flatten = part ++ rest := by
    rw [← flatten_cutLines (part ++ rest), h, List.flatten_cons]
  cases below with
  | nil =>
    rw [List.flatten_nil, List.append_nil] at hflatten
    exact ⟨rest, hflatten.symm⟩
  | cons next below =>
    have hcut : cutLines (part ++ rest) = [line] ++ next :: below := h
    rcases (isEnded_of_cutLines hcut).1 line List.mem_cons_self with ⟨xs, -, hended⟩
    cases List.prefix_or_prefix_of_prefix ⟨rest, rfl⟩ ⟨_, hflatten⟩ with
    | inl hprefix => exact hprefix
    | inr hshort => exact absurd (hshort.subset (by rw [hended]; simp)) hpart

/-- The text of the first line; an empty text has none. -/
def firstText (cs : List Char) : List Char := ((cutLines cs).head?.map lineText).getD []

/-- What stands before the first newline belongs to the text of the first line, unless it goes on to
the carriage return in front of the newline. -/
theorem prefix_firstText_or {part : List Char} (hpart : '\n' ∉ part) (rest : List Char) :
    part <+: firstText (part ++ rest) ∨
      part = firstText (part ++ rest) ++ ['\r'] ∧ ∃ more, rest = '\n' :: more := by
  unfold firstText
  cases hcut : cutLines (part ++ rest) with
  | nil =>
    have hnil : part ++ rest = [] := by rw [← flatten_cutLines (part ++ rest), hcut]; rfl
    exact .inl ⟨[], by simp [(List.append_eq_nil_iff.1 hnil).1]⟩
  | cons line below =>
    rcases prefix_lineText_or hpart (prefix_of_cutLines hpart hcut) with hinside | ⟨hend, hline⟩
    · exact .inl hinside
    · refine .inr ⟨hend, below.flatten, ?_⟩
      have hflatten := flatten_cutLines (part ++ rest)
      rw [hcut, List.flatten_cons, hline, List.append_assoc] at hflatten
      exact (List.append_cancel_left hflatten).symm

end Text

/-! ## Code units -/

namespace Text

/-- The code units of a character: two for a character beyond the basic plane. -/
def charUnits (c : Char) : List Nat :=
  if c.toNat < 0x10000 then [c.toNat]
  else [0xD800 + (c.toNat - 0x10000) / 0x400, 0xDC00 + (c.toNat - 0x10000) % 0x400]

/-- The code units of a text. -/
def units (cs : List Char) : List Nat := cs.flatMap charUnits

@[simp] theorem units_nil : units [] = [] := rfl

@[simp] theorem units_cons (c : Char) (cs : List Char) : units (c :: cs) = charUnits c ++ units cs :=
  rfl

@[simp] theorem units_append (xs ys : List Char) : units (xs ++ ys) = units xs ++ units ys :=
  List.flatMap_append

theorem length_units_append (xs ys : List Char) :
    (units (xs ++ ys)).length = (units xs).length + (units ys).length := by
  rw [units_append, List.length_append]

theorem length_le_length_units (cs : List Char) : cs.length ≤ (units cs).length := by
  induction cs with
  | nil => exact Nat.le_refl 0
  | cons c cs ih =>
    have hc : 1 ≤ (charUnits c).length := by
      rw [charUnits]
      split <;> simp
    rw [units_cons, List.length_append, List.length_cons]
    omega

theorem length_charUnits_le (c : Char) : (charUnits c).length ≤ c.utf8Size := by
  have hpos : 0 < c.utf8Size := c.utf8Size_pos
  rw [charUnits]
  split
  · exact hpos
  · next h =>
    have hne : c.utf8Size ≠ 1 := by
      intro hone
      have hle : c.toNat ≤ 127 := UInt32.le_iff_toNat_le.1 (Char.utf8Size_eq_one_iff.1 hone)
      omega
    simp only [List.length_cons, List.length_nil]
    omega

/-- A text takes no more units than bytes. -/
theorem length_units_le_bytes (cs : List Char) : (units cs).length ≤ bytes cs := by
  induction cs with
  | nil => exact Nat.le_refl 0
  | cons c cs ih =>
    have hc := length_charUnits_le c
    rw [units_cons, List.length_append, bytes_cons]
    omega

/-- A text has as many units as characters exactly if it stays within the basic plane. -/
theorem length_units_eq_iff (cs : List Char) :
    (units cs).length = cs.length ↔ ∀ c ∈ cs, c.toNat < 0x10000 := by
  induction cs with
  | nil => simp
  | cons c cs ih =>
    have hle := length_le_length_units cs
    rw [units_cons, List.length_append, List.length_cons, List.forall_mem_cons, ← ih, charUnits]
    split
    · next hc =>
      rw [List.length_singleton]
      omega
    · next hc =>
      simp only [List.length_cons, List.length_nil]
      omega

/-- The units of a character that ends no line end no line either. -/
theorem ne_of_mem_charUnits {c : Char} (hn : c ≠ '\n') (hr : c ≠ '\r') :
    ∀ u ∈ charUnits c, u ≠ 10 ∧ u ≠ 13 := by
  intro u hu
  rw [charUnits] at hu
  split at hu
  · rw [List.mem_singleton.1 hu]
    exact ⟨fun h => hn (Char.toNat_inj.1 h), fun h => hr (Char.toNat_inj.1 h)⟩
  · rw [List.mem_pair] at hu
    omega

theorem head?_units_ne {c : Char} (h : c ≠ '\n') (cs : List Char) :
    (units (c :: cs)).head? ≠ some 10 := by
  rw [units_cons, charUnits]
  split
  · exact fun heq => h (Char.toNat_inj.1 (Option.some.inj heq))
  · simp only [List.cons_append, List.head?_cons, ne_eq, Option.some.injEq]
    omega

/-- Every carriage return is followed by a newline. -/
def Paired : List Char → Prop
  | [] => True
  | c :: cs => (c = '\r' → cs.head? = some '\n') ∧ Paired cs

theorem paired_append_newline (xs cs : List Char) :
    Paired (xs ++ '\n' :: cs) ↔ Paired (xs ++ ['\n']) ∧ Paired cs := by
  induction xs with
  | nil => simp [Paired]
  | cons x xs ih =>
    have hhead : (xs ++ '\n' :: cs).head? = (xs ++ ['\n']).head? := by cases xs <;> rfl
    rw [List.cons_append, Paired, ih, hhead, List.cons_append, Paired, and_assoc]

/-- Without newlines there must not be carriage returns. -/
theorem paired_iff_of_notMem {cs : List Char} (h : '\n' ∉ cs) : Paired cs ↔ '\r' ∉ cs := by
  induction cs with
  | nil => simp [Paired]
  | cons c cs ih =>
    rw [List.mem_cons, not_or] at h
    have hhead : cs.head? ≠ some '\n' := fun heq => h.2 (List.mem_of_mem_head? heq)
    rw [Paired, ih h.2, List.mem_cons, not_or]
    constructor
    · exact fun hpaired => ⟨fun hc => hhead (hpaired.1 hc.symm), hpaired.2⟩
    · exact fun hfree => ⟨fun hc => absurd hc.symm hfree.1, hfree.2⟩

end Text

/-! ## The editor's side -/

namespace Client

/-- The first line of a document, without its end. -/
def firstLine (us : List Nat) : List Nat := us.takeWhile fun u => u != 10 && u != 13

/-- What follows the first line of a document, if the line has an end. -/
def belowFirst : List Nat → Option (List Nat)
  | [] => none
  | 10 :: us => some us
  | 13 :: 10 :: us => some us
  | 13 :: us => some us
  | _ :: us => belowFirst us

/-- The offset in units of a line and a character. A character past the end of its line is at the end
of the line, and a line past the end of the document is at the end of the document. -/
def offsetOf : Nat → Nat → List Nat → Nat
  | 0, character, us => min character (firstLine us).length
  | line + 1, character, us =>
    match belowFirst us with
    | some rest => us.length - rest.length + offsetOf line character rest
    | none => us.length

open Text

theorem belowFirst_append {us : List Nat} (h : ∀ u ∈ us, u ≠ 10 ∧ u ≠ 13) (vs : List Nat) :
    belowFirst (us ++ vs) = belowFirst vs := by
  induction us with
  | nil => rfl
  | cons u us ih =>
    rw [List.forall_mem_cons] at h
    rw [List.cons_append, belowFirst, ih h.2]
    · exact fun heq => absurd heq h.1.1
    · exact fun _ heq => absurd heq h.1.2
    · exact fun heq => absurd heq h.1.2

theorem belowFirst_return {us : List Nat} (h : us.head? ≠ some 10) :
    belowFirst (13 :: us) = some us := by
  cases us with
  | nil => rfl
  | cons u us =>
    rw [belowFirst]
    rintro vs heq
    exact h (by rw [heq]; rfl)

/-- A line whose carriage returns are in order ends where the library ends it. -/
theorem belowFirst_of_paired {xs : List Char} (hxs : '\n' ∉ xs) (h : Paired (xs ++ ['\n']))
    (cs : List Char) : belowFirst (units (xs ++ '\n' :: cs)) = some (units cs) := by
  induction xs with
  | nil => rfl
  | cons x xs ih =>
    rw [List.mem_cons, not_or] at hxs
    rw [List.cons_append, Paired] at h
    by_cases hx : x = '\r'
    · -- A newline is the only thing that may follow, and it is not part of the line.
      have hnil : xs = [] := by
        cases xs with
        | nil => rfl
        | cons y ys =>
          have hy : y = '\n' := by simpa using h.1 hx
          exact absurd (hy ▸ List.mem_cons_self) hxs.2
      rw [hx, hnil]
      rfl
    · rw [List.cons_append, units_cons, belowFirst_append (ne_of_mem_charUnits (Ne.symm hxs.1) hx),
        ih hxs.2 h.2]

/-- Any other line is broken off inside. -/
theorem belowFirst_of_not_paired {xs : List Char} (hxs : '\n' ∉ xs) (h : ¬ Paired (xs ++ ['\n']))
    (cs : List Char) :
    ∃ ys zs, xs = ys ++ zs ∧ belowFirst (units (xs ++ '\n' :: cs)) = some (units (zs ++ '\n' :: cs)) := by
  induction xs with
  | nil => exact absurd (by simp [Paired]) h
  | cons x xs ih =>
    rw [List.mem_cons, not_or] at hxs
    rw [List.cons_append, Paired] at h
    by_cases hx : x = '\r'
    · refine ⟨['\r'], xs, by rw [hx]; rfl, ?_⟩
      cases xs with
      | nil => exact absurd ⟨fun _ => rfl, by simp [Paired]⟩ h
      | cons y ys =>
        have hy : y ≠ '\n' := fun heq => hxs.2 (heq ▸ List.mem_cons_self)
        rw [hx]
        exact belowFirst_return (head?_units_ne hy (ys ++ '\n' :: cs))
    · have hrest : ¬ Paired (xs ++ ['\n']) := fun hpaired => h ⟨fun heq => absurd heq hx, hpaired⟩
      rcases ih hxs.2 hrest with ⟨ys, zs, rfl, hbelow⟩
      refine ⟨x :: ys, zs, rfl, ?_⟩
      rw [List.cons_append, units_cons, belowFirst_append (ne_of_mem_charUnits (Ne.symm hxs.1) hx),
        hbelow]

theorem length_firstLine_le (xs : List Char) {c : Char} (hc : c = '\n' ∨ c = '\r') (cs : List Char) :
    (firstLine (units (xs ++ c :: cs))).length ≤ (units xs).length := by
  have hstop : ∀ us vs : List Nat, (firstLine (us ++ c.toNat :: vs)).length ≤ us.length := by
    intro us vs
    induction us with
    | nil => rcases hc with rfl | rfl <;> exact Nat.le_refl 0
    | cons u us ih =>
      rw [firstLine, List.cons_append, List.takeWhile_cons]
      split
      · exact Nat.succ_le_succ ih
      · exact Nat.zero_le _
  have hunit : charUnits c = [c.toNat] := by rcases hc with rfl | rfl <;> rfl
  rw [units_append, units_cons, hunit, List.singleton_append]
  exact hstop _ _

theorem le_length_firstLine {xs : List Char} (hn : '\n' ∉ xs) (hr : '\r' ∉ xs) (cs : List Char) :
    (units xs).length ≤ (firstLine (units (xs ++ cs))).length := by
  have hall : ∀ u ∈ units xs, (u != 10 && u != 13) = true := by
    intro u hu
    rcases List.mem_flatMap.1 hu with ⟨c, hc, hu⟩
    have hne := ne_of_mem_charUnits (fun heq => hn (heq ▸ hc)) (fun heq => hr (heq ▸ hc)) u hu
    simp [hne]
  rw [units_append, firstLine, List.takeWhile_append_of_pos hall, List.length_append]
  exact Nat.le_add_right _ _

/-! ## Where cursors lead -/

theorem offsetOf_succ {us rest : List Nat} (h : belowFirst (us ++ rest) = some rest)
    (line character : Nat) :
    offsetOf (line + 1) character (us ++ rest) = us.length + offsetOf line character rest := by
  rw [offsetOf, h]
  simp

/-- Past a line whose carriage returns are in order. -/
theorem offsetOf_succ_of_paired {xs : List Char} (hxs : '\n' ∉ xs) (h : Paired (xs ++ ['\n']))
    (line character : Nat) (cs : List Char) :
    offsetOf (line + 1) character (units (xs ++ '\n' :: cs)) =
      (units xs).length + 1 + offsetOf line character (units cs) := by
  have hsplit : units (xs ++ '\n' :: cs) = units (xs ++ ['\n']) ++ units cs := by simp
  have hbelow := belowFirst_of_paired hxs h cs
  rw [hsplit] at hbelow ⊢
  rw [offsetOf_succ hbelow, units_append, List.length_append]
  rfl

/-- Any other line is not passed as a whole. -/
theorem offsetOf_succ_of_not_paired {xs : List Char} (hxs : '\n' ∉ xs)
    (h : ¬ Paired (xs ++ ['\n'])) (line character : Nat) (cs : List Char) :
    ∃ ys zs, xs = ys ++ zs ∧ offsetOf (line + 1) character (units (xs ++ '\n' :: cs)) =
      (units ys).length + offsetOf line character (units (zs ++ '\n' :: cs)) := by
  rcases belowFirst_of_not_paired hxs h cs with ⟨ys, zs, rfl, hbelow⟩
  refine ⟨ys, zs, rfl, ?_⟩
  rw [List.append_assoc, units_append] at hbelow ⊢
  exact offsetOf_succ hbelow line character

theorem flatten_append_newline (xs : List Char) (above : List (List Char)) (rest : List Char) :
    ((xs ++ ['\n']) :: above).flatten ++ rest = xs ++ '\n' :: (above.flatten ++ rest) := by
  simp

theorem length_units_flatten (xs : List Char) (above : List (List Char)) :
    (units ((xs ++ ['\n']) :: above).flatten).length =
      (units xs).length + 1 + (units above.flatten).length := by
  rw [List.flatten_cons, units_append, units_append, List.length_append, List.length_append]
  rfl

/-- A line above the end of some lines leads to a place before that end. -/
theorem offsetOf_lt {above : List (List Char)} (habove : ∀ l ∈ above, IsEnded l) {line : Nat}
    (h : line < above.length) (character : Nat) (rest : List Char) :
    offsetOf line character (units (above.flatten ++ rest)) < (units above.flatten).length := by
  induction line generalizing above with
  | zero =>
    cases above with
    | nil => simp at h
    | cons l above =>
      rcases habove l List.mem_cons_self with ⟨xs, -, rfl⟩
      have hfirst := length_firstLine_le xs (.inl rfl) (above.flatten ++ rest)
      rw [flatten_append_newline, length_units_flatten, offsetOf]
      omega
  | succ line ih =>
    cases above with
    | nil => simp at h
    | cons l above =>
      rw [List.forall_mem_cons] at habove
      rcases habove.1 with ⟨xs, hxs, rfl⟩
      rw [List.length_cons] at h
      rw [flatten_append_newline, length_units_flatten]
      by_cases hpaired : Paired (xs ++ ['\n'])
      · have hbelow := ih habove.2 (Nat.lt_of_succ_lt_succ h)
        rw [offsetOf_succ_of_paired hxs hpaired]
        omega
      · rcases offsetOf_succ_of_not_paired hxs hpaired line character (above.flatten ++ rest) with
          ⟨ys, zs, rfl, hoffset⟩
        have hzs : '\n' ∉ zs := fun hmem => hxs (List.mem_append_right _ hmem)
        have hbelow := @ih ((zs ++ ['\n']) :: above)
          (List.forall_mem_cons.2 ⟨⟨zs, hzs, rfl⟩, habove.2⟩) (by rw [List.length_cons]; omega)
        rw [flatten_append_newline, length_units_flatten] at hbelow
        rw [hoffset, length_units_append]
        omega

/-- The line right below some lines leads to no place behind the characters that are counted off on it.
It leads to the place behind them exactly if all carriage returns are in order and the characters take
a unit each. -/
theorem offsetOf_le_and_eq_iff {above : List (List Char)} (habove : ∀ l ∈ above, IsEnded l)
    {part : List Char} (hpart : '\n' ∉ part) {character : Nat} (hle : character ≤ part.length)
    (rest : List Char) :
    let offset := offsetOf above.length character (units (above.flatten ++ (part ++ rest)))
    let stop := (units (above.flatten ++ part)).length
    offset ≤ stop ∧
      (offset = stop ↔ Paired (above.flatten ++ part) ∧ character = (units part).length) := by
  have hunits := length_le_length_units part
  induction above with
  | nil =>
    rw [List.flatten_nil, List.nil_append, List.nil_append, List.length_nil, offsetOf,
      paired_iff_of_notMem hpart]
    refine ⟨by omega, ?_⟩
    by_cases hr : '\r' ∈ part
    · -- The editor's line is over before the part is.
      rcases List.append_of_mem hr with ⟨xs, ys, rfl⟩
      have hfirst := length_firstLine_le xs (.inr rfl) (ys ++ rest)
      have hlength : (units (xs ++ '\r' :: ys)).length = (units xs).length + 1 + (units ys).length := by
        rw [units_append, units_cons, List.length_append, List.length_append, Nat.add_assoc]
        rfl
      rw [List.append_assoc, List.cons_append]
      simp only [hr, not_true_eq_false, false_and, iff_false]
      omega
    · have hfirst := le_length_firstLine hpart hr rest
      simp only [hr, not_false_eq_true, true_and]
      omega
  | cons l above ih =>
    rw [List.forall_mem_cons] at habove
    rcases habove.1 with ⟨xs, hxs, rfl⟩
    have hstop : (units (((xs ++ ['\n']) :: above).flatten ++ part)).length =
        (units xs).length + 1 + (units (above.flatten ++ part)).length := by
      rw [flatten_append_newline, units_append, units_cons, List.length_append, List.length_append,
        Nat.add_assoc]
      rfl
    simp only [hstop, List.length_cons]
    rw [flatten_append_newline, flatten_append_newline, paired_append_newline]
    by_cases hpaired : Paired (xs ++ ['\n'])
    · have hbelow := ih habove.2
      rw [offsetOf_succ_of_paired hxs hpaired]
      simp only [hpaired, true_and]
      refine ⟨by omega, ?_⟩
      rw [← hbelow.2]
      omega
    · rcases offsetOf_succ_of_not_paired hxs hpaired above.length character
        (above.flatten ++ (part ++ rest)) with ⟨ys, zs, rfl, hoffset⟩
      have hzs : '\n' ∉ zs := fun hmem => hxs (List.mem_append_right _ hmem)
      have hbelow := @offsetOf_lt ((zs ++ ['\n']) :: above)
        (List.forall_mem_cons.2 ⟨⟨zs, hzs, rfl⟩, habove.2⟩) above.length (by simp) character
        (part ++ rest)
      rw [flatten_append_newline, length_units_flatten] at hbelow
      rw [hoffset, length_units_append, length_units_append]
      simp only [hpaired, false_and, iff_false]
      omega

end Client

namespace Cursor

open Text

theorem charactersBefore_append (xs ys : List Char) :
    charactersBefore (bytes xs) (xs ++ ys) = xs.length := by
  induction xs with
  | nil => cases ys <;> rfl
  | cons x xs ih =>
    have hpos : 0 < x.utf8Size := x.utf8Size_pos
    have hne : ¬ (x.utf8Size + bytes xs == 0) = true := by
      rw [beq_iff_eq]
      omega
    rw [List.cons_append, charactersBefore, bytes_cons, if_neg hne, Nat.add_sub_cancel_left, ih,
      List.length_cons]

/-- Of a part and a line that begin alike, the characters of the shorter one are counted. -/
theorem charactersBefore_min {part line : List Char} (h : part <+: line ∨ line <+: part) :
    charactersBefore (min (bytes part) (bytes line)) line = min part.length line.length := by
  rcases h with ⟨more, rfl⟩ | ⟨more, rfl⟩
  · rw [bytes_append, Nat.min_eq_left (Nat.le_add_right _ _), charactersBefore_append,
      List.length_append, Nat.min_eq_left (Nat.le_add_right _ _)]
  · have hall := charactersBefore_append line []
    rw [List.append_nil] at hall
    rw [bytes_append, Nat.min_eq_right (Nat.le_add_right _ _), hall, List.length_append,
      Nat.min_eq_right (Nat.le_add_right _ _)]

/-- The cursor of a place counts newlines before it and characters on its line, up to the end of the
text of the line. -/
theorem ofOffset_eq {text : String} {above : List (List Char)} {part rest : List Char}
    (htext : text.toList = above.flatten ++ (part ++ rest)) (habove : ∀ l ∈ above, IsEnded l)
    (hpart : '\n' ∉ part) :
    ofOffset text (LineIndex.ofText text) (bytes (above.flatten ++ part)) =
      ⟨above.length % limit, min part.length (firstText (part ++ rest)).length % limit⟩ := by
  have hposition : (LineIndex.ofText text).position (bytes (above.flatten ++ part)) =
      ⟨above.length + 1, bytes part + 1⟩ := by
    rw [bytes_append, LineIndex.position_eq htext (flatten_ended habove) hpart (Nat.le_refl _),
      count_newline_flatten habove, Nat.add_sub_cancel_left]
    intro c _
    exact Nat.lt_add_of_pos_right c.utf8Size_pos
  have hlines : (textLines text).getD above.length "" = String.ofList (firstText (part ++ rest)) := by
    rw [textLines_eq_map, htext, cutLines_flatten_append habove, firstText]
    cases cutLines (part ++ rest) <;> simp
  have hcount : charactersBefore (min (bytes part) (bytes (firstText (part ++ rest))))
      (firstText (part ++ rest)) = min part.length (firstText (part ++ rest)).length := by
    apply charactersBefore_min
    rcases prefix_firstText_or hpart rest with hinside | ⟨hend, -⟩
    · exact .inl hinside
    · exact .inr ⟨['\r'], hend.symm⟩
  rw [ofOffset, hposition]
  simp only [ofColumn, Nat.add_sub_cancel, hlines, byteLength_ofList, String.toList_ofList, hcount]

/-- All characters of a part without a carriage return are counted. -/
theorem exists_ofOffset {text : String} {above : List (List Char)} {part rest : List Char}
    (htext : text.toList = above.flatten ++ (part ++ rest)) (habove : ∀ l ∈ above, IsEnded l)
    (hpart : '\n' ∉ part) :
    ∃ k, k ≤ part.length ∧ ('\r' ∉ part → k = part.length) ∧
      ofOffset text (LineIndex.ofText text) (bytes (above.flatten ++ part)) =
        ⟨above.length % limit, k % limit⟩ := by
  refine ⟨_, Nat.min_le_left _ _, ?_, ofOffset_eq htext habove hpart⟩
  intro hr
  rcases prefix_firstText_or hpart rest with hinside | ⟨hend, -⟩
  · exact Nat.min_eq_left hinside.length_le
  · exact absurd (hend ▸ List.mem_append_right _ List.mem_cons_self) hr

end Cursor

/-! ## Addressable places -/

/-- A cursor can lead to the place behind the text: the carriage returns of the text belong to
newlines, its last line stays within the basic plane, and lines and characters can be counted. -/
structure Addressable (cs : List Char) : Prop where
  paired : Text.Paired cs
  basic : ∀ c ∈ Printer.lastLine cs, c.toNat < 0x10000
  lines : cs.count '\n' < Cursor.limit
  characters : (Printer.lastLine cs).length < Cursor.limit

namespace Client

open Text

/-- Where a cursor leads in a document. -/
def offset (us : List Nat) (c : Cursor) : Nat := offsetOf c.line c.character us

theorem paired_of_append {xs ys : List Char} (h : Paired (xs ++ ys)) : Paired ys := by
  induction xs with
  | nil => exact h
  | cons x xs ih =>
    rw [List.cons_append, Paired] at h
    exact ih h.2

/-- The cursor of a place leads to it or to a place before it, and it leads to it exactly if the text
before the place is addressable. -/
theorem offset_ofOffset {text : String} {front back : List Char} (htext : text.toList = front ++ back) :
    let found := offset (units text.toList)
      (Cursor.ofOffset text (LineIndex.ofText text) (bytes front))
    found ≤ (units front).length ∧ (found = (units front).length ↔ Addressable front) := by
  rcases exists_lines front with ⟨above, part, rfl, habove, hpart⟩
  rw [List.append_assoc] at htext
  rcases Cursor.exists_ofOffset htext habove hpart with ⟨k, hk, hwhole, hcursor⟩
  have hlast : Printer.lastLine (above.flatten ++ part) = part := lastLine_eq habove hpart
  have hcount : (above.flatten ++ part).count '\n' = above.length := by
    rw [List.count_append, count_newline_flatten habove, List.count_eq_zero_of_not_mem hpart,
      Nat.add_zero]
  simp only [hcursor, offset]
  rw [htext]
  by_cases hlines : above.length < Cursor.limit
  · have hle : k % Cursor.limit ≤ part.length := (Nat.mod_le _ _).trans hk
    have hplace := offsetOf_le_and_eq_iff habove hpart hle back
    rw [Nat.mod_eq_of_lt hlines]
    refine ⟨hplace.1, hplace.2.trans ?_⟩
    constructor
    · rintro ⟨hpaired, hunits⟩
      have hk' := hwhole ((paired_iff_of_notMem hpart).1 (paired_of_append hpaired))
      have hmod := Nat.mod_le k Cursor.limit
      have hmore := length_le_length_units part
      have hlimit : k % Cursor.limit < Cursor.limit := Nat.mod_lt k (by decide)
      refine ⟨hpaired, ?_, by rwa [hcount], ?_⟩
      · rw [hlast]
        exact (length_units_eq_iff part).1 (by omega)
      · rw [hlast]
        omega
    · intro haddressable
      have hbasic := haddressable.basic
      have hcharacters := haddressable.characters
      rw [hlast] at hbasic hcharacters
      refine ⟨haddressable.paired, ?_⟩
      rw [hwhole ((paired_iff_of_notMem hpart).1 (paired_of_append haddressable.paired)),
        Nat.mod_eq_of_lt hcharacters, (length_units_eq_iff part).2 hbasic]
  · -- The number of the line is cut off, and leads above the place.
    have hlt : above.length % Cursor.limit < above.length :=
      (Nat.mod_lt _ (by decide)).trans_le (Nat.not_lt.1 hlines)
    have hbefore := offsetOf_lt habove hlt (k % Cursor.limit) (part ++ back)
    have hwithin := length_units_append above.flatten part
    refine ⟨by omega, ?_⟩
    constructor
    · intro heq
      omega
    · intro haddressable
      exact absurd (hcount ▸ haddressable.lines) hlines

end Client

end LintMend
