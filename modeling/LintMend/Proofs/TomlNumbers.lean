import LintMend.Proofs.JsonText
import LintMend.Proofs.QuotedToml
import Mathlib.Data.List.Induction

/-!
# Numbers and dates

Integers are written in decimal digits, and dates and times are kept as they are usually spelled. Both
are read back, whatever ends the value. What is read as a date or a time is always in this spelling.
-/

namespace LintMend.Toml

open Json (decimals)

/-! ## What stands behind a value -/

/-- What ends a value: a newline, a comma, a bracket, or a brace after a blank. -/
inductive Ends : List Char → Prop
  | newline (cs : List Char) : Ends ('\n' :: cs)
  | comma (cs : List Char) : Ends (',' :: cs)
  | bracket (cs : List Char) : Ends (']' :: cs)
  | brace (cs : List Char) : Ends (' ' :: '\x7d' :: cs)

theorem Ends.exists_cons {rest : List Char} (h : Ends rest) :
    ∃ c cs, rest = c :: cs ∧ c ∈ ['\n', ',', ']', ' '] := by
  cases h with
  | newline cs => exact ⟨_, cs, rfl, by decide⟩
  | comma cs => exact ⟨_, cs, rfl, by decide⟩
  | bracket cs => exact ⟨_, cs, rfl, by decide⟩
  | brace cs => exact ⟨_, _, rfl, by decide⟩

theorem Ends.head?_ne {rest : List Char} (h : Ends rest) {d : Char} (hd : d ∉ ['\n', ',', ']', ' ']) :
    rest.head? ≠ some d := by
  rcases h.exists_cons with ⟨c, cs, rfl, hc⟩
  rintro ⟨⟩
  exact hd hc

/-! ## Digits -/

theorem isDecimal_of_mem_decimals {n : Nat} {d : Char} (h : d ∈ decimals n) : isDecimal d = true :=
  Json.isDigit_of_mem_decimals h

theorem decimalOf_decimals (n : Nat) : decimalOf (decimals n) = n := Json.natOfDigits_decimals n

theorem ne_of_isDecimal {c d : Char} (h : isDecimal c = true) (hd : isDecimal d = false) : c ≠ d := by
  rintro rfl
  simp [h] at hd

theorem Ends.not_isDecimal {c : Char} {cs : List Char} (h : Ends (c :: cs)) : isDecimal c = false := by
  cases h <;> rfl

theorem Ends.ne {c d : Char} {cs : List Char} (h : Ends (c :: cs)) (hd : d ∉ ['\n', ',', ']', ' ']) :
    c ≠ d := by
  intro heq
  exact h.head?_ne hd (congrArg some heq)

/-- Digits are read up to something that is neither a digit nor an underscore. -/
theorem digitRun?_append {ds : List Char} (hne : ds ≠ []) (hds : ∀ d ∈ ds, isDecimal d = true)
    {c : Char} (hc : isDecimal c = false) (hunderscore : c ≠ '_') (cs : List Char) :
    digitRun? isDecimal (ds ++ c :: cs) = some (ds, c :: cs) := by
  induction ds with
  | nil => exact absurd rfl hne
  | cons d ds ih =>
    rw [List.forall_mem_cons] at hds
    cases ds with
    | nil =>
      rw [List.singleton_append, digitRun?.eq_3 _ _ _ _ (fun _ _ heq => absurd heq hunderscore)
        (fun heq => absurd heq hunderscore)]
      simp [hds.1, hc]
    | cons e ds =>
      have he : isDecimal e = true := hds.2 e List.mem_cons_self
      have hne' : e ≠ '_' := ne_of_isDecimal he (by decide)
      rw [List.cons_append, List.cons_append, digitRun?.eq_3 _ _ _ _ (fun _ _ heq => absurd heq hne')
        (fun heq => absurd heq hne'), if_pos hds.1, if_pos he, ← List.cons_append,
        ih (List.cons_ne_nil e ds) hds.2]
      rfl

theorem wholeDigits?_decimals (n : Nat) {c : Char} {cs : List Char} (h : Ends (c :: cs)) :
    wholeDigits? (decimals n ++ c :: cs) = some (decimals n, c :: cs) := by
  rcases Json.exists_decimals_cons n with ⟨d, ds, hdigits, -, hzero⟩
  by_cases hd : d = '0'
  · subst hd
    rw [hdigits, (hzero rfl).2]
    rfl
  · have hother : ∀ more, decimals n ++ c :: cs ≠ '0' :: more := by
      intro more heq
      rw [hdigits] at heq
      exact hd (List.cons.inj heq).1
    rw [wholeDigits?.eq_2 _ hother]
    exact digitRun?_append (by simp [hdigits]) (fun _ => isDecimal_of_mem_decimals) h.not_isDecimal
      (h.ne (by decide)) cs

/-! ## Integers -/

/-- The decimal digits of a number, with a minus in front of them or without. -/
def signed (negative : Bool) (m : Nat) : List Char :=
  if negative then '-' :: decimals m else decimals m

theorem toList_toString_int (n : Int) : (toString n).toList = signed (decide (n < 0)) n.natAbs := by
  cases n with
  | ofNat m => exact Nat.toList_repr
  | negSucc m =>
    have hparts : toString (Int.negSucc m) = "-" ++ (m + 1).repr := rfl
    have hminus : "-".toList = ['-'] := by decide +kernel
    rw [hparts, String.toList_append, Nat.toList_repr, hminus, decide_eq_true (Int.negSucc_lt_zero m)]
    rfl

section Signed

variable (negative : Bool) (m : Nat) {c : Char} {cs : List Char}

theorem sign_signed (rest : List Char) :
    sign (signed negative m ++ rest) = (negative, decimals m ++ rest) := by
  cases negative with
  | true => rfl
  | false =>
    rcases Json.exists_decimals_cons m with ⟨d, ds, hdigits, hd, -⟩
    rw [signed, if_neg (by decide), hdigits, List.cons_append]
    unfold sign
    split
    · next heq => exact absurd (List.cons.inj heq).1 (ne_of_isDecimal hd (by decide))
    · next heq => exact absurd (List.cons.inj heq).1 (ne_of_isDecimal hd (by decide))
    · rfl

/-- A number without a fraction and an exponent is no float. -/
theorem float?_signed (h : Ends (c :: cs)) :
    float? (signed negative m ++ c :: cs) = some (none, c :: cs) := by
  have hexponent : exponent? (c :: cs) = some (none, c :: cs) := by
    rw [exponent?]
    simp [h.ne (d := 'e') (by decide), h.ne (d := 'E') (by decide)]
  simp only [float?, sign_signed, wholeDigits?_decimals m h, Option.bind_eq_bind, Option.bind_some]
  split
  · next heq => exact absurd (List.cons.inj heq).1 (h.ne (by decide))
  · rw [hexponent]
    rfl

/-- A zero in front of a letter begins a number in another base. -/
theorem signed_ne_based (h : Ends (c :: cs)) {letter : Char}
    (hletter : letter ∉ ['\n', ',', ']', ' ']) (more : List Char) : signed negative m ++ c :: cs ≠ '0' :: letter :: more := by
  intro heq
  cases negative with
  | true => cases heq
  | false =>
    rcases Json.exists_decimals_cons m with ⟨d, ds, hdigits, -, hzero⟩
    rw [signed, if_neg (by decide), hdigits] at heq
    rcases List.cons.inj heq with ⟨hd, hds⟩
    rw [(hzero hd).2] at hds
    exact h.ne hletter (List.cons.inj hds).1

theorem integer?_signed (h : Ends (c :: cs)) :
    integer? (signed negative m ++ c :: cs) =
      (int64? (if negative then -m else m)).map fun v => (v, c :: cs) := by
  rw [integer?.eq_4 _ (signed_ne_based negative m h (by decide))
    (signed_ne_based negative m h (by decide)) (signed_ne_based negative m h (by decide)), sign_signed]
  simp only [wholeDigits?_decimals m h, Option.bind_eq_bind, Option.bind_some, decimalOf_decimals]
  cases int64? (if negative = true then -m else m) with
  | none => rfl
  | some v => rfl

end Signed

theorem digits?_eq_some_iff {count n : Nat} {cs rest : List Char} :
    digits? count cs = some (n, rest) ↔ ∃ ds, cs = ds ++ rest ∧ ds.length = count ∧
      (∀ d ∈ ds, isDecimal d = true) ∧ decimalOf ds = n := by
  simp only [digits?, Option.ite_none_right_eq_some, Option.some.injEq, Prod.mk.injEq,
    List.all_eq_true]
  constructor
  · rintro ⟨⟨hlength, hall⟩, hn, hrest⟩
    exact ⟨cs.take count, by rw [← hrest, List.take_append_drop], hlength, hall, hn⟩
  · rintro ⟨ds, rfl, rfl, hall, hn⟩
    rw [List.take_left, List.drop_left]
    exact ⟨⟨rfl, hall⟩, hn, rfl⟩

/-- Where digits end is told by what is no digit. -/
theorem digits_append_inj {ds es xs ys : List Char} {x y : Char}
    (hds : ∀ d ∈ ds, isDecimal d = true) (hes : ∀ d ∈ es, isDecimal d = true)
    (hx : isDecimal x = false) (hy : isDecimal y = false) (h : ds ++ x :: xs = es ++ y :: ys) :
    x = y := by
  have hrest := congrArg (List.dropWhile isDecimal) h
  rw [List.dropWhile_append_of_pos hds, List.dropWhile_append_of_pos hes,
    List.dropWhile_cons_of_neg (by simp [hx]), List.dropWhile_cons_of_neg (by simp [hy])] at hrest
  exact (List.cons.inj hrest).1

section Signed

variable (negative : Bool) (m : Nat) {c : Char} {cs : List Char}

/-- What stands behind the digits of a whole number is what ends it. -/
theorem digits?_signed (h : Ends (c :: cs)) {count n : Nat} {x : Char} {more : List Char}
    (hx : isDecimal x = false) (hcount : 0 < count)
    (hdigits : digits? count (signed negative m ++ c :: cs) = some (n, x :: more)) : x = c := by
  rcases digits?_eq_some_iff.1 hdigits with ⟨ds, htext, hlength, hds, -⟩
  cases negative with
  | false =>
    exact (digits_append_inj (fun _ => isDecimal_of_mem_decimals) hds h.not_isDecimal hx htext).symm
  | true =>
    cases ds with
    | nil =>
      subst hlength
      cases hcount
    | cons d ds =>
      have hd := hds d List.mem_cons_self
      rw [← (List.cons.inj htext).1] at hd
      exact absurd hd (by decide)

theorem looksLikeDate_signed (h : Ends (c :: cs)) :
    looksLikeDate (signed negative m ++ c :: cs) = false := by
  rw [looksLikeDate, Bool.and_eq_false_imp]
  intro hsome
  rcases Option.isSome_iff_exists.1 hsome with ⟨⟨n, rest⟩, hdigits⟩
  rcases digits?_eq_some_iff.1 hdigits with ⟨ds, htext, hlength, -, -⟩
  rw [htext, List.getElem?_append_right (by omega), hlength, Nat.sub_self, beq_eq_false_iff_ne]
  intro hfirst
  cases rest with
  | nil => cases hfirst
  | cons x more =>
    cases hfirst
    exact h.ne (by decide) (digits?_signed negative m h (by decide) (by decide) hdigits).symm

theorem looksLikeTime_signed (h : Ends (c :: cs)) :
    looksLikeTime (signed negative m ++ c :: cs) = false := by
  rw [looksLikeTime]
  split
  · next hdigits =>
    exact absurd (digits?_signed negative m h (by decide) (by decide) hdigits).symm
      (h.ne (by decide))
  · rfl

/-- An integer that fits 64 bits is read back. -/
theorem numeric?_integer {n : Int} (hn : -signedLimit ≤ n ∧ n < signedLimit) {rest : List Char}
    (h : Ends rest) : numeric? ((toString n).toList ++ rest) = some (.integer n, rest) := by
  rcases h.exists_cons with ⟨c, cs, rfl, -⟩
  have hvalue : (if decide (n < 0) = true then -(n.natAbs : Int) else n.natAbs) = n := by
    by_cases hneg : n < 0
    · rw [if_pos (by simpa using hneg)]
      omega
    · rw [if_neg (by simpa using hneg)]
      omega
  have hinteger := integer?_signed (decide (n < 0)) n.natAbs h
  rw [hvalue, int64?, if_pos hn, Option.map_some] at hinteger
  rw [toList_toString_int, ← hinteger]
  unfold numeric?
  rw [looksLikeDate_signed _ _ h, looksLikeTime_signed _ _ h, if_neg (by decide), sign_signed]
  rcases Json.exists_decimals_cons n.natAbs with ⟨d, ds, hdigits, hd, -⟩
  rw [hdigits]
  dsimp only
  split
  · next heq => exact absurd (List.cons.inj heq).1 (ne_of_isDecimal hd (by decide))
  · next heq => exact absurd (List.cons.inj heq).1 (ne_of_isDecimal hd (by decide))
  · split
    · rfl
    · rfl
    · rfl
    · rw [float?_signed _ _ h]

end Signed

/-! ## Numbers of a fixed width -/

theorem decimalOf_zeros (k : Nat) (ds : List Char) :
    decimalOf (List.replicate k '0' ++ ds) = decimalOf ds := by
  induction k with
  | zero => rfl
  | succ k ih => exact ih

theorem digits?_padded {width n : Nat} (hwidth : 0 < width) (h : n < 10 ^ width) (rest : List Char) :
    digits? width ((padded width n).toList ++ rest) = some (n, rest) := by
  have hlength : (decimals n).length ≤ width := (Nat.length_toDigits_le_iff (by decide) hwidth).2 h
  have hpadded : (padded width n).toList =
      List.replicate (width - (decimals n).length) '0' ++ decimals n := String.toList_ofList
  refine digits?_eq_some_iff.2 ⟨_, rfl, ?_, ?_, ?_⟩
  · rw [hpadded, List.length_append, List.length_replicate]
    omega
  · intro d hd
    rw [hpadded, List.mem_append, List.mem_replicate] at hd
    rcases hd with ⟨-, rfl⟩ | hd
    · decide
    · exact isDecimal_of_mem_decimals hd
  · rw [hpadded, decimalOf_zeros, decimalOf_decimals]

theorem decimalOf_append_singleton (ds : List Char) (d : Char) :
    decimalOf (ds ++ [d]) = decimalOf ds * 10 + (d.toNat - '0'.toNat) := by
  simp [decimalOf]

theorem decimalOf_lt {ds : List Char} (h : ∀ d ∈ ds, isDecimal d = true) :
    decimalOf ds < 10 ^ ds.length := by
  induction ds using List.reverseRecOn with
  | nil => decide
  | append_singleton ds d ih =>
    rw [List.forall_mem_append] at h
    have hd : d.toNat ≤ '9'.toNat := by
      have hdecimal := h.2 d (by simp)
      simp only [isDecimal, Bool.and_eq_true, decide_eq_true_eq] at hdecimal
      exact hdecimal.2
    have hds := ih h.1
    have hdigit : d.toNat - '0'.toNat < 10 := by
      have hnine : '9'.toNat = 57 := rfl
      have hzero : '0'.toNat = 48 := rfl
      omega
    rw [decimalOf_append_singleton, List.length_append, List.length_singleton, Nat.pow_succ]
    omega

theorem lt_of_digits? {width n : Nat} {cs rest : List Char} (h : digits? width cs = some (n, rest)) :
    n < 10 ^ width := by
  rcases digits?_eq_some_iff.1 h with ⟨ds, -, rfl, hds, rfl⟩
  exact decimalOf_lt hds

/-! ## Dates -/

/-- A date in its usual spelling. -/
def dateText (year month day : Nat) : String :=
  s!"{padded 4 year}-{padded 2 month}-{padded 2 day}"

/-- The text is a date of the calendar in its usual spelling. -/
def IsDate (s : String) : Prop :=
  ∃ year month day, year < 10 ^ 4 ∧ 1 ≤ month ∧ month ≤ 12 ∧ 1 ≤ day ∧ day ≤ daysIn year month ∧
    s = dateText year month day

theorem toList_dateText (year month day : Nat) (rest : List Char) :
    (dateText year month day).toList ++ rest = (padded 4 year).toList ++
      '-' :: ((padded 2 month).toList ++ '-' :: ((padded 2 day).toList ++ rest)) := by
  have hdash : "-".toList = ['-'] := by decide +kernel
  simp [dateText, toString, hdash]

theorem daysIn_le (year month : Nat) : daysIn year month ≤ 31 := by
  unfold daysIn
  split
  · split <;> omega
  · omega
  · omega
  · omega
  · omega
  · omega

theorem IsDate.read {s : String} (h : IsDate s) (rest : List Char) :
    date? (s.toList ++ rest) = some (s, rest) := by
  rcases h with ⟨year, month, day, hyear, hmonth, hmonth', hday, hday', rfl⟩
  have hdays := daysIn_le year month
  rw [toList_dateText, date?]
  simp only [digits?_padded (by decide : 0 < 4) hyear,
    digits?_padded (by decide : 0 < 2) (by omega : month < 10 ^ 2),
    digits?_padded (by decide : 0 < 2) (by omega : day < 10 ^ 2), Option.bind_eq_bind,
    Option.bind_some]
  rw [if_pos ⟨hmonth, hmonth', hday, hday'⟩]
  rfl

theorem isDate_of_date? {cs rest : List Char} {s : String} (h : date? cs = some (s, rest)) :
    IsDate s := by
  rw [date?] at h
  rcases Option.bind_eq_some_iff.1 h with ⟨⟨year, cs⟩, hyear, h⟩
  dsimp only at h
  split at h
  · rcases Option.bind_eq_some_iff.1 h with ⟨⟨month, cs⟩, hmonth, h⟩
    dsimp only at h
    split at h
    · rcases Option.bind_eq_some_iff.1 h with ⟨⟨day, cs⟩, hday, h⟩
      dsimp only at h
      split at h
      · next hvalid =>
        have hs := congrArg Prod.fst (Option.some.inj h)
        exact ⟨year, month, day, lt_of_digits? hyear, hvalid.1, hvalid.2.1, hvalid.2.2.1,
          hvalid.2.2.2, hs.symm⟩
      · cases h
    · cases h
  · cases h

/-! ## Times -/

/-- The text is a fraction of a second in its usual spelling: nothing, or a point and at most nine
digits of which the last is not zero. -/
def IsFraction (s : String) : Prop :=
  s = "" ∨ ∃ ds d, s.toList = '.' :: (ds ++ [d]) ∧ (∀ e ∈ ds ++ [d], isDecimal e = true) ∧ d ≠ '0' ∧
    ds.length < 9

theorem IsFraction.read {s : String} (h : IsFraction s) {c : Char} {cs : List Char} (hdot : c ≠ '.')
    (hc : isDecimal c = false) : secondFraction? (s.toList ++ c :: cs) = some (s, c :: cs) := by
  rcases h with rfl | ⟨ds, d, hs, hdigits, hd, hlength⟩
  · rw [String.toList_empty, List.nil_append, secondFraction?.eq_2 _ ?_]
    intro more heq
    exact hdot (List.cons.inj heq).1
  · have hkept : (((ds ++ [d]).take 9).reverse.dropWhile (· == '0')).reverse = ds ++ [d] := by
      rw [List.take_of_length_le (by simp; omega), List.reverse_append, List.reverse_singleton,
        List.singleton_append, List.dropWhile_cons_of_neg (by simpa using hd), List.reverse_cons,
        List.reverse_reverse]
    have htext : "." ++ String.ofList (ds ++ [d]) = s := by
      rw [← String.toList_inj, hs]
      simp
    rw [hs, List.cons_append, secondFraction?, List.takeWhile_append_of_pos hdigits,
      List.dropWhile_append_of_pos hdigits, List.takeWhile_cons_of_neg (by simp [hc]),
      List.dropWhile_cons_of_neg (by simp [hc]), List.append_nil]
    split
    · next heq => simp at heq
    · simp only [hkept, htext]
      simp

theorem isFraction_of_secondFraction? {cs rest : List Char} {s : String}
    (h : secondFraction? cs = some (s, rest)) : IsFraction s := by
  rw [secondFraction?.eq_def] at h
  split at h
  · next cs =>
    split at h
    · cases h
    · simp only [Option.some.injEq, Prod.mk.injEq] at h
      rcases h with ⟨rfl, -⟩
      cases hkept : ((cs.takeWhile isDecimal).take 9).reverse.dropWhile (· == '0') with
      | nil => exact .inl (by simp)
      | cons d ds =>
        have hsuffix : d :: ds <:+ ((cs.takeWhile isDecimal).take 9).reverse :=
          hkept ▸ List.dropWhile_suffix _
        have hfirst : (d == '0') = false := by
          have hhead := List.head?_dropWhile_not (· == '0')
            ((cs.takeWhile isDecimal).take 9).reverse
          rw [hkept] at hhead
          exact hhead
        refine .inr ⟨ds.reverse, d, by simp, ?_, by simpa using hfirst, ?_⟩
        · intro e he
          have hmem : e ∈ d :: ds := by simpa [or_comm] using he
          exact List.mem_takeWhile_imp
            (List.mem_of_mem_take (List.mem_reverse.1 (hsuffix.subset hmem)))
        · have hlength := hsuffix.length_le
          simp only [List.length_cons, List.length_reverse, List.length_take] at hlength ⊢
          omega
  · cases h
    exact .inl rfl

/-- A time of day in its usual spelling. -/
def timeText (hour minute second : Nat) (fraction : String) : String :=
  s!"{padded 2 hour}:{padded 2 minute}:{padded 2 second}{fraction}"

/-- The text is a time of day in its usual spelling. -/
def IsTime (s : String) : Prop :=
  ∃ hour minute second fraction, hour ≤ 23 ∧ minute ≤ 59 ∧ second ≤ 60 ∧ IsFraction fraction ∧
    s = timeText hour minute second fraction

theorem toList_timeText (hour minute second : Nat) (fraction : String) (rest : List Char) :
    (timeText hour minute second fraction).toList ++ rest = (padded 2 hour).toList ++
      ':' :: ((padded 2 minute).toList ++ ':' :: ((padded 2 second).toList ++
        (fraction.toList ++ rest))) := by
  have hcolon : ":".toList = [':'] := by decide +kernel
  simp [timeText, toString, hcolon]

theorem IsTime.read {s : String} (h : IsTime s) {c : Char} {cs : List Char} (hdot : c ≠ '.')
    (hc : isDecimal c = false) : time? (s.toList ++ c :: cs) = some (s, c :: cs) := by
  rcases h with ⟨hour, minute, second, fraction, hhour, hminute, hsecond, hfraction, rfl⟩
  have hpart : ∀ n ≤ 60, ∀ rest, digits? 2 ((padded 2 n).toList ++ rest) = some (n, rest) :=
    fun n hn => digits?_padded (by decide) (by omega)
  rw [toList_timeText, time?]
  simp only [hpart hour (by omega), hpart minute (by omega), hpart second hsecond,
    hfraction.read hdot hc, Option.bind_eq_bind, Option.bind_some]
  rw [if_pos ⟨hhour, hminute, hsecond⟩]
  rfl

theorem isTime_of_time? {cs rest : List Char} {s : String} (h : time? cs = some (s, rest)) :
    IsTime s := by
  rw [time?] at h
  rcases Option.bind_eq_some_iff.1 h with ⟨⟨hour, cs⟩, -, h⟩
  dsimp only at h
  split at h
  · rcases Option.bind_eq_some_iff.1 h with ⟨⟨minute, cs⟩, -, h⟩
    dsimp only at h
    split at h
    · rcases Option.bind_eq_some_iff.1 h with ⟨⟨second, cs⟩, -, h⟩
      rcases Option.bind_eq_some_iff.1 h with ⟨⟨fraction, cs⟩, hfraction, h⟩
      dsimp only at h
      split at h
      · next hvalid =>
        have hs := congrArg Prod.fst (Option.some.inj h)
        exact ⟨hour, minute, second, fraction, hvalid.1, hvalid.2.1, hvalid.2.2,
          isFraction_of_secondFraction? hfraction, hs.symm⟩
      · cases h
    · cases h
  · cases h

/-! ## Distances from universal time -/

/-- A distance in its usual spelling. -/
def offsetText (mark : Char) (hour minute : Nat) : String :=
  s!"{mark}{padded 2 hour}:{padded 2 minute}"

/-- The text is the distance of a time from universal time in its usual spelling. -/
def IsOffset (s : String) : Prop :=
  s = "" ∨ s = "Z" ∨ ∃ mark hour minute, hour ≤ 23 ∧ minute ≤ 59 ∧
    (mark = '+' ∨ mark = '-' ∧ hour + minute ≠ 0) ∧ s = offsetText mark hour minute

theorem toList_offsetText (mark : Char) (hour minute : Nat) (rest : List Char) :
    (offsetText mark hour minute).toList ++ rest =
      mark :: ((padded 2 hour).toList ++ ':' :: ((padded 2 minute).toList ++ rest)) := by
  have hcolon : ":".toList = [':'] := by decide +kernel
  simp [offsetText, toString, hcolon]

theorem IsOffset.read {s : String} (h : IsOffset s) {rest : List Char} (hrest : Ends rest) :
    offset? (s.toList ++ rest) = some (s, rest) := by
  rcases hrest.exists_cons with ⟨c, cs, rfl, -⟩
  rcases h with rfl | rfl | ⟨mark, hour, minute, hhour, hminute, hmark, rfl⟩
  · rw [String.toList_empty, List.nil_append, offset?]
    simp [hrest.ne (d := 'Z') (by decide), hrest.ne (d := 'z') (by decide),
      hrest.ne (d := '+') (by decide), hrest.ne (d := '-') (by decide)]
  · rfl
  · have hpart : ∀ n ≤ 59, ∀ rest, digits? 2 ((padded 2 n).toList ++ rest) = some (n, rest) :=
      fun n hn => digits?_padded (by decide) (by omega)
    have hletter : (mark == 'Z' || mark == 'z') = false ∧ (mark == '+' || mark == '-') = true := by
      rcases hmark with rfl | ⟨rfl, -⟩ <;> decide
    have hsame :
        (if (mark == '-' && hour + minute != 0) = true then "-" else "+") = toString mark := by
      rcases hmark with rfl | ⟨rfl, hsome⟩
      · rfl
      · rw [if_pos (by simpa using hsome)]
        rfl
    rw [toList_offsetText, offset?, hletter.1, hletter.2]
    simp only [hpart hour (by omega), hpart minute hminute, hsame, Option.bind_eq_bind,
      Option.bind_some, Bool.false_eq_true, if_false, if_true]
    rw [if_pos ⟨hhour, hminute⟩]
    rfl

theorem isOffset_of_offset? {cs rest : List Char} {s : String} (h : offset? cs = some (s, rest)) :
    IsOffset s := by
  cases cs with
  | nil =>
    cases h
    exact .inl rfl
  | cons c cs =>
    rw [offset?] at h
    split at h
    · cases h
      exact .inr (.inl rfl)
    · split at h
      · rcases Option.bind_eq_some_iff.1 h with ⟨⟨hour, cs⟩, -, h⟩
        dsimp only at h
        split at h
        · rcases Option.bind_eq_some_iff.1 h with ⟨⟨minute, cs⟩, -, h⟩
          dsimp only at h
          split at h
          · next hvalid =>
            have hs := congrArg Prod.fst (Option.some.inj h)
            refine .inr (.inr ⟨if c == '-' && hour + minute != 0 then '-' else '+', hour, minute,
              hvalid.1, hvalid.2, ?_, ?_⟩)
            · split
              · next hminus =>
                simp only [Bool.and_eq_true, bne_iff_ne] at hminus
                exact .inr ⟨rfl, hminus.2⟩
              · exact .inl rfl
            · refine hs.symm.trans ?_
              rw [offsetText]
              split <;> rfl
          · cases h
        · cases h
      · cases h
        exact .inl rfl

/-! ## Dates and times -/

/-- The text is a date, a time, or both, in its usual spelling. -/
inductive Canonical : String → Prop
  | date {date : String} (h : IsDate date) : Canonical date
  | time {time : String} (h : IsTime time) : Canonical time
  | both {date time offset : String} (hdate : IsDate date) (htime : IsTime time)
    (hoffset : IsOffset offset) : Canonical s!"{date}T{time}{offset}"

theorem canonical_of_datetime? {cs rest : List Char} {v : Toml} (h : datetime? cs = some (v, rest)) :
    ∃ s, v = .datetime s ∧ Canonical s := by
  rw [datetime?] at h
  split at h
  · rcases Option.bind_eq_some_iff.1 h with ⟨⟨date, cs⟩, hread, h⟩
    have hdate := isDate_of_date? hread
    dsimp only at h
    split at h
    · split at h
      · rcases Option.bind_eq_some_iff.1 h with ⟨⟨time, cs⟩, htime, h⟩
        rcases Option.bind_eq_some_iff.1 h with ⟨⟨offset, cs⟩, hoffset, h⟩
        have hv := congrArg Prod.fst (Option.some.inj h)
        exact ⟨_, hv.symm, .both hdate (isTime_of_time? htime) (isOffset_of_offset? hoffset)⟩
      · cases h
        exact ⟨date, rfl, .date hdate⟩
    · cases h
      exact ⟨date, rfl, .date hdate⟩
  · rcases Option.bind_eq_some_iff.1 h with ⟨⟨time, cs⟩, htime, h⟩
    cases h
    exact ⟨time, rfl, .time (isTime_of_time? htime)⟩

theorem IsDate.looksLikeDate {s : String} (h : IsDate s) (rest : List Char) :
    looksLikeDate (s.toList ++ rest) = true := by
  rcases h with ⟨year, month, day, hyear, -, -, -, -, rfl⟩
  have hdigits := digits?_padded (by decide : 0 < 4) hyear
    ('-' :: ((padded 2 month).toList ++ '-' :: ((padded 2 day).toList ++ rest)))
  rcases digits?_eq_some_iff.1 hdigits with ⟨ds, htext, hlength, -, -⟩
  rw [toList_dateText, Toml.looksLikeDate, hdigits, htext,
    List.getElem?_append_right (by omega), hlength]
  rfl

theorem IsTime.digits? {s : String} (h : IsTime s) (rest : List Char) :
    ∃ hour more, hour ≤ 23 ∧ Toml.digits? 2 (s.toList ++ rest) = some (hour, ':' :: more) := by
  rcases h with ⟨hour, minute, second, fraction, hhour, -, -, -, rfl⟩
  rw [toList_timeText]
  exact ⟨hour, _, hhour, digits?_padded (by decide) (by omega) _⟩

theorem IsTime.looksLikeTime {s : String} (h : IsTime s) (rest : List Char) :
    looksLikeTime (s.toList ++ rest) = true := by
  rcases h.digits? rest with ⟨hour, more, hhour, hdigits⟩
  rw [Toml.looksLikeTime, hdigits]
  exact decide_eq_true hhour

theorem IsTime.not_looksLikeDate {s : String} (h : IsTime s) (rest : List Char) :
    looksLikeDate (s.toList ++ rest) = false := by
  rcases h.digits? rest with ⟨hour, more, -, hhour⟩
  rcases digits?_eq_some_iff.1 hhour with ⟨ds, htext, hlength, -, -⟩
  rw [Toml.looksLikeDate, Bool.and_eq_false_imp]
  intro hsome
  rcases Option.isSome_iff_exists.1 hsome with ⟨⟨year, after⟩, hyear⟩
  rcases digits?_eq_some_iff.1 hyear with ⟨es, htext', hlength', hes, -⟩
  -- The third character of a time is a colon, and that of a date is a digit.
  have hthird : (ds ++ ':' :: more)[2]? = (es ++ after)[2]? := by rw [← htext, ← htext']
  rw [List.getElem?_append_right (by omega), hlength, List.getElem?_append_left (by omega),
    List.getElem?_eq_getElem (by omega : 2 < es.length)] at hthird
  have hdecimal := hes _ (List.getElem_mem (by omega : 2 < es.length))
  rw [← Option.some.inj hthird] at hdecimal
  exact absurd hdecimal (by decide)

theorem digits?_eq_none {count : Nat} (hcount : 0 < count) {c : Char} (hc : isDecimal c = false)
    (cs : List Char) : Toml.digits? count (c :: cs) = none := by
  rw [Option.eq_none_iff_forall_not_mem]
  rintro ⟨n, rest⟩ hdigits
  rcases digits?_eq_some_iff.1 hdigits with ⟨ds, htext, hlength, hds, -⟩
  cases ds with
  | nil =>
    subst hlength
    cases hcount
  | cons d ds =>
    have hd := hds d List.mem_cons_self
    rw [← (List.cons.inj htext).1, hc] at hd
    cases hd

/-- A date is not taken for the beginning of a date with a time. -/
theorem Ends.not_looksLikeTime {c : Char} {cs : List Char} (h : Ends (c :: cs)) :
    ((c == 'T' || c == 't' || c == ' ') && looksLikeTime cs) = false := by
  cases h with
  | newline => rfl
  | comma => rfl
  | bracket => rfl
  | brace cs =>
    rw [looksLikeTime, digits?_eq_none (by decide) (by decide)]
    rfl

theorem IsOffset.exists_cons {s : String} (h : IsOffset s) {rest : List Char} (hrest : Ends rest) :
    ∃ c cs, s.toList ++ rest = c :: cs ∧ c ≠ '.' ∧ isDecimal c = false := by
  rcases h with rfl | rfl | ⟨mark, hour, minute, -, -, hmark, rfl⟩
  · rcases hrest.exists_cons with ⟨c, cs, rfl, -⟩
    exact ⟨c, cs, rfl, hrest.ne (by decide), hrest.not_isDecimal⟩
  · exact ⟨'Z', rest, rfl, by decide, by decide⟩
  · rw [toList_offsetText]
    refine ⟨mark, _, rfl, ?_⟩
    rcases hmark with rfl | ⟨rfl, -⟩ <;> decide

/-- A date or a time in its usual spelling is read back. -/
theorem Canonical.read {s : String} (h : Canonical s) {rest : List Char} (hrest : Ends rest) :
    numeric? (s.toList ++ rest) = some (.datetime s, rest) := by
  rcases hrest.exists_cons with ⟨c, cs, rfl, -⟩
  cases h with
  | date h =>
    unfold numeric?
    rw [h.looksLikeDate, Bool.true_or, if_pos rfl, datetime?, if_pos (h.looksLikeDate _), h.read]
    simp only [Option.bind_eq_bind, Option.bind_some, hrest.not_looksLikeTime]
    rfl
  | time h =>
    unfold numeric?
    rw [h.looksLikeTime, Bool.or_true, if_pos rfl, datetime?, if_neg (by simp [h.not_looksLikeDate]),
      h.read (hrest.ne (by decide)) hrest.not_isDecimal]
    rfl
  | @both date time offset hdate htime hoffset =>
    rcases hoffset.exists_cons hrest with ⟨d, ds, hbehind, hdot, hd⟩
    have htext : (s!"{date}T{time}{offset}").toList ++ c :: cs =
        date.toList ++ 'T' :: (time.toList ++ d :: ds) := by
      have hletter : "T".toList = ['T'] := by decide +kernel
      rw [← hbehind]
      simp [toString, hletter]
    have hoffsets := hoffset.read hrest
    rw [hbehind] at hoffsets
    rw [htext]
    unfold numeric?
    rw [hdate.looksLikeDate, Bool.true_or, if_pos rfl, datetime?, if_pos (hdate.looksLikeDate _),
      hdate.read]
    simp only [Option.bind_eq_bind, Option.bind_some, htime.looksLikeTime, htime.read hdot hd,
      hoffsets]
    rfl

end LintMend.Toml
