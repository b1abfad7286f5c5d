import LintMend.Json.Reader
import LintMend.Json.Writer
import Mathlib.Data.Nat.Digits.Defs

/-!
# Reading what was written

A value that is written on one line is read back as it was, whatever follows it, as long as a number
cannot go on there. Strings come back character by character, numbers digit by digit, and arrays and
objects item by item. The reader spends fuel on each item and on each array or object around it; both
stand for a character of the text, so the fuel of a text of its length is enough.
-/

namespace LintMend.Json

open Text (hexDigit?)

/-! ## Strings -/

theorem hexDigit?_hexChar : ∀ n < 16, hexDigit? (hexChar n) = some n := by decide

theorem fourHex?_escape {n : Nat} (h : n < 0x20) (cs : List Char) :
    fourHex? ('0' :: '0' :: hexChar (n / 16) :: hexChar (n % 16) :: cs) = some (n, cs) := by
  have hzero : hexDigit? '0' = some 0 := by decide
  have hhigh : hexDigit? (hexChar (n / 16)) = some (n / 16) := hexDigit?_hexChar _ (by omega)
  have hlow : hexDigit? (hexChar (n % 16)) = some (n % 16) := hexDigit?_hexChar _ (by omega)
  have hsum : n / 16 * 16 + n % 16 = n := by omega
  simp [fourHex?, hzero, hhigh, hlow, hsum]

/-- Each character of a string is read back. -/
theorem readStringFrom_escapeChar (fuel : Nat) (done : List Char) (c : Char) (cs : List Char) :
    readStringFrom (fuel + 1) done true (escapeChar c ++ cs) =
      readStringFrom fuel (c :: done) true cs := by
  unfold escapeChar
  split
  case h_8 hquote hbackslash _ _ _ _ _ =>
    split
    · next hcontrol =>
      have hlow : isLowSurrogate c.toNat = false := by
        simp only [isLowSurrogate, Bool.and_eq_false_imp, decide_eq_true_eq]
        omega
      have hhigh : isHighSurrogate c.toNat = false := by
        simp only [isHighSurrogate, Bool.and_eq_false_imp, decide_eq_true_eq]
        omega
      simp [readStringFrom, fourHex?_escape hcontrol, hlow, hhigh]
    · next hprinted =>
      have hnotQuote : (c == '"') = false := by simpa using hquote
      have hnotBackslash : (c == '\\') = false := by simpa using hbackslash
      simp [readStringFrom.eq_def (fuel + 1), hnotQuote, hnotBackslash, hprinted]
  all_goals rfl

theorem readStringFrom_flatMap (fuel : Nat) (done text rest : List Char) (h : text.length < fuel) :
    readStringFrom fuel done true (text.flatMap escapeChar ++ '"' :: rest) =
      some (some (String.ofList (done.reverse ++ text)), rest) := by
  induction text generalizing fuel done with
  | nil =>
    cases fuel with
    | zero => simp at h
    | succ fuel => simp [readStringFrom]
  | cons c text ih =>
    cases fuel with
    | zero => simp at h
    | succ fuel =>
      rw [List.flatMap_cons, List.append_assoc, readStringFrom_escapeChar,
        ih fuel (c :: done) (by simpa using h)]
      simp

theorem length_le_length_flatMap_escapeChar (text : List Char) :
    text.length ≤ (text.flatMap escapeChar).length := by
  induction text with
  | nil => exact Nat.le_refl 0
  | cons c text ih =>
    have hone : 1 ≤ (escapeChar c).length := by
      unfold escapeChar
      split <;> try split
      all_goals simp
    rw [List.flatMap_cons, List.length_append, List.length_cons]
    omega

theorem toList_quote (s : String) :
    (quote s).toList = '"' :: (s.toList.flatMap escapeChar ++ ['"']) := by
  simp [quote]

theorem readString_escaped (s : String) (rest : List Char) :
    readString (s.toList.flatMap escapeChar ++ '"' :: rest) = some (some s, rest) := by
  have hlength := length_le_length_flatMap_escapeChar s.toList
  unfold readString
  rw [readStringFrom_flatMap]
  · simp
  · rw [List.length_append, List.length_cons]
    omega

/-! ## Numbers -/

/-- No number goes on with the text. -/
def StopsNumber (rest : List Char) : Prop :=
  ∀ c ∈ rest.head?, isDigit c = false ∧ c ≠ '.' ∧ c ≠ 'e' ∧ c ≠ 'E'

theorem stopsNumber_nil : StopsNumber [] := by simp [StopsNumber]

theorem stopsNumber_cons {c : Char} {rest : List Char}
    (h : c = ',' ∨ c = ']' ∨ c = '\x7d') : StopsNumber (c :: rest) := by
  rcases h with rfl | rfl | rfl <;> simp [StopsNumber] <;> decide

theorem takeWhile_isDigit {ds rest : List Char} (hds : ∀ d ∈ ds, isDigit d = true)
    (hrest : StopsNumber rest) : (ds ++ rest).takeWhile isDigit = ds := by
  rw [List.takeWhile_append_of_pos hds]
  cases rest with
  | nil => simp
  | cons c rest => simp [(hrest c rfl).1]

theorem dropWhile_isDigit {ds rest : List Char} (hds : ∀ d ∈ ds, isDigit d = true)
    (hrest : StopsNumber rest) : (ds ++ rest).dropWhile isDigit = rest := by
  rw [List.dropWhile_append_of_pos hds]
  cases rest with
  | nil => simp
  | cons c rest => simp [(hrest c rfl).1]

theorem fraction?_of_stopsNumber {rest : List Char} (h : StopsNumber rest) :
    fraction? rest = some ([], rest) := by
  unfold fraction?
  split
  · next cs => exact absurd rfl (h '.' rfl).2.1
  · rfl

theorem exponent?_of_stopsNumber {rest : List Char} (h : StopsNumber rest) :
    exponent? rest = some ([], rest) := by
  cases rest with
  | nil => rfl
  | cons c rest =>
    have hmark : (c == 'e' || c == 'E') = false := by simp [(h c rfl).2.2]
    simp [exponent?.eq_def, hmark]

/-- The decimal digits of a number. -/
def decimals (n : Nat) : List Char := Nat.toDigits 10 n

theorem isDigit_of_mem_decimals {n : Nat} {d : Char} (h : d ∈ decimals n) : isDigit d = true :=
  Nat.isDigit_of_mem_toDigits (by decide) (by decide) h

theorem natOfDigits_decimals (n : Nat) : natOfDigits (decimals n) = n := by
  have hfold : natOfDigits (decimals n) = Nat.ofDigitChars 10 (Nat.toDigits 10 n) 0 := by
    rw [Nat.ofDigitChars_eq_foldl]
    simp only [natOfDigits, decimals, Nat.mul_comm]
  rw [hfold, Nat.ofDigitChars_ten_toDigits]

/-- A number begins with a digit, and one other than zero does not begin with a zero. -/
theorem exists_decimals_cons (n : Nat) :
    ∃ d ds, decimals n = d :: ds ∧ isDigit d = true ∧ (d = '0' → n = 0 ∧ ds = []) := by
  suffices h : ∃ d ds, decimals n = d :: ds ∧ (d = '0' → n = 0 ∧ ds = []) by
    rcases h with ⟨d, ds, hdigits, hfirst⟩
    exact ⟨d, ds, hdigits, isDigit_of_mem_decimals (hdigits ▸ List.mem_cons_self), hfirst⟩
  induction n using Nat.strongRecOn with
  | ind n ih =>
    rw [decimals, Nat.toDigits_eq_if (by decide)]
    split
    · next hlt =>
      have hzero : ∀ m < 10, Nat.digitChar m = '0' → m = 0 := by decide
      exact ⟨n.digitChar, [], rfl, fun h => ⟨hzero n hlt h, rfl⟩⟩
    · next hge =>
      rcases ih (n / 10) (by omega) with ⟨d, ds, hdigits, hfirst⟩
      rw [decimals] at hdigits
      rw [hdigits]
      refine ⟨d, ds ++ [(n % 10).digitChar], rfl, fun h => ?_⟩
      have := (hfirst h).1
      omega

/-- The digits of a number are taken as a whole. -/
theorem whole?_decimals (n : Nat) {rest : List Char} (hrest : StopsNumber rest) :
    whole? (decimals n ++ rest) = some (decimals n, rest) := by
  rcases exists_decimals_cons n with ⟨d, ds, hdigits, -, hfirst⟩
  by_cases hzero : d = '0'
  · rcases hfirst hzero with ⟨-, rfl⟩
    rw [hdigits, hzero]
    rfl
  · have hall : ∀ c ∈ decimals n, isDigit c = true := fun c hc => isDigit_of_mem_decimals hc
    have htake := takeWhile_isDigit hall hrest
    have hdrop := dropWhile_isDigit hall hrest
    rw [hdigits, List.cons_append] at htake hdrop ⊢
    unfold whole?
    split
    · next heq => exact absurd (List.cons.inj heq).1 hzero
    · rw [digits?, htake, hdrop]

theorem splitSign_decimals (n : Nat) (rest : List Char) :
    splitSign (decimals n ++ rest) = (false, decimals n ++ rest) := by
  rcases exists_decimals_cons n with ⟨d, ds, hdigits, hd, -⟩
  rw [hdigits, List.cons_append]
  unfold splitSign
  split
  · next heq =>
    rw [(List.cons.inj heq).1] at hd
    exact absurd hd (by decide)
  · rfl

theorem readNumber_natural (n : Nat) {rest : List Char} (hrest : StopsNumber rest) :
    readNumber (decimals n ++ rest) = some (.integer n, rest) := by
  simp [readNumber, splitSign_decimals, whole?_decimals n hrest, fraction?_of_stopsNumber hrest,
    exponent?_of_stopsNumber hrest, natOfDigits_decimals]

theorem readNumber_negative (n : Nat) {rest : List Char} (hrest : StopsNumber rest) :
    readNumber ('-' :: (decimals (n + 1) ++ rest)) = some (.integer (Int.negSucc n), rest) := by
  simp [readNumber, splitSign, whole?_decimals (n + 1) hrest, fraction?_of_stopsNumber hrest,
    exponent?_of_stopsNumber hrest, natOfDigits_decimals, Int.negSucc_eq]

/-! ## Values -/

mutual

/-- The value has no part that only some text can have: its numbers are integers, and nothing in it
is broken. -/
def isPlain : Json → Bool
  | .decimal _ | .broken => false
  | .array items => arePlain items
  | .object fields => havePlain fields
  | _ => true

def arePlain : List Json → Bool
  | [] => true
  | item :: items => item.isPlain && arePlain items

def havePlain : List (String × Json) → Bool
  | [] => true
  | (_, value) :: fields => value.isPlain && havePlain fields

end

/-- The items of an array between the brackets. -/
def itemsText (items : List Json) : List Char := (",".intercalate (compactItems items)).toList

/-- The fields of an object between the braces. -/
def fieldsText (fields : List (String × Json)) : List Char :=
  (",".intercalate (compactFields fields)).toList

theorem toList_compact_integer (n : Int) :
    (compact (.integer n)).toList =
      match n with
      | .ofNat m => decimals m
      | .negSucc m => '-' :: decimals (m + 1) := by
  cases n with
  | ofNat m => simp [compact, decimals, ToString.toString, Int.repr]
  | negSucc m => simp [compact, decimals, ToString.toString, Int.repr]

theorem toList_compact_array (items : List Json) :
    (compact (.array items)).toList = '[' :: (itemsText items ++ [']']) := by
  simp [compact, itemsText]

theorem toList_compact_object (fields : List (String × Json)) :
    (compact (.object fields)).toList = '\x7b' :: (fieldsText fields ++ ['\x7d']) := by
  simp [compact, fieldsText]

theorem itemsText_singleton (item : Json) : itemsText [item] = item.compact.toList := by
  simp [itemsText, compactItems]

theorem itemsText_cons_cons (item next : Json) (items : List Json) :
    itemsText (item :: next :: items) = item.compact.toList ++ ',' :: itemsText (next :: items) := by
  simp [itemsText, compactItems, String.intercalate_cons_cons]

theorem fieldsText_singleton (key : String) (value : Json) :
    fieldsText [(key, value)] = (quote key).toList ++ ':' :: value.compact.toList := by
  simp [fieldsText, compactFields]

theorem fieldsText_cons_cons (key : String) (value : Json) (next : String × Json)
    (fields : List (String × Json)) :
    fieldsText ((key, value) :: next :: fields) =
      (quote key).toList ++ ':' :: (value.compact.toList ++ ',' :: fieldsText (next :: fields)) := by
  rcases next with ⟨name, j⟩
  simp [fieldsText, compactFields, String.intercalate_cons_cons]

theorem skipSpace_cons {c : Char} (h : isSpace c = false) (cs : List Char) :
    skipSpace (c :: cs) = c :: cs := by
  simp [skipSpace, h]

theorem isSpace_of_isDigit {c : Char} (h : isDigit c = true) : isSpace c = false := by
  by_contra hspace
  simp only [isSpace, Bool.or_eq_true, beq_iff_eq, Bool.not_eq_false] at hspace
  rcases hspace with ((rfl | rfl) | rfl) | rfl <;> exact absurd h (by decide)

/-- The text of a value begins with no space and no closing bracket. -/
theorem exists_compact_cons {j : Json} (h : j.isPlain = true) :
    ∃ c cs, j.compact.toList = c :: cs ∧ isSpace c = false ∧ c ≠ ']' := by
  cases j with
  | null => exact ⟨'n', ['u', 'l', 'l'], rfl, by decide, by decide⟩
  | bool b =>
    cases b with
    | false => exact ⟨'f', ['a', 'l', 's', 'e'], rfl, by decide, by decide⟩
    | true => exact ⟨'t', ['r', 'u', 'e'], rfl, by decide, by decide⟩
  | integer n =>
    rw [toList_compact_integer]
    cases n with
    | ofNat m =>
      rcases exists_decimals_cons m with ⟨d, ds, hdigits, hd, -⟩
      refine ⟨d, ds, hdigits, isSpace_of_isDigit hd, ?_⟩
      rintro rfl
      exact absurd hd (by decide)
    | negSucc m => exact ⟨'-', _, rfl, by decide, by decide⟩
  | decimal spelling => simp [isPlain] at h
  | string s =>
    rw [compact, toList_quote]
    exact ⟨'"', _, rfl, by decide, by decide⟩
  | array items =>
    rw [toList_compact_array]
    exact ⟨'[', _, rfl, by decide, by decide⟩
  | object fields =>
    rw [toList_compact_object]
    exact ⟨'\x7b', _, rfl, by decide, by decide⟩
  | broken => simp [isPlain] at h

theorem exists_itemsText_cons {item : Json} (h : item.isPlain = true) (items : List Json) :
    ∃ c cs, itemsText (item :: items) = c :: cs ∧ isSpace c = false ∧ c ≠ ']' := by
  rcases exists_compact_cons h with ⟨c, cs, hcompact, hc⟩
  cases items with
  | nil => exact ⟨c, cs, by rw [itemsText_singleton, hcompact], hc⟩
  | cons next items => exact ⟨c, _, by rw [itemsText_cons_cons, hcompact, List.cons_append], hc⟩

theorem exists_fieldsText_cons (field : String × Json) (fields : List (String × Json)) :
    ∃ cs, fieldsText (field :: fields) = '"' :: cs := by
  rcases field with ⟨key, value⟩
  cases fields with
  | nil => exact ⟨_, by rw [fieldsText_singleton, toList_quote, List.cons_append]⟩
  | cons next fields => exact ⟨_, by rw [fieldsText_cons_cons, toList_quote, List.cons_append]⟩

theorem readValue_of_number {fuel : Nat} {c : Char} {cs : List Char}
    (h : isDigit c = true ∨ c = '-') : readValue (fuel + 1) (c :: cs) = readNumber (c :: cs) := by
  have hspace : isSpace c = false := by
    rcases h with h | rfl
    · exact isSpace_of_isDigit h
    · decide
  rw [readValue, skipSpace_cons hspace]
  split <;> next heq =>
    first
    | rfl
    | rw [(List.cons.inj heq).1] at h
      exact absurd h (by decide)

theorem readValue_integer (n : Int) (fuel : Nat) {rest : List Char} (hrest : StopsNumber rest) :
    readValue (fuel + 1) ((compact (.integer n)).toList ++ rest) = some (.integer n, rest) := by
  rw [toList_compact_integer]
  cases n with
  | ofNat m =>
    rcases exists_decimals_cons m with ⟨d, ds, hdigits, hd, -⟩
    have hread := readNumber_natural m hrest
    dsimp only
    rw [hdigits, List.cons_append] at hread ⊢
    rw [readValue_of_number (.inl hd), hread]
    rfl
  | negSucc m =>
    dsimp only
    rw [List.cons_append, readValue_of_number (.inr rfl), readNumber_negative m hrest]

theorem readValue_string (s : String) (fuel : Nat) (rest : List Char) :
    readValue (fuel + 1) ((compact (.string s)).toList ++ rest) = some (.string s, rest) := by
  have hread := readString_escaped s rest
  rw [compact, toList_quote, readValue, List.cons_append, skipSpace_cons (by decide),
    List.append_assoc, List.singleton_append]
  simp [hread]

theorem readValue_array_cons {fuel : Nat} {c : Char} (cs : List Char) (hspace : isSpace c = false)
    (hc : c ≠ ']') : readValue (fuel + 1) ('[' :: c :: cs) = readItems fuel [] (c :: cs) := by
  have hnext := skipSpace_cons hspace cs
  rw [readValue, skipSpace_cons (by decide)]
  simp [hnext, hc]

theorem readValue_object_cons (fuel : Nat) (cs : List Char) :
    readValue (fuel + 1) ('\x7b' :: '"' :: cs) = readFields fuel [] ('"' :: cs) := by
  rw [readValue, skipSpace_cons (by decide)]
  rfl

section Steps

variable {fuel : Nat} {cs rest : List Char} {j : Json}

/-- The last item of an array. -/
theorem readItems_last (done : List Json) (h : readValue fuel cs = some (j, ']' :: rest)) :
    readItems (fuel + 1) done cs = some (.array (j :: done).reverse, rest) := by
  rw [readItems, h]
  rfl

/-- An item with others after it. -/
theorem readItems_more (done : List Json) (h : readValue fuel cs = some (j, ',' :: rest)) :
    readItems (fuel + 1) done cs = readItems fuel (j :: done) rest := by
  rw [readItems, h]
  rfl

theorem readFields_last (done : List (Option String × Json)) (key : String)
    (h : readValue fuel cs = some (j, '\x7d' :: rest)) :
    readFields (fuel + 1) done ((quote key).toList ++ ':' :: cs) =
      some (objectOf ((some key, j) :: done), rest) := by
  have hkey := readString_escaped key (':' :: cs)
  rw [toList_quote, readFields, List.cons_append, skipSpace_cons (by decide), List.append_assoc,
    List.singleton_append]
  simp [hkey, h, skipSpace, isSpace]

theorem readFields_more (done : List (Option String × Json)) (key : String)
    (h : readValue fuel cs = some (j, ',' :: rest)) :
    readFields (fuel + 1) done ((quote key).toList ++ ':' :: cs) =
      readFields fuel ((some key, j) :: done) rest := by
  have hkey := readString_escaped key (':' :: cs)
  rw [toList_quote, readFields, List.cons_append, skipSpace_cons (by decide), List.append_assoc,
    List.singleton_append]
  simp [hkey, h, skipSpace, isSpace]

end Steps

/-- Fields as they are gathered, last first, before the object is made. -/
def gatheredFields (fields : List (String × Json)) : List (Option String × Json) :=
  (fields.map fun field => (some field.1, field.2)).reverse

theorem gatheredFields_concat (fields : List (String × Json)) (key : String) (value : Json) :
    (some key, value) :: gatheredFields fields = gatheredFields (fields ++ [(key, value)]) := by
  simp [gatheredFields]

theorem objectOf_gatheredFields (fields : List (String × Json)) :
    objectOf (gatheredFields fields) = .object fields := by
  have hkeys : (fields.map fun field => (some field.1, field.2)).mapM
      (fun entry => entry.1.map fun key => (key, entry.2)) = some fields := by
    induction fields with
    | nil => rfl
    | cons field fields ih => simp [List.mapM_cons, ih]
  simp only [objectOf, gatheredFields, List.reverse_reverse, hkeys]

/-! ## Reading with fuel

Each reader hands on one unit of fuel less than it has, so the three of them are proved to read back
by one induction on the fuel. -/

/-- Plain values are read back with the fuel, if their text is short enough. -/
def ReadsValues (fuel : Nat) : Prop :=
  ∀ (j : Json) (rest : List Char), j.isPlain = true → 2 * j.compact.toList.length ≤ fuel →
    StopsNumber rest → readValue fuel (j.compact.toList ++ rest) = some (j, rest)

def ReadsItems (fuel : Nat) : Prop :=
  ∀ (done items : List Json) (rest : List Char), items ≠ [] → arePlain items = true →
    2 * (itemsText items).length + 1 ≤ fuel →
    readItems fuel done (itemsText items ++ ']' :: rest) = some (.array (done.reverse ++ items), rest)

def ReadsFields (fuel : Nat) : Prop :=
  ∀ (done fields : List (String × Json)) (rest : List Char), fields ≠ [] →
    havePlain fields = true → 2 * (fieldsText fields).length + 1 ≤ fuel →
    readFields fuel (gatheredFields done) (fieldsText fields ++ '\x7d' :: rest) =
      some (.object (done ++ fields), rest)

section Fuel

variable {fuel : Nat}

theorem ReadsItems.readValue_array (h : ReadsItems fuel) {items : List Json} (rest : List Char)
    (hplain : arePlain items = true) (hfuel : 2 * (itemsText items).length + 1 ≤ fuel) :
    readValue (fuel + 1) ((compact (.array items)).toList ++ rest) = some (.array items, rest) := by
  cases items with
  | nil => rfl
  | cons item items =>
    have hitems := h [] (item :: items) rest (List.cons_ne_nil _ _) hplain hfuel
    rw [arePlain, Bool.and_eq_true] at hplain
    rcases exists_itemsText_cons hplain.1 items with ⟨c, cs, htext, hspace, hc⟩
    rw [toList_compact_array, List.cons_append, List.append_assoc, List.singleton_append]
    rw [htext, List.cons_append] at hitems ⊢
    rw [readValue_array_cons _ hspace hc, hitems]
    rfl

theorem ReadsFields.readValue_object (h : ReadsFields fuel) {fields : List (String × Json)}
    (rest : List Char) (hplain : havePlain fields = true)
    (hfuel : 2 * (fieldsText fields).length + 1 ≤ fuel) :
    readValue (fuel + 1) ((compact (.object fields)).toList ++ rest) =
      some (.object fields, rest) := by
  cases fields with
  | nil => rfl
  | cons field fields =>
    have hfields := h [] (field :: fields) rest (List.cons_ne_nil _ _) hplain hfuel
    rcases exists_fieldsText_cons field fields with ⟨cs, htext⟩
    rw [toList_compact_object, List.cons_append, List.append_assoc, List.singleton_append]
    rw [htext, List.cons_append] at hfields ⊢
    rw [readValue_object_cons]
    exact hfields

theorem readsValues_succ (hitems : ReadsItems fuel) (hfields : ReadsFields fuel) :
    ReadsValues (fuel + 1) := by
  intro j rest hplain hfuel hrest
  cases j with
  | null => rfl
  | bool b => cases b <;> rfl
  | integer n => exact readValue_integer n fuel hrest
  | decimal spelling => simp [isPlain] at hplain
  | string s => exact readValue_string s fuel rest
  | array items =>
    rw [isPlain] at hplain
    rw [toList_compact_array, List.length_cons, List.length_append, List.length_singleton] at hfuel
    exact hitems.readValue_array rest hplain (by omega)
  | object fields =>
    rw [isPlain] at hplain
    rw [toList_compact_object, List.length_cons, List.length_append, List.length_singleton] at hfuel
    exact hfields.readValue_object rest hplain (by omega)
  | broken => simp [isPlain] at hplain

theorem readsItems_succ (hvalues : ReadsValues fuel) (hitems : ReadsItems fuel) :
    ReadsItems (fuel + 1) := by
  intro done items rest hne hplain hfuel
  rcases List.exists_cons_of_ne_nil hne with ⟨item, later, rfl⟩
  rw [arePlain, Bool.and_eq_true] at hplain
  cases later with
  | nil =>
    rw [itemsText_singleton] at hfuel ⊢
    have hitem := hvalues item (']' :: rest) hplain.1 (by omega) (stopsNumber_cons (.inr (.inl rfl)))
    rw [readItems_last done hitem, List.reverse_cons]
  | cons next later =>
    rw [itemsText_cons_cons, List.length_append, List.length_cons] at hfuel
    rw [itemsText_cons_cons, List.append_assoc, List.cons_append]
    have hitem := hvalues item (',' :: (itemsText (next :: later) ++ ']' :: rest)) hplain.1
      (by omega) (stopsNumber_cons (.inl rfl))
    rw [readItems_more done hitem,
      hitems (item :: done) (next :: later) rest (List.cons_ne_nil _ _) hplain.2 (by omega)]
    simp

theorem readsFields_succ (hvalues : ReadsValues fuel) (hfields : ReadsFields fuel) :
    ReadsFields (fuel + 1) := by
  intro done fields rest hne hplain hfuel
  rcases List.exists_cons_of_ne_nil hne with ⟨⟨key, value⟩, later, rfl⟩
  rw [havePlain, Bool.and_eq_true] at hplain
  cases later with
  | nil =>
    rw [fieldsText_singleton, List.length_append, List.length_cons] at hfuel
    rw [fieldsText_singleton, List.append_assoc, List.cons_append]
    have hvalue := hvalues value ('\x7d' :: rest) hplain.1 (by omega)
      (stopsNumber_cons (.inr (.inr rfl)))
    rw [readFields_last _ key hvalue, gatheredFields_concat, objectOf_gatheredFields]
  | cons next later =>
    rw [fieldsText_cons_cons, List.length_append, List.length_cons, List.length_append,
      List.length_cons] at hfuel
    rw [fieldsText_cons_cons, List.append_assoc, List.cons_append, List.append_assoc,
      List.cons_append]
    have hvalue := hvalues value (',' :: (fieldsText (next :: later) ++ '\x7d' :: rest)) hplain.1
      (by omega) (stopsNumber_cons (.inl rfl))
    rw [readFields_more _ key hvalue, gatheredFields_concat,
      hfields _ (next :: later) rest (List.cons_ne_nil _ _) hplain.2 (by omega)]
    simp

end Fuel

theorem reads_all (fuel : Nat) : ReadsValues fuel ∧ ReadsItems fuel ∧ ReadsFields fuel := by
  induction fuel with
  | zero =>
    refine ⟨?_, ?_, ?_⟩
    · intro j rest hplain hfuel
      rcases exists_compact_cons hplain with ⟨c, cs, hcompact, -⟩
      simp [hcompact] at hfuel
    · intro done items rest hne hplain hfuel
      omega
    · intro done fields rest hne hplain hfuel
      omega
  | succ fuel ih =>
    rcases ih with ⟨hvalues, hitems, hfields⟩
    exact ⟨readsValues_succ hitems hfields, readsItems_succ hvalues hitems,
      readsFields_succ hvalues hfields⟩

/-- What is written on one line is read back. -/
theorem parse?_compact {j : Json} (h : j.isPlain = true) : parse? j.compact = some j := by
  have hread := (reads_all (2 * j.compact.toList.length + 2)).1 j [] h (by omega) stopsNumber_nil
  rw [List.append_nil] at hread
  unfold parse?
  simp only [hread]
  rfl

end LintMend.Json
