import LintMend.Proofs.TomlTrees

/-!
# Values beside an equals sign

A value that holds no float and does not nest too deep is read back from its text, whatever ends it.
Twice the length of the text is enough fuel: each of the three readers passes over at least one
character before it calls another two.
-/

namespace LintMend.Toml

open Json (decimals)

/-! ## What can be written -/

/-- A tree as it is read, without floats and nested at most so many levels. -/
inductive Writable : Nat → Toml → Prop
  | string (n : Nat) (s : String) : Writable n (.string s)
  | integer (n : Nat) {i : Int} (h : -signedLimit ≤ i ∧ i < signedLimit) : Writable n (.integer i)
  | boolean (n : Nat) (b : Bool) : Writable n (.boolean b)
  | datetime (n : Nat) {s : String} (h : Canonical s) : Writable n (.datetime s)
  | array {n : Nat} {items : List Toml} (h : ∀ v ∈ items, Writable n v) :
    Writable (n + 1) (.array items)
  | table {n : Nat} {entries : List (String × Toml)} (hkeys : Ascending entries)
    (h : ∀ e ∈ entries, Writable n e.2) : Writable (n + 1) (.table entries)

mutual

/-- No float stands anywhere in the tree. -/
def isFloatFree : Toml → Bool
  | .float _ => false
  | .array items => itemsFloatFree items
  | .table entries => entriesFloatFree entries
  | _ => true

def itemsFloatFree : List Toml → Bool
  | [] => true
  | v :: items => v.isFloatFree && itemsFloatFree items

def entriesFloatFree : List (String × Toml) → Bool
  | [] => true
  | (_, v) :: entries => v.isFloatFree && entriesFloatFree entries

end

mutual

/-- How many arrays and tables stand around the innermost value. -/
def height : Toml → Nat
  | .array items => itemsHeight items + 1
  | .table entries => entriesHeight entries + 1
  | _ => 0

def itemsHeight : List Toml → Nat
  | [] => 0
  | v :: items => max v.height (itemsHeight items)

def entriesHeight : List (String × Toml) → Nat
  | [] => 0
  | (_, v) :: entries => max v.height (entriesHeight entries)

end

theorem items_fit {items : List Toml} (h : itemsFloatFree items = true) {v : Toml} (hv : v ∈ items) :
    v.isFloatFree = true ∧ v.height ≤ itemsHeight items := by
  induction items with
  | nil => cases hv
  | cons w items ih =>
    rw [itemsFloatFree, Bool.and_eq_true] at h
    rw [itemsHeight]
    rcases List.mem_cons.1 hv with rfl | hv
    · exact ⟨h.1, le_max_left _ _⟩
    · exact ⟨(ih h.2 hv).1, le_max_of_le_right (ih h.2 hv).2⟩

theorem entries_fit {entries : List (String × Toml)} (h : entriesFloatFree entries = true)
    {e : String × Toml} (he : e ∈ entries) :
    e.2.isFloatFree = true ∧ e.2.height ≤ entriesHeight entries := by
  induction entries with
  | nil => cases he
  | cons e' entries ih =>
    rw [entriesFloatFree, Bool.and_eq_true] at h
    rw [entriesHeight]
    rcases List.mem_cons.1 he with rfl | he
    · exact ⟨h.1, le_max_left _ _⟩
    · exact ⟨(ih h.2 he).1, le_max_of_le_right (ih h.2 he).2⟩

theorem Proper.writable {v : Toml} (h : v.Proper) (hfree : v.isFloatFree = true) {n : Nat}
    (hheight : v.height ≤ n) : Writable n v := by
  induction h generalizing n with
  | string s => exact .string n s
  | integer h => exact .integer n h
  | float x => cases hfree
  | boolean b => exact .boolean n b
  | datetime h => exact .datetime n h
  | array _ ih =>
    rw [height] at hheight
    rw [isFloatFree] at hfree
    obtain ⟨n, rfl⟩ : ∃ m, n = m + 1 := ⟨n - 1, by omega⟩
    refine .array fun v hv => ?_
    have hfit := items_fit hfree hv
    exact ih v hv hfit.1 (by omega)
  | table hkeys _ ih =>
    rw [height] at hheight
    rw [isFloatFree] at hfree
    obtain ⟨n, rfl⟩ : ∃ m, n = m + 1 := ⟨n - 1, by omega⟩
    refine .table hkeys fun e he => ?_
    have hfit := entries_fit hfree he
    exact ih e he hfit.1 (by omega)

/-! ## First characters -/

/-- The first character of a value: it is not skipped, and it does not close an array. -/
def isValueStart (c : Char) : Bool := isSolid c && c != '#' && c != ']'

theorem solid_of_isValueStart {c : Char} (h : isValueStart c = true) :
    isSolid c = true ∧ c ≠ '#' ∧ c ≠ ']' := by
  simp only [isValueStart, Bool.and_eq_true, bne_iff_ne] at h
  exact ⟨h.1.1, h.1.2, h.2⟩

theorem isValueStart_of_isDecimal {c : Char} (h : isDecimal c = true) : isValueStart c = true := by
  have hne : ∀ d, isDecimal d = false → c ≠ d := fun d => ne_of_isDecimal h
  simp [isValueStart, isSolid, isWhite, hne ' ' (by decide), hne '\t' (by decide),
    hne '\n' (by decide), hne '\r' (by decide), hne '#' (by decide), hne ']' (by decide)]

theorem exists_quoteText (s : String) :
    ∃ c cs, (quoteText s).toList = c :: cs ∧ (c = '"' ∨ c = '\'') := by
  unfold quoteText
  dsimp only
  split
  · exact ⟨'"', _, String.toList_ofList, .inl rfl⟩
  · split
    · exact ⟨'\'', _, String.toList_ofList, .inr rfl⟩
    · split
      · exact ⟨'"', _, String.toList_ofList, .inl rfl⟩
      · split
        · exact ⟨'\'', _, String.toList_ofList, .inr rfl⟩
        · split
          · exact ⟨'"', _, String.toList_ofList, .inl rfl⟩
          · exact ⟨'"', _, String.toList_ofList, .inl rfl⟩

theorem exists_toString_int (n : Int) :
    ∃ c cs, (toString n).toList = c :: cs ∧ (c = '-' ∨ isDecimal c = true) := by
  rw [toList_toString_int]
  cases decide (n < 0) with
  | true => exact ⟨'-', _, rfl, .inl rfl⟩
  | false =>
    rcases Json.exists_decimals_cons n.natAbs with ⟨d, ds, hdigits, hd, -⟩
    exact ⟨d, ds, hdigits, .inr hd⟩

theorem exists_cons_of_digits? {count : Nat} (hcount : 0 < count) {cs : List Char}
    (h : (digits? count cs).isSome) : ∃ c rest, cs = c :: rest ∧ isDecimal c = true := by
  rcases Option.isSome_iff_exists.1 h with ⟨⟨n, rest⟩, hdigits⟩
  cases cs with
  | nil => simp [digits?, hcount.ne] at hdigits
  | cons c cs =>
    refine ⟨c, cs, rfl, ?_⟩
    by_contra hc
    rw [digits?_eq_none hcount (by simpa using hc)] at hdigits
    cases hdigits

theorem IsDate.exists_cons {s : String} (h : IsDate s) :
    ∃ c cs, s.toList = c :: cs ∧ isDecimal c = true := by
  have hlooks := h.looksLikeDate []
  rw [List.append_nil, Toml.looksLikeDate, Bool.and_eq_true] at hlooks
  exact exists_cons_of_digits? (by decide) hlooks.1

theorem Canonical.exists_cons {s : String} (h : Canonical s) :
    ∃ c cs, s.toList = c :: cs ∧ isDecimal c = true := by
  cases h with
  | date h => exact h.exists_cons
  | time h =>
    rcases h.digits? [] with ⟨hour, more, -, hdigits⟩
    rw [List.append_nil] at hdigits
    exact exists_cons_of_digits? (by decide) (Option.isSome_of_eq_some hdigits)
  | @both date time offset hdate _ _ =>
    rcases hdate.exists_cons with ⟨c, cs, hs, hc⟩
    have htext : (s!"{date}T{time}{offset}").toList =
        date.toList ++ ("T" ++ time ++ offset).toList := by simp [toString]
    rw [hs] at htext
    exact ⟨c, _, htext, hc⟩

/-! ## Readers -/

section Readers

variable {fuel depth : Nat} {c : Char} {cs rest : List Char}

theorem value?_of_quote (h : c = '"' ∨ c = '\'') :
    value? (fuel + 1) depth (c :: cs) =
      (anyString? (c :: cs)).map fun (s, rest) => (.string s, rest) := by
  rcases h with rfl | rfl <;> rfl

theorem value?_of_numeric (h : c = '-' ∨ isDecimal c = true) :
    value? (fuel + 1) depth (c :: cs) = numeric? (c :: cs) := by
  rcases h with rfl | hc
  · rfl
  · have hne : ∀ d, isDecimal d = false → c ≠ d := fun d => ne_of_isDecimal hc
    rw [value?]
    · simp [hne '"' (by decide), hne '\'' (by decide), hc]
    · exact hne '[' (by decide)
    · exact hne '\x7b' (by decide)
    all_goals
      rintro _ ⟨⟩
      exact absurd hc (by decide)

theorem value?_bracket (h : depth + 1 < depthLimit) :
    value? (fuel + 1) depth ('[' :: cs) = items? fuel (depth + 1) [] cs := by
  rw [value?, if_pos h]

theorem skipLines_of_solid (hsolid : isSolid c = true) (hcomment : c ≠ '#') :
    skipLines (fuel + 1) (c :: cs) = c :: cs := by
  have hkept : skipComment (c :: cs) = c :: cs := by
    rw [skipComment]
    rintro _ ⟨⟩
    exact hcomment rfl
  rw [skipLines, skipWhite_of_solid hsolid, hkept, newline?_of_solid hsolid]

theorem skipLines_append {white : List Char} (h : ∀ d ∈ white, isWhite d = true) :
    skipLines (fuel + 1) (white ++ cs) = skipLines (fuel + 1) cs := by
  rw [skipLines, skipLines, skipWhite_append h]

theorem skipLines_newline : skipLines (fuel + 1) ('\n' :: cs) = skipLines fuel cs := rfl

end Readers

/-! ## Arrays -/

/-- The text begins like a value. -/
def StartsValue (text : List Char) : Prop := ∃ c cs, text = c :: cs ∧ isValueStart c = true

/-- The value is read back at a depth, whatever ends its text. -/
structure ReadBack (depth : Nat) (v : Toml) : Prop where
  starts : StartsValue v.inline.toList
  read : ∀ {fuel : Nat} {rest : List Char}, 2 * v.inline.toList.length ≤ fuel → Ends rest →
    value? fuel depth (v.inline.toList ++ rest) = some (v, rest)

section Arrays

variable {fuel depth : Nat} {items done : List Toml} {rest : List Char}

/-- Reading an item after white space or a newline. -/
theorem items?_item (before : List Char) {v : Toml} (h : ReadBack depth v)
    (hfuel : 2 * v.inline.toList.length ≤ fuel) (hbefore : ∀ c cs, isSolid c = true → c ≠ '#' →
      skipLines ((before ++ c :: cs).length + 1) (before ++ c :: cs) = c :: cs) {d : Char}
    (hd : d = ',' ∨ d = ']') :
    items? (fuel + 1) depth done (before ++ (v.inline.toList ++ d :: rest)) =
      if d = ',' then items? fuel depth (v :: done) rest
      else some (.array (v :: done).reverse, rest) := by
  rcases h.starts with ⟨c, cs, htext, hc⟩
  have hstart := solid_of_isValueStart hc
  have hends : Ends (d :: rest) := by
    rcases hd with rfl | rfl
    · exact .comma rest
    · exact .bracket rest
  have hread := h.read hfuel hends
  rw [htext, List.cons_append] at hread
  have hmark : skipLines ((d :: rest).length + 1) (d :: rest) = d :: rest := by
    rcases hd with rfl | rfl
    · exact skipLines_of_solid (by decide) (by decide)
    · exact skipLines_of_solid (by decide) (by decide)
  rw [items?, htext, List.cons_append, hbefore c _ hstart.1 hstart.2.1]
  split
  · next heq => exact absurd (List.cons.inj heq).1 hstart.2.2
  · rw [hread]
    dsimp only
    rw [hmark]
    rcases hd with rfl | rfl
    · rfl
    · rfl

/-- Items, each on a line of its own. -/
def itemLines (items : List Toml) : List Char :=
  items.flatMap fun v => '\n' :: ' ' :: ' ' :: ' ' :: ' ' :: (v.inline.toList ++ [','])

theorem itemLines_cons (v : Toml) (items : List Toml) (rest : List Char) :
    itemLines (v :: items) ++ rest =
      ['\n', ' ', ' ', ' ', ' '] ++ (v.inline.toList ++ ',' :: (itemLines items ++ rest)) := by
  simp [itemLines]

theorem skipLines_indent (c : Char) (cs : List Char) (hsolid : isSolid c = true)
    (hcomment : c ≠ '#') :
    skipLines ((['\n', ' ', ' ', ' ', ' '] ++ c :: cs).length + 1)
      (['\n', ' ', ' ', ' ', ' '] ++ c :: cs) = c :: cs := by
  have hwhite : ∀ d ∈ [' ', ' ', ' ', ' '], isWhite d = true := by simp [isWhite]
  calc
    _ = skipLines ([' ', ' ', ' ', ' '] ++ c :: cs).length.succ ([' ', ' ', ' ', ' '] ++ c :: cs) :=
      skipLines_newline
    _ = c :: cs := by
      rw [Nat.succ_eq_add_one, skipLines_append hwhite, skipLines_of_solid hsolid hcomment]

/-- Items on lines of their own are read to the end of the array. -/
theorem items?_itemLines (h : ∀ v ∈ items, ReadBack depth v)
    (hfuel : 2 * (itemLines items).length < fuel) :
    items? fuel depth done (itemLines items ++ '\n' :: ']' :: rest) =
      some (.array (done.reverse ++ items), rest) := by
  induction items generalizing fuel done with
  | nil =>
    cases fuel with
    | zero => cases hfuel
    | succ fuel =>
      have hclose : skipLines (('\n' :: ']' :: rest).length + 1) ('\n' :: ']' :: rest) =
          ']' :: rest := by
        rw [skipLines_newline, List.length_cons, skipLines_of_solid (by decide) (by decide)]
      rw [itemLines, List.flatMap_nil, List.nil_append, items?, hclose, List.append_nil]
      rfl
  | cons v items ih =>
    rw [List.forall_mem_cons] at h
    cases fuel with
    | zero => cases hfuel
    | succ fuel =>
      have hlength : (itemLines (v :: items)).length =
          6 + v.inline.toList.length + (itemLines items).length := by
        simp [itemLines]
        omega
      rw [itemLines_cons, items?_item _ h.1 (by omega) skipLines_indent (.inl rfl), if_pos rfl,
        ih h.2 (by omega)]
      simp

theorem inlineItems_eq_map (items : List Toml) : inlineItems items = items.map inline := by
  induction items with
  | nil => rfl
  | cons v items ih => rw [inlineItems, ih, List.map_cons]

theorem toList_inline_array (items : List Toml) :
    (inline (.array items)).toList =
      match items with
      | [] => ['[', ']']
      | [v] => '[' :: (v.inline.toList ++ [']'])
      | items => '[' :: (itemLines items ++ ['\n', ']']) := by
  rw [inline, inlineItems_eq_map]
  match items with
  | [] => decide +kernel
  | [v] => simp
  | v :: w :: items => simp [itemLines, String.toList_join, List.flatMap_map]

/-- An array is read back if its items are. -/
theorem ReadBack.array (hdepth : depth + 1 < depthLimit) (h : ∀ v ∈ items, ReadBack (depth + 1) v) :
    ReadBack depth (.array items) := by
  have htext := toList_inline_array items
  refine ⟨?_, ?_⟩
  · rw [htext]
    split <;> exact ⟨'[', _, rfl, by decide⟩
  · intro fuel rest hfuel _
    rw [htext] at hfuel ⊢
    obtain ⟨fuel, rfl⟩ : ∃ n, fuel = n + 2 := by
      refine ⟨fuel - 2, ?_⟩
      split at hfuel <;> simp only [List.length_cons, List.length_append] at hfuel <;> omega
    match items with
    | [] =>
      rw [List.cons_append, value?_bracket hdepth, items?, List.cons_append,
        skipLines_of_solid (by decide) (by decide)]
      rfl
    | [v] =>
      rw [List.forall_mem_singleton] at h
      simp only [List.length_cons, List.length_append] at hfuel
      rw [List.cons_append, value?_bracket hdepth, List.append_assoc]
      exact items?_item [] h (by omega) (fun _ _ => skipLines_of_solid) (.inr rfl)
    | v :: w :: items =>
      simp only [List.length_cons, List.length_append] at hfuel
      rw [List.cons_append, value?_bracket hdepth, List.append_assoc]
      exact items?_itemLines h (by omega)

end Arrays

/-! ## Tables -/

section Tables

variable {fuel depth : Nat} {entries : List (String × Toml)} {rest : List Char}

theorem hasTables_of_isTable {v : Toml} (h : v.isTable = true) : v.hasTables = false := by
  cases v with
  | table => rfl
  | _ => cases h

theorem arranged_perm (entries : List (String × Toml)) : (arranged entries).Perm entries := by
  induction entries with
  | nil => exact .nil
  | cons e entries ih =>
    unfold arranged at ih ⊢
    by_cases htable : e.2.isTable = true
    · simp only [List.filter_cons, htable, hasTables_of_isTable htable]
      exact List.perm_middle.trans (ih.cons e)
    · by_cases htables : e.2.hasTables = true
      · simp only [List.filter_cons, htable, htables]
        refine List.Perm.trans ?_ (ih.cons e)
        exact List.perm_middle.append_right _
      · simp only [List.filter_cons, htable, htables]
        exact ih.cons e

/-- A key and its value as they are written. -/
def assignment (e : String × Toml) : List Char :=
  (quoteKey e.1).toList ++ ' ' :: '=' :: ' ' :: e.2.inline.toList

/-- Pairs with commas between them. -/
def pairsText : List (String × Toml) → List Char
  | [] => []
  | [e] => assignment e
  | e :: e' :: entries => assignment e ++ ',' :: ' ' :: pairsText (e' :: entries)

theorem inlineEntries_eq_map (entries : List (String × Toml)) :
    inlineEntries entries =
      entries.map fun e => (quoteKey e.1, e.2.inline, e.2.isTable, e.2.hasTables) := by
  induction entries with
  | nil => rfl
  | cons e entries ih => rw [inlineEntries, ih, List.map_cons]

theorem toList_assignment (e : String × Toml) :
    (quoteKey e.1 ++ " = " ++ e.2.inline).toList = assignment e := by
  have hequals : " = ".toList = [' ', '=', ' '] := by decide +kernel
  simp [assignment, hequals]

theorem toList_intercalate_comma {written : String × Toml → String}
    (h : ∀ e, (written e).toList = assignment e) (entries : List (String × Toml)) :
    (", ".intercalate (entries.map written)).toList = pairsText entries := by
  have hcomma : ", ".toList = [',', ' '] := by decide +kernel
  induction entries with
  | nil => rfl
  | cons e entries ih =>
    cases entries with
    | nil => rw [List.map_singleton, String.intercalate_singleton, h, pairsText]
    | cons e' entries =>
      rw [List.map_cons] at ih ⊢
      rw [List.map_cons, String.intercalate_cons_cons, String.toList_append, String.toList_append,
        h, hcomma, ih, List.append_assoc, pairsText.eq_3]
      rfl


theorem inlineEntries_arranged (entries : List (String × Toml)) :
    (inlineEntries entries).filter (fun e => !e.2.2.1 && !e.2.2.2) ++
        (inlineEntries entries).filter (fun e => e.2.2.2) ++
        (inlineEntries entries).filter (fun e => e.2.2.1) =
      (arranged entries).map fun e => (quoteKey e.1, e.2.inline, e.2.isTable, e.2.hasTables) := by
  rw [inlineEntries_eq_map, List.filter_map, List.filter_map, List.filter_map, arranged,
    List.map_append, List.map_append]
  rfl

theorem toList_inline_table (entries : List (String × Toml)) :
    (inline (.table entries)).toList =
      match arranged entries with
      | [] => ['\x7b', '\x7d']
      | ordered => '\x7b' :: ' ' :: (pairsText ordered ++ [' ', '\x7d']) := by
  unfold inline
  dsimp only
  rw [inlineEntries_arranged]
  cases arranged entries with
  | nil => decide +kernel
  | cons e ordered =>
    have hopen : "\x7b ".toList = ['\x7b', ' '] := by decide +kernel
    have hclose : " \x7d".toList = [' ', '\x7d'] := by decide +kernel
    have hpairs := toList_intercalate_comma toList_assignment (e :: ordered)
    rw [List.map_cons]
    dsimp only
    rw [String.toList_append, String.toList_append, hopen, hclose, List.map_cons, List.map_map]
    rw [List.map_cons] at hpairs
    exact congrArg (fun text => ['\x7b', ' '] ++ text ++ [' ', '\x7d']) hpairs

theorem value?_brace (h : depth + 1 < depthLimit) {cs : List Char} :
    value? (fuel + 1) depth ('\x7b' :: cs) =
      match skipWhite cs with
      | '\x7d' :: rest => some (.table [], rest)
      | cs => pairs? fuel (depth + 1) [] cs := by
  rw [value?]
  exact if_pos h

/-- The pair of an entry as it is read: its key has no dots. -/
def undotted (e : String × Toml) : (List String × String) × Toml := (([], e.1), e.2)

/-- The key of a pair is read up to the equals sign. -/
theorem key?_assignment (e : String × Toml) {white : List Char}
    (hwhite : ∀ c ∈ white, isWhite c = true) (rest : List Char) :
    key? (white ++ (assignment e ++ rest)) =
      some (([], e.1), '=' :: ' ' :: (e.2.inline.toList ++ rest)) := by
  have hends : EndsKey (' ' :: '=' :: ' ' :: (e.2.inline.toList ++ rest)) := by
    refine ⟨?_, ?_⟩
    · rintro c ⟨⟩
      decide
    · rintro more ⟨⟩
  rw [assignment, List.append_assoc]
  exact key?_quoteKey hwhite e.1 hends

/-- The space in front of a value is skipped. -/
theorem ReadBack.skip_space {v : Toml} (h : ReadBack depth v) (rest : List Char) :
    skipWhite (' ' :: (v.inline.toList ++ rest)) = v.inline.toList ++ rest := by
  rcases h.starts with ⟨c, cs, htext, hc⟩
  rw [htext]
  exact skipWhite_of_solid (solid_of_isValueStart hc).1 _

theorem length_assignment (e : String × Toml) :
    (assignment e).length = (quoteKey e.1).toList.length + 3 + e.2.inline.toList.length := by
  rw [assignment, List.length_append, List.length_cons, List.length_cons, List.length_cons]
  omega

/-- Reading one pair of a table. -/
theorem pairs?_assignment {e : String × Toml} (h : ReadBack depth e.2)
    (hfuel : 2 * (assignment e).length ≤ fuel) {white : List Char}
    (hwhite : ∀ c ∈ white, isWhite c = true) (hrest : Ends rest)
    (done : List ((List String × String) × Toml)) :
    pairs? (fuel + 1) depth done (white ++ (assignment e ++ rest)) =
      match skipWhite rest with
      | ',' :: rest => pairs? fuel depth (undotted e :: done) rest
      | '\x7d' :: rest => (inlineTable? (undotted e :: done).reverse).map fun table => (table, rest)
      | _ => none := by
  have hequals : isSolid '=' = true := by decide
  have hvalue : value? fuel depth (skipWhite (' ' :: (e.2.inline.toList ++ rest))) =
      some (e.2, rest) := by
    rw [length_assignment] at hfuel
    rw [h.skip_space]
    exact h.read (by omega) hrest
  rw [pairs?, key?_assignment e hwhite]
  simp only [skipWhite_of_solid hequals, hvalue]
  rfl

/-- The pairs of a table are read to its end. -/
theorem pairs?_pairsText (hentries : entries ≠ []) (h : ∀ e ∈ entries, ReadBack depth e.2)
    (hfuel : 2 * (pairsText entries).length < fuel) {white : List Char}
    (hwhite : ∀ c ∈ white, isWhite c = true) (done : List ((List String × String) × Toml))
    (rest : List Char) :
    pairs? fuel depth done (white ++ (pairsText entries ++ ' ' :: '\x7d' :: rest)) =
      (inlineTable? (done.reverse ++ entries.map undotted)).map fun table => (table, rest) := by
  induction entries generalizing fuel white done with
  | nil => exact absurd rfl hentries
  | cons e entries ih =>
    rw [List.forall_mem_cons] at h
    cases fuel with
    | zero => cases hfuel
    | succ fuel =>
      cases entries with
      | nil =>
        rw [pairsText] at hfuel ⊢
        rw [pairs?_assignment h.1 (by omega) hwhite (.brace rest)]
        simp [skipWhite, isWhite]
      | cons e' entries =>
        rw [pairsText] at hfuel ⊢
        simp only [List.length_append, List.length_cons] at hfuel
        have hspace : ∀ c ∈ [' '], isWhite c = true := List.forall_mem_singleton.2 rfl
        have hread := ih (List.cons_ne_nil e' entries) h.2 (by omega : _ < fuel) hspace
          (undotted e :: done)
        rw [List.append_assoc, List.cons_append, pairs?_assignment h.1 (by omega) hwhite (.comma _)]
        rw [skipWhite_of_solid (by decide)]
        simpa using hread

/-- A pair with a new key goes behind the others. -/
theorem addPair_of_notMem {drafts : List (String × Draft)} {key : String} (v : Toml)
    (h : key ∉ drafts.map (·.1)) :
    Draft.addPair [] key v drafts = some (drafts ++ [(key, .value v)]) := by
  simp [Draft.addPair, Draft.descend, lookup?_eq_none_iff.2 h]

theorem addPairs_undotted {drafts : List (String × Draft)}
    (h : (drafts.map (·.1) ++ entries.map (·.1)).Nodup) :
    Draft.addPairs (entries.map undotted) drafts =
      some (drafts ++ entries.map fun e => (e.1, .value e.2)) := by
  induction entries generalizing drafts with
  | nil => simp [Draft.addPairs]
  | cons e entries ih =>
    rw [List.map_cons] at h
    have hnew : e.1 ∉ drafts.map (·.1) := by
      intro hmem
      exact (List.nodup_append.1 h).2.2 e.1 hmem e.1 List.mem_cons_self rfl
    have hrest : ((drafts ++ [(e.1, Draft.value e.2)]).map (·.1) ++ entries.map (·.1)).Nodup := by
      simpa using h
    rw [List.map_cons, Draft.addPairs, List.foldlM_cons]
    calc
      _ = Draft.addPairs (entries.map undotted) (drafts ++ [(e.1, .value e.2)]) := by
        rw [undotted]
        dsimp only
        rw [addPair_of_notMem e.2 hnew]
        rfl
      _ = _ := by rw [ih hrest, List.map_cons, List.append_assoc, List.singleton_append]

theorem entriesToToml_value (entries : List (String × Toml)) :
    Draft.entriesToToml (entries.map fun e => (e.1, .value e.2)) = entries := by
  rw [Draft.entriesToToml_eq_map, List.map_map]
  exact List.map_id' entries

/-- The pairs of a table are put back in the order of their keys. -/
theorem inlineTable?_arranged (h : Ascending entries) :
    inlineTable? ((arranged entries).map undotted) = some (.table entries) := by
  have hdistinct : ((arranged entries).map (·.1)).Nodup :=
    (((arranged_perm entries).map _).nodup_iff).2 h.nodup
  rw [inlineTable?, addPairs_undotted (by simpa using hdistinct), List.nil_append, Option.map_some,
    entriesToToml_value, sortEntries_eq (arranged_perm entries) h]

theorem exists_assignment (e : String × Toml) :
    ∃ c cs, assignment e = c :: cs ∧ isKeyStart c = true := by
  rcases exists_quoteKey e.1 with ⟨c, cs, hkey, hc⟩
  rw [assignment, hkey]
  exact ⟨c, _, rfl, hc⟩

theorem exists_pairsText (e : String × Toml) (entries : List (String × Toml)) :
    ∃ c cs, pairsText (e :: entries) = c :: cs ∧ isKeyStart c = true := by
  rcases exists_assignment e with ⟨c, cs, htext, hc⟩
  cases entries with
  | nil => exact ⟨c, cs, htext, hc⟩
  | cons e' entries =>
    rw [pairsText, htext]
    exact ⟨c, _, rfl, hc⟩

/-- A table is read back if its values are. -/
theorem ReadBack.table (hdepth : depth + 1 < depthLimit) (hkeys : Ascending entries)
    (h : ∀ e ∈ entries, ReadBack (depth + 1) e.2) : ReadBack depth (.table entries) := by
  have htext := toList_inline_table entries
  have hordered : ∀ e ∈ arranged entries, ReadBack (depth + 1) e.2 := by
    intro e he
    exact h e ((arranged_perm entries).mem_iff.1 he)
  have htable := inlineTable?_arranged hkeys
  refine ⟨?_, ?_⟩
  · rw [htext]
    split <;> exact ⟨'\x7b', _, rfl, by decide⟩
  · intro fuel rest hfuel _
    rw [htext] at hfuel ⊢
    have hperm := arranged_perm entries
    cases harranged : arranged entries with
    | nil =>
      rw [harranged] at hfuel hperm
      obtain ⟨fuel, rfl⟩ : ∃ n, fuel = n + 1 := ⟨fuel - 1, by simp at hfuel; omega⟩
      rw [List.nil_perm.1 hperm]
      exact value?_brace hdepth
    | cons e ordered =>
      rw [harranged] at hfuel hordered htable
      simp only [List.length_cons, List.length_append] at hfuel
      obtain ⟨fuel, rfl⟩ : ∃ n, fuel = n + 1 := ⟨fuel - 1, by omega⟩
      rcases exists_pairsText e ordered with ⟨c, cs, hpairs, hc⟩
      have hread := pairs?_pairsText (List.cons_ne_nil e ordered) hordered
        (by omega : 2 * (pairsText (e :: ordered)).length < fuel) (List.forall_mem_nil _) [] rest
      rw [List.reverse_nil, List.nil_append, List.nil_append, htable, hpairs] at hread
      rw [List.cons_append, List.cons_append, value?_brace hdepth, List.append_assoc, hpairs]
      have hskip : skipWhite (' ' :: (c :: cs ++ ([' ', '\x7d'] ++ rest))) =
          c :: cs ++ ([' ', '\x7d'] ++ rest) := skipWhite_of_solid (isSolid_of_isKeyStart hc) _
      rw [hskip]
      split
      · next heq => exact absurd (List.cons.inj heq).1 (ne_of_isKeyStart hc (by decide))
      · exact hread

end Tables

/-! ## Any value -/

theorem ReadBack.of_scalar {depth : Nat} {v : Toml} {c : Char} {cs : List Char}
    (htext : v.inline.toList = c :: cs) (hc : isValueStart c = true)
    (h : ∀ {fuel : Nat} {rest : List Char}, Ends rest →
      value? (fuel + 1) depth (c :: (cs ++ rest)) = some (v, rest)) : ReadBack depth v := by
  refine ⟨⟨c, cs, htext, hc⟩, ?_⟩
  intro fuel rest hfuel hrest
  rw [htext, List.length_cons] at hfuel
  obtain ⟨fuel, rfl⟩ : ∃ n, fuel = n + 1 := ⟨fuel - 1, by omega⟩
  rw [htext]
  exact h hrest

/-- A value that can be written is read back. -/
theorem Writable.readBack {n : Nat} {v : Toml} (h : Writable n v) {depth : Nat}
    (hdepth : depth + n < depthLimit) : ReadBack depth v := by
  induction h generalizing depth with
  | string n s =>
    rcases exists_quoteText s with ⟨c, cs, htext, hc⟩
    refine .of_scalar htext (by rcases hc with rfl | rfl <;> decide) ?_
    intro fuel rest hrest
    rw [value?_of_quote hc, ← List.cons_append, ← htext, anyString?_quoteText s
      (hrest.head?_ne (by decide)) (hrest.head?_ne (by decide)), Option.map_some]
  | integer n h =>
    rcases exists_toString_int _ with ⟨c, cs, htext, hc⟩
    refine .of_scalar htext (by
      rcases hc with rfl | hc
      · decide
      · exact isValueStart_of_isDecimal hc) ?_
    intro fuel rest hrest
    rw [value?_of_numeric hc, ← List.cons_append, ← htext, numeric?_integer h hrest]
  | boolean n b =>
    cases b with
    | true =>
      have htext : (inline (.boolean true)).toList = ['t', 'r', 'u', 'e'] := by decide +kernel
      exact .of_scalar htext (by decide) fun _ => rfl
    | false =>
      have htext : (inline (.boolean false)).toList = ['f', 'a', 'l', 's', 'e'] := by
        decide +kernel
      exact .of_scalar htext (by decide) fun _ => rfl
  | datetime n h =>
    rcases h.exists_cons with ⟨c, cs, htext, hc⟩
    refine .of_scalar htext (isValueStart_of_isDecimal hc) ?_
    intro fuel rest hrest
    rw [value?_of_numeric (.inr hc), ← List.cons_append, ← htext, h.read hrest]
  | array h ih => exact .array (by omega) fun v hv => ih v hv (by omega)
  | table hkeys h ih => exact .table (by omega) hkeys fun e he => ih e he (by omega)

end LintMend.Toml
