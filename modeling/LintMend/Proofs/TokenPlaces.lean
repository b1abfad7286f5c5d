import LintMend.Proofs.CoveredTokens
import LintMend.Rust.File
import Mathlib.Data.List.TakeWhile
import Mathlib.Order.Nat

/-!
# Places of tokens

A token is reported at the line and the column of the characters that it is spelled with, counted in
the text without its byte order mark. The lexer walks over the text once, so tokens stand in it one
after the other, and what stands inside a group stands between its brackets. A line that names an
interpreter is passed over and counts as a line.
-/

namespace LintMend.Rust

/-! ## Reported positions -/

/-- The position that is reported behind the first characters of a text. -/
def reported (front : List Char) : Position := front.foldl advance ⟨1, 0⟩

theorem reported_append (front own : List Char) :
    reported (front ++ own) = own.foldl advance (reported front) := List.foldl_append

theorem reported_concat (front : List Char) (c : Char) :
    reported (front ++ [c]) = advance (reported front) c := reported_append front [c]

theorem foldl_advance_of_not_mem {own : List Char} (h : '\n' ∉ own) (p : Position) :
    own.foldl advance p = ⟨p.line, p.column + own.length⟩ := by
  induction own generalizing p with
  | nil => rfl
  | cons c own ih =>
    rw [List.mem_cons, not_or] at h
    have hc : (c == '\n') = false := beq_eq_false_iff_ne.2 (Ne.symm h.1)
    rw [List.foldl_cons, ih h.2, advance, hc, List.length_cons]
    simp [Nat.add_assoc, Nat.add_comm 1]

theorem reported_of_not_mem {front : List Char} (h : '\n' ∉ front) :
    reported front = ⟨1, front.length⟩ := by
  rw [reported, foldl_advance_of_not_mem h, Nat.zero_add]

/-! ## Where tokens stand -/

/-- The characters of a text from one place to another. -/
def between (cs : List Char) (a b : Nat) : List Char := (cs.take b).drop a

theorem between_append (done own rest : List Char) :
    between (done ++ (own ++ rest)) done.length (done.length + own.length) = own := by
  rw [between, ← List.append_assoc, ← List.length_append, List.take_left, List.drop_left]

theorem length_between {cs : List Char} {a b : Nat} (h : b ≤ cs.length) :
    (between cs a b).length = b - a := by
  rw [between, List.length_drop, List.length_take, Nat.min_eq_left h]

theorem between_trans {cs : List Char} {a b c : Nat} (hab : a ≤ b) (hbc : b ≤ c) :
    between cs a c = between cs a b ++ between cs b c := by
  have hdrop : (cs.take b).drop a = ((cs.take c).drop a).take (b - a) := by
    rw [List.take_drop, Nat.add_sub_cancel' hab, List.take_take, Nat.min_eq_left hbc]
  have hrest : (cs.take c).drop b = ((cs.take c).drop a).drop (b - a) := by
    rw [List.drop_drop, Nat.add_sub_cancel' hab]
  rw [between, between, between, hdrop, hrest, List.take_append_drop]

/-- The bracket that opens a group. -/
def Delimiter.opening : Delimiter → Char
  | .parenthesis => '('
  | .bracket => '['
  | .brace => '\x7b'

/-- The bracket that closes a group. -/
def Delimiter.closing : Delimiter → Char
  | .parenthesis => ')'
  | .bracket => ']'
  | .brace => '\x7d'

/-- The characters that a token is spelled with. -/
def Token.Spelled (own : List Char) : Token → Prop
  | .word text _ | .lifetime text _ | .literal text _ => own = text.toList
  | .mark c _ _ => own = [c]
  | .group d _ _ => ∃ mid, own = d.opening :: (mid ++ [d.closing])

/-- A comment, which may stand for an attribute. -/
def IsComment (own : List Char) : Prop := ['/', '/'] <+: own ∨ ['/', '*'] <+: own

/-- The token is reported from one place of the text to another, and this is where it is written. -/
structure Token.At (cs : List Char) (a b : Nat) (t : Token) : Prop where
  le : a ≤ b
  le_length : b ≤ cs.length
  extent : t.extent = ⟨reported (cs.take a), reported (cs.take b)⟩
  spelled : t.Spelled (between cs a b) ∨ IsComment (between cs a b)

/-- The tokens stand in the text one after the other, those inside of groups, too. They begin at
places from `i` to `k`. -/
inductive Stand (cs : List Char) : Nat → List Token → Nat → Prop
  | nil {i k : Nat} (h : i ≤ k) : Stand cs i [] k
  | cons {i a b k : Nat} {t : Token} {ts : List Token} (hle : i ≤ a) (hat : t.At cs a b)
    (inner : ∀ d us e, t = .group d us e → Stand cs a us b) (rest : Stand cs a ts k) :
    Stand cs i (t :: ts) k

section Stands

variable {cs : List Char} {i j k m : Nat} {t : Token} {ts us : List Token}

theorem Stand.le (h : Stand cs i ts k) : i ≤ k := by
  induction h with
  | nil h => exact h
  | cons hle _ _ _ _ ih => exact hle.trans ih

theorem Stand.mono (h : Stand cs i ts k) (hle : j ≤ i) : Stand cs j ts k := by
  cases h with
  | nil h => exact .nil (hle.trans h)
  | cons hi hat inner rest => exact .cons (hle.trans hi) hat inner rest

theorem Stand.append (h : Stand cs i ts k) (h' : Stand cs k us m) : Stand cs i (ts ++ us) m := by
  induction h with
  | nil h => exact h'.mono h
  | cons hle hat inner _ _ ih => exact .cons hle hat inner (ih h')

theorem Stand.mono_right (h : Stand cs i ts k) (hle : k ≤ m) : Stand cs i ts m := by
  rw [← List.append_nil ts]
  exact h.append (.nil hle)

theorem Stand.of_append_right (h : Stand cs i (ts ++ us) k) : ∃ j, Stand cs j us k := by
  induction ts generalizing i with
  | nil => exact ⟨i, h⟩
  | cons t ts ih =>
    cases h with
    | cons _ _ _ rest => exact ih rest

theorem Stand.of_append_left (h : Stand cs i (ts ++ us) k) : Stand cs i ts k := by
  induction ts generalizing i with
  | nil => exact .nil h.le
  | cons t ts ih =>
    cases h with
    | cons hle hat inner rest => exact .cons hle hat inner (ih rest)

/-- Tokens that stand next to each other on one level stand in the text, too. -/
theorem Stand.inside (h : Stand cs i ts k) (hus : Inside us ts) : ∃ j m, Stand cs j us m := by
  induction hus generalizing i k with
  | part hpart =>
    rcases hpart with ⟨front, back, rfl⟩
    rcases h.of_append_left.of_append_right with ⟨j, hj⟩
    exact ⟨j, k, hj⟩
  | group _ hmem ih =>
    rcases List.append_of_mem hmem with ⟨front, back, rfl⟩
    rcases h.of_append_right with ⟨j, hj⟩
    cases hj with
    | cons _ _ inner _ => exact ih (inner _ _ _ rfl)

/-- The tokens take up the text from `a` to `b`: the first is written from `a` on and the last up to
`b`. -/
structure Stretch (cs : List Char) (a b : Nat) (ts : List Token) : Prop where
  nonempty : ts ≠ []
  le : a ≤ b
  le_length : b ≤ cs.length
  first : ∀ t ∈ ts.head?, ∃ k, t.At cs a k
  last : ∀ t ∈ ts.getLast?, ∃ k, t.At cs k b

theorem Stand.exists_stretch (h : Stand cs i ts k) (hne : ts ≠ []) : ∃ a b, i ≤ a ∧
    Stretch cs a b ts := by
  induction h with
  | nil => exact absurd rfl hne
  | @cons i a b k t ts hle hat inner rest _ ih =>
    have hfirst : ∀ u ∈ (t :: ts).head?, ∃ k, u.At cs a k := by
      rintro _ ⟨⟩
      exact ⟨b, hat⟩
    cases ts with
    | nil =>
      refine ⟨a, b, hle, hne, hat.le, hat.le_length, hfirst, ?_⟩
      rintro _ ⟨⟩
      exact ⟨a, hat⟩
    | cons t' ts =>
      rcases ih (by simp) with ⟨a', b', ha', hstretch⟩
      refine ⟨a, b', hle, hne, ha'.trans hstretch.le, hstretch.le_length, hfirst, ?_⟩
      intro u hu
      apply hstretch.last
      rwa [List.getLast?_cons_cons] at hu

/-- An extent is reported by the ends of the stretch of its tokens. -/
theorem Extent.Spans.eq_reported {e : Extent} {a b : Nat} (h : e.Spans ts) (hts : Stretch cs a b ts) :
    e = ⟨reported (cs.take a), reported (cs.take b)⟩ := by
  have hhead := List.head?_eq_some_head h.nonempty
  have hlast := List.getLast?_eq_some_getLast h.nonempty
  rcases hts.first _ hhead with ⟨k, hfirst⟩
  rcases hts.last _ hlast with ⟨k', hlast'⟩
  have hstart : e.start = reported (cs.take a) := by rw [← h.start _ hhead, hfirst.extent]
  have hstop : e.stop = reported (cs.take b) := by rw [← h.stop _ hlast, hlast'.extent]
  rw [← hstart, ← hstop]

end Stands

/-! ## Lexemes -/

/-- The characters that a lexeme is made of. -/
def Lexeme.Spelled (own : List Char) : Lexeme → Prop
  | .gap => True
  | .token make => ∀ e, (make e).Spelled own ∧ (make e).extent = e ∧ ∀ d us x, make e ≠ .group d us x
  | .doc _ _ => IsComment own
  | .opening d => own = [d.opening]
  | .closing d => own = [d.closing]

theorem le_of_blockCommentFrom {depth n m : Nat} {cs : List Char}
    (h : blockCommentFrom depth n cs = some m) : n ≤ m := by
  fun_induction blockCommentFrom depth n cs with
  | case1 depth n cs ih =>
    have := ih h
    omega
  | case2 depth n cs hdepth =>
    have : n + 2 = m := by simpa using h
    omega
  | case3 depth n cs hdepth ih =>
    have := ih h
    omega
  | case4 depth n c cs _ _ ih =>
    have := ih h
    omega
  | case5 => cases h

theorem pair_isPrefix_take (a b : Char) (cs : List Char) {n : Nat} (h : 2 ≤ n) :
    [a, b] <+: (a :: b :: cs).take n := by
  obtain ⟨k, rfl⟩ : ∃ k, n = k + 2 := ⟨n - 2, by omega⟩
  exact ⟨cs.take k, rfl⟩

theorem two_le_of_lineDoc {inner inner' : Bool} {cs text : List Char} {n : Nat}
    (h : lineDoc inner cs = .doc inner' text n) : 2 ≤ n := by
  unfold lineDoc at h
  dsimp only at h
  injection h
  omega

theorem two_le_of_blockDoc? {inner inner' : Bool} {cs text : List Char} {n : Nat}
    (h : blockDoc? inner ('/' :: '*' :: cs) = some (.doc inner' text n)) : 2 ≤ n := by
  rcases Option.map_eq_some_iff.1 h with ⟨m, hm, hdoc⟩
  injection hdoc with _ _ hn
  rw [blockCommentFrom] at hm
  rw [← hn]
  exact le_of_blockCommentFrom hm

theorem isComment_of_comment? {cs text : List Char} {inner : Bool} {n : Nat}
    (h : comment? cs = some (.doc inner text n)) : IsComment (cs.take n) := by
  unfold comment? at h
  split at h
  · cases h
  · exact .inl (pair_isPrefix_take _ _ _ (two_le_of_lineDoc (Option.some.inj h)))
  · exact .inl (pair_isPrefix_take _ _ _ (two_le_of_lineDoc (Option.some.inj h)))
  · cases h
  · cases h
  · rcases Option.map_eq_some_iff.1 h with ⟨m, -, hm⟩
    cases hm
  · exact .inr (pair_isPrefix_take _ _ _ (two_le_of_blockDoc? h))
  · exact .inr (pair_isPrefix_take _ _ _ (two_le_of_blockDoc? h))
  · rcases Option.map_eq_some_iff.1 h with ⟨m, -, hm⟩
    cases hm
  · cases h

theorem spelled_of_scan {cs : List Char} {lexeme : Lexeme} {n : Nat}
    (h : scan cs = some (lexeme, n)) : lexeme.Spelled (cs.take n) := by
  have htext : ∀ m, cs.take m = (String.ofList (cs.take m)).toList := fun m => String.toList_ofList.symm
  unfold scan at h
  split at h
  · cases h
  · next c rest =>
    split at h
    -- six of the cases are the brackets
    rotate_left 6
    · split at h
      · cases h
        trivial
      · split at h
        · cases h
          trivial
        · next inner text m hcomment =>
          split at h
          · cases h
            exact isComment_of_comment? hcomment
          · cases h
        · split at h
          · cases h
            exact fun e => ⟨htext n, rfl, by simp⟩
          · split at h
            · rcases Option.map_eq_some_iff.1 h with ⟨m, -, hm⟩
              cases hm
              exact fun e => ⟨htext n, rfl, by simp⟩
            · split at h
              · cases h
                exact fun e => ⟨rfl, rfl, by simp⟩
              · split at h
                · cases h
                · rcases Option.map_eq_some_iff.1 h with ⟨m, -, hm⟩
                  cases hm
                  exact fun e => ⟨htext n, rfl, by simp⟩
    all_goals
      cases h
      rfl

/-- The lexemes stand in the text one after the other, from the place `i` on. -/
inductive Lexed (cs : List Char) : Nat → List (Lexeme × Extent) → Prop
  | nil (i : Nat) : Lexed cs i []
  | cons {i a b : Nat} {lexeme : Lexeme} {ls : List (Lexeme × Extent)} (hle : i ≤ a) (hab : a ≤ b)
    (hb : b ≤ cs.length) (hspelled : lexeme.Spelled (between cs a b)) (rest : Lexed cs b ls) :
    Lexed cs i ((lexeme, ⟨reported (cs.take a), reported (cs.take b)⟩) :: ls)

theorem Lexed.mono {cs : List Char} {i j : Nat} {ls : List (Lexeme × Extent)} (h : Lexed cs i ls)
    (hle : j ≤ i) : Lexed cs j ls := by
  cases h with
  | nil => exact .nil j
  | cons hi hab hb hspelled rest => exact .cons (hle.trans hi) hab hb hspelled rest

/-- A lexeme in front of others, given by its characters. -/
theorem Lexed.cons_own {done own rest : List Char} {lexeme : Lexeme} {ls : List (Lexeme × Extent)}
    {j : Nat} (hspelled : lexeme.Spelled own) (h : Lexed (done ++ (own ++ rest)) j ls)
    (hj : done.length + own.length ≤ j) :
    Lexed (done ++ (own ++ rest)) done.length
      ((lexeme, ⟨reported done, own.foldl advance (reported done)⟩) :: ls) := by
  have hfirst : (done ++ (own ++ rest)).take done.length = done := List.take_left
  have hboth : (done ++ (own ++ rest)).take (done.length + own.length) = done ++ own := by
    rw [← List.append_assoc, ← List.length_append, List.take_left]
  have hown : lexeme.Spelled (between (done ++ (own ++ rest)) done.length
      (done.length + own.length)) := by
    rwa [between_append]
  have hcons := Lexed.cons (Nat.le_refl done.length) (Nat.le_add_right done.length own.length) (by simp)
    hown (h.mono hj)
  rwa [hfirst, hboth, reported_append] at hcons

/-- The walk over the text finds lexemes that stand in it. -/
theorem lexed_of_lexFrom {cs done rest : List Char} {skip : Nat} {found out : List (Lexeme × Extent)}
    (hcs : cs = done ++ rest) (h : lexFrom skip (reported done) found rest = some out) :
    ∃ ls, out = ls.reverse ++ found ∧ Lexed cs (done.length + skip) ls := by
  induction rest generalizing done skip found with
  | nil =>
    cases h
    exact ⟨[], rfl, .nil _⟩
  | cons c rest ih =>
    have hcs' : cs = (done ++ [c]) ++ rest := by simp [hcs]
    have hlength : (done ++ [c]).length = done.length + 1 := by simp
    rw [lexFrom, ← reported_concat] at h
    split at h
    · next hskip =>
      rcases ih hcs' h with ⟨ls, hout, hls⟩
      exact ⟨ls, hout, hls.mono (by omega)⟩
    · next hskip =>
      split at h
      · cases h
      · next n hscan =>
        rcases ih hcs' h with ⟨ls, hout, hls⟩
        exact ⟨ls, hout, hls.mono (by omega)⟩
      · next lexeme n hne hscan =>
        rcases ih hcs' h with ⟨ls, hout, hls⟩
        refine ⟨_ :: ls, by simpa using hout, ?_⟩
        have hown := spelled_of_scan hscan
        have hparts : cs = done ++ ((c :: rest).take n ++ (c :: rest).drop n) := by
          rw [List.take_append_drop, hcs]
        rw [hparts] at hls ⊢
        have hnext : done.length + ((c :: rest).take n).length ≤ (done ++ [c]).length + (n - 1) := by
          rw [List.length_take, List.length_cons]
          omega
        exact (hls.cons_own hown hnext).mono (by omega)

/-! ## Trees -/

/-- What has been read up to the place `k`, with the brackets that are open there. -/
def OpenAt (cs : List Char) : List OpenGroup → List Token → Nat → Prop
  | [], tokens, k => Stand cs 0 tokens.reverse k
  | g :: outer, tokens, k => ∃ a, g.start = reported (cs.take a) ∧
    between cs a (a + 1) = [g.delimiter.opening] ∧ OpenAt cs outer g.before a ∧
      Stand cs (a + 1) tokens.reverse k

section Trees

variable {cs : List Char} {groups : List OpenGroup} {tokens us : List Token} {i k m a b : Nat}

theorem OpenAt.push (h : OpenAt cs groups tokens k) (hus : Stand cs k us m) :
    OpenAt cs groups (us.reverse ++ tokens) m := by
  have hreverse : (us.reverse ++ tokens).reverse = tokens.reverse ++ us := by simp
  cases groups with
  | nil =>
    rw [OpenAt, hreverse]
    exact Stand.append h hus
  | cons g outer =>
    rcases h with ⟨a, hstart, hopening, houter, hinner⟩
    refine ⟨a, hstart, hopening, houter, ?_⟩
    rw [hreverse]
    exact hinner.append hus

theorem OpenAt.mono (h : OpenAt cs groups tokens i) (hle : i ≤ k) : OpenAt cs groups tokens k :=
  h.push (.nil hle)

theorem Stand.singleton {t : Token} (hat : t.At cs a b)
    (hgroup : ∀ d us e, t = .group d us e → Stand cs a us b) : Stand cs a [t] b :=
  .cons (Nat.le_refl a) hat hgroup (.nil hat.le)

/-- The tokens for which a comment stands are all reported at its place. -/
theorem stand_docTokens {e : Extent} (hat : ∀ t : Token, t.extent = e → t.At cs a b) (inner : Bool)
    (text : List Char) : Stand cs a (docTokens inner text e).reverse b := by
  have hcons : ∀ {t : Token} {ts : List Token}, t.extent = e →
      (∀ d us x, t = .group d us x → Stand cs a us b) → Stand cs a ts b → Stand cs a (t :: ts) b :=
    fun ht hgroup hts => .cons (Nat.le_refl a) (hat _ ht) hgroup hts
  have hend : Stand cs a [] b := .nil (hat (.word "" e) rfl).le
  have hbody : ∀ quoted, Stand cs a [.group .bracket [.word "doc" e, .mark '=' false e,
      .literal quoted e] e] b := by
    intro quoted
    refine hcons rfl ?_ hend
    rintro _ _ _ ⟨⟩
    exact hcons rfl (by simp) (hcons rfl (by simp) (hcons rfl (by simp) hend))
  cases inner with
  | true => exact hcons rfl (by simp) (hcons rfl (by simp) (hbody _))
  | false => exact hcons rfl (by simp) (hbody _)

/-- A group is spelled from its opening bracket to its closing one. -/
theorem spelled_group {d : Delimiter} {e : Extent} (hab : a < b)
    (hopening : between cs a (a + 1) = [d.opening]) (hclosing : between cs b m = [d.closing])
    (hbm : b ≤ m) : (Token.group d us e).Spelled (between cs a m) := by
  refine ⟨between cs (a + 1) b, ?_⟩
  rw [between_trans (Nat.le_of_lt hab) hbm, between_trans (Nat.le_succ a) hab, hopening, hclosing]
  simp

/-- Folding lexemes into trees keeps their places. -/
theorem stand_of_assemble {ls : List (Lexeme × Extent)} {out : List Token} (hls : Lexed cs i ls)
    (hopen : OpenAt cs groups tokens i) (h : assemble groups tokens ls = some out) :
    ∃ k, Stand cs 0 out k := by
  induction hls generalizing groups tokens with
  | nil i =>
    rw [assemble] at h
    split at h
    · next hempty =>
      cases h
      rw [List.isEmpty_iff.1 hempty] at hopen
      exact ⟨i, hopen⟩
    · cases h
  | @cons i a b lexeme ls hle hab hb hspelled _ ih =>
    have hopen : OpenAt cs groups tokens a := hopen.mono hle
    have hat : ∀ {t : Token}, t.extent = ⟨reported (cs.take a), reported (cs.take b)⟩ →
        t.Spelled (between cs a b) ∨ IsComment (between cs a b) → t.At cs a b :=
      fun hextent hown => ⟨hab, hb, hextent, hown⟩
    cases lexeme with
    | gap => exact ih (hopen.mono hab) h
    | token make =>
      rcases hspelled ⟨reported (cs.take a), reported (cs.take b)⟩ with ⟨hown, hextent, hgroup⟩
      have hstand := Stand.singleton (hat hextent (.inl hown)) fun d us e h => absurd h (hgroup d us e)
      exact ih (hopen.push hstand) h
    | doc inner text =>
      have hstand := stand_docTokens (fun t ht => hat ht (.inr hspelled)) inner text
      have hpush := hopen.push hstand
      rw [List.reverse_reverse] at hpush
      exact ih hpush h
    | opening d =>
      have hlength := congrArg List.length hspelled
      rw [length_between hb, List.length_singleton] at hlength
      obtain rfl : b = a + 1 := by omega
      have hpush : OpenAt cs (⟨d, reported (cs.take a), tokens⟩ :: groups) [] (a + 1) :=
        ⟨a, rfl, hspelled, hopen, .nil (Nat.le_refl _)⟩
      exact ih hpush h
    | closing d =>
      cases groups with
      | nil => cases h
      | cons g outer =>
        rw [assemble] at h
        dsimp only at h
        split at h
        · next hd =>
          subst hd
          rcases hopen with ⟨a', hstart, hopening, houter, hinner⟩
          have hlt : a' < a := hinner.le
          have hgroup : Token.At cs a' b (.group g.delimiter tokens.reverse
              ⟨g.start, reported (cs.take b)⟩) := by
            refine ⟨by omega, hb, ?_, .inl (spelled_group hlt hopening hspelled hab)⟩
            rw [hstart]
            rfl
          have hstand := Stand.singleton hgroup (by
            rintro _ _ _ ⟨⟩
            exact (hinner.mono_right hab).mono (Nat.le_succ a'))
          exact ih (houter.push hstand) h
        · cases h

/-- The tokens of a text that is read from some place on. -/
theorem stand_of_lexFrom (done : List Char) {rest : List Char} {ls : List (Lexeme × Extent)} {out :
    List Token}
    (hlex : lexFrom 0 (reported done) [] rest = some ls) (h : assemble [] [] ls.reverse = some out) :
    ∃ k, Stand (done ++ rest) 0 out k := by
  rcases lexed_of_lexFrom rfl hlex with ⟨ls', rfl, hls⟩
  rw [List.append_nil, List.reverse_reverse] at h
  have hopen : OpenAt (done ++ rest) [] [] (done.length + 0) := Stand.nil (Nat.zero_le _)
  exact stand_of_assemble hls hopen h

end Trees

/-! ## Files -/

theorem lexFrom_newline (p : Position) (rest : List Char) :
    lexFrom 0 p [] ('\n' :: rest) = lexFrom 0 ⟨p.line + 1, 0⟩ [] rest := rfl

theorem eq_newline_of_dropWhile {cs rest : List Char} {c : Char}
    (h : cs.dropWhile (· != '\n') = c :: rest) : c = '\n' := by
  have hhead := List.head?_dropWhile_not (· != '\n') cs
  rw [h] at hhead
  simpa using hhead

/-- The line that names an interpreter counts as a line. -/
theorem stand_behind_interpreter {cs : List Char} {tokens : List Token}
    (h : lex? (cs.dropWhile (· != '\n')) = some tokens) : ∃ k, Stand ('#' :: '!' :: cs) 0 tokens k := by
  rcases Option.bind_eq_some_iff.1 h with ⟨ls, hlex, hassemble⟩
  cases hrest : cs.dropWhile (· != '\n') with
  | nil =>
    rw [hrest] at hlex
    cases hlex
    cases hassemble
    exact ⟨0, .nil (Nat.le_refl 0)⟩
  | cons c rest =>
    obtain rfl := eq_newline_of_dropWhile hrest
    have hline : '\n' ∉ '#' :: '!' :: cs.takeWhile (· != '\n') := by
      simp only [List.mem_cons, not_or]
      refine ⟨by decide, by decide, fun hmem => ?_⟩
      simpa using List.mem_takeWhile_imp hmem
    have hcs : '#' :: '!' :: cs = ('#' :: '!' :: cs.takeWhile (· != '\n')) ++ ['\n'] ++ rest := by
      rw [List.append_assoc, List.singleton_append, ← hrest, List.cons_append, List.cons_append,
        List.takeWhile_append_dropWhile]
    generalize '#' :: '!' :: cs.takeWhile (· != '\n') = line at hline hcs
    have hreported : reported (line ++ ['\n']) = ⟨2, 0⟩ := by
      rw [reported_concat, reported_of_not_mem hline]
      rfl
    rw [hrest, lexFrom_newline, ← hreported] at hlex
    rw [hcs]
    exact stand_of_lexFrom _ hlex hassemble

theorem dropInterpreter_cases (cs : List Char) : dropInterpreter cs = cs ∨
    ∃ rest, cs = '#' :: '!' :: rest ∧ dropInterpreter cs = rest.dropWhile (· != '\n') := by
  unfold dropInterpreter
  split
  · next rest =>
    split
    · exact .inl rfl
    · exact .inr ⟨rest, rfl, rfl⟩
  · exact .inl rfl

/-- The tokens of a source file stand in its text without the byte order mark. -/
theorem stand_of_fileTokens? {source : String} {tokens : List Token}
    (h : fileTokens? source = some tokens) : ∃ k, Stand (dropMark source.toList) 0 tokens k := by
  unfold fileTokens? at h
  generalize dropMark source.toList = cs at h ⊢
  rcases dropInterpreter_cases cs with hsame | ⟨rest, rfl, hdrop⟩
  · rw [hsame] at h
    split at h
    · next rest =>
      rcases Option.bind_eq_some_iff.1 h with ⟨ls, hlex, hassemble⟩
      exact stand_of_lexFrom ['\ufeff'] hlex hassemble
    · rcases Option.bind_eq_some_iff.1 h with ⟨ls, hlex, hassemble⟩
      exact stand_of_lexFrom [] hlex hassemble
  · rw [hdrop] at h
    split at h
    · next heq => cases eq_newline_of_dropWhile heq
    · exact stand_behind_interpreter h

end LintMend.Rust
