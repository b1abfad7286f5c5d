import LintMend.Toml.Reader
import LintMend.Toml.Writer
import Mathlib.Data.List.TakeWhile

/-!
# Quoted texts and keys

A text is written in one of five ways, and a key in one of three. Whichever is chosen, what is read
is the text again, whatever stands behind it, as long as this does not begin with one more quote.
-/

namespace LintMend.Toml

/-! ## Characters and escapes -/

theorem isPlain_of_not_control {c : Char} (h : isControl c = false) (hline : c ≠ '\n') :
    isPlain c = true := by
  by_cases htab : c = '\t'
  · simp [isPlain, isCommentChar, htab]
  · simp only [isControl, Bool.or_eq_false_iff, Bool.and_eq_false_iff, decide_eq_false_iff_not,
      beq_eq_false_iff_ne, bne_eq_false_iff_eq] at h
    simp only [isPlain, isCommentChar, Bool.or_eq_true, Bool.and_eq_true, decide_eq_true_eq,
      bne_iff_ne]
    have hsmall : ¬ c.toNat ≤ 0x1F := by
      rcases h.1 with (hsmall | rfl) | rfl
      · exact hsmall
      · exact absurd rfl htab
      · exact absurd rfl hline
    exact .inr ⟨by omega, h.2⟩

/-- Characters with which no line ends, and no white space in front of its end begins. -/
def isSolid (c : Char) : Bool := !isWhite c && c != '\n' && c != '\r'

theorem skipWhite_of_solid {c : Char} (h : isSolid c = true) (cs : List Char) :
    skipWhite (c :: cs) = c :: cs := by
  simp only [isSolid, Bool.and_eq_true, Bool.not_eq_true'] at h
  rw [skipWhite, List.dropWhile_cons_of_neg]
  simp [h.1.1]

theorem newline?_of_ne {c : Char} (hline : c ≠ '\n') (hreturn : c ≠ '\r') (cs : List Char) :
    newline? (c :: cs) = none := by
  unfold newline?
  split
  · next heq => exact absurd (List.cons.inj heq).1 hline
  · next heq => exact absurd (List.cons.inj heq).1 hreturn
  · rfl

theorem newline?_of_solid {c : Char} (h : isSolid c = true) (cs : List Char) :
    newline? (c :: cs) = none := by
  simp only [isSolid, Bool.and_eq_true, bne_iff_ne] at h
  exact newline?_of_ne h.1.2 h.2 cs

theorem ne_of_isPlain {c d : Char} (h : isPlain c = true) (hd : isPlain d = false) : c ≠ d := by
  rintro rfl
  simp [h] at hd

/-- The text behind a backslash is read as the character. -/
structure Escapes (c : Char) (tail : List Char) : Prop where
  read : ∀ rest, escape? (tail ++ rest) = some (c, rest)
  solid : ∃ d ds, tail = d :: ds ∧ isSolid d = true

theorem codePoint?_append {ds rest : List Char} {n : Nat} (hnumber : hexNumber? ds = some n)
    (hvalid : n.isValidChar) : codePoint? ds.length (ds ++ rest) = some (Char.ofNat n, rest) := by
  simp [codePoint?, hnumber, hvalid]

/-- The digits of a unicode escape. -/
def hexDigits (n : Nat) : List Char :=
  [n / 4096, n / 256, n / 16, n].map fun n => (Nat.digitChar (n % 16)).toUpper

theorem hexNumber?_hexDigits {n : Nat} (h : n < 128) : hexNumber? (hexDigits n) = some n := by
  revert n
  decide +kernel

theorem escapes_of_control {c : Char} (h : isControl c = true) :
    ∃ tail, unicodeEscape c = '\\' :: tail ∧ Escapes c tail := by
  have hsmall : c.toNat < 128 := by
    simp only [isControl, Bool.or_eq_true, Bool.and_eq_true, decide_eq_true_eq, beq_iff_eq] at h
    omega
  refine ⟨'u' :: hexDigits c.toNat, rfl, ?_, 'u', _, rfl, by decide⟩
  intro rest
  have hread := @codePoint?_append _ rest _ (hexNumber?_hexDigits hsmall) c.valid
  rw [Char.ofNat_toNat] at hread
  exact hread

/-- How a character other than a quote and a newline is written: as it is or as an escape. -/
theorem escapeFrom_cons {c : Char} (hquote : c ≠ '"') (hline : c ≠ '\n') (inBlock : Bool)
    (quotes : Nat) (cs : List Char) :
    (escapeFrom inBlock quotes (c :: cs) = c :: escapeFrom inBlock 0 cs ∧ isPlain c = true ∧
        c ≠ '\\') ∨
      ∃ tail, escapeFrom inBlock quotes (c :: cs) = '\\' :: tail ++ escapeFrom inBlock 0 cs ∧
        Escapes c tail := by
  have hletter : ∀ letter, (∀ rest, escape? (letter :: rest) = some (c, rest)) →
      isSolid letter = true → Escapes c [letter] :=
    fun letter hread hsolid => ⟨hread, letter, [], rfl, hsolid⟩
  rw [escapeFrom.eq_def]
  split
  · next heq => cases heq
  · next heq => exact absurd (List.cons.inj heq).1 hquote
  · next heq => exact absurd (List.cons.inj heq).1 hline
  · next heq =>
    cases heq
    split
    · exact .inr ⟨['b'], rfl, hletter 'b' (fun _ => rfl) (by decide)⟩
    · exact .inr ⟨['t'], rfl, hletter 't' (fun _ => rfl) (by decide)⟩
    · exact .inr ⟨['f'], rfl, hletter 'f' (fun _ => rfl) (by decide)⟩
    · exact .inr ⟨['r'], rfl, hletter 'r' (fun _ => rfl) (by decide)⟩
    · exact .inr ⟨['\\'], rfl, hletter '\\' (fun _ => rfl) (by decide)⟩
    · next hslash =>
      split
      · next hcontrol =>
        rcases escapes_of_control hcontrol with ⟨tail, htail, hescapes⟩
        exact .inr ⟨tail, by rw [htail], hescapes⟩
      · next hcontrol =>
        exact .inl ⟨rfl, isPlain_of_not_control (by simpa using hcontrol) hline, hslash⟩

/-! ## Texts in double quotes -/

theorem basicString?_of_plain {c : Char} (h : isPlain c = true) (hquote : c ≠ '"')
    (hslash : c ≠ '\\') (fuel : Nat) (done cs : List Char) :
    basicString? (fuel + 1) done (c :: cs) = basicString? fuel (c :: done) cs := by
  simp [basicString?, h, hquote, hslash]

theorem basicString?_of_escapes {c : Char} {tail : List Char} (h : Escapes c tail) (fuel : Nat)
    (done cs : List Char) :
    basicString? (fuel + 1) done ('\\' :: (tail ++ cs)) = basicString? fuel (c :: done) cs := by
  simp [basicString?, h.read cs]

theorem escapes_quote : Escapes '"' ['"'] := ⟨fun _ => rfl, '"', [], rfl, by decide⟩

theorem escapes_newline : Escapes '\n' ['n'] := ⟨fun _ => rfl, 'n', [], rfl, by decide⟩

/-- A text in double quotes is read to its end. Each character of it takes one unit of fuel. -/
theorem basicString?_escapeFrom (quotes fuel : Nat) (done cs rest : List Char)
    (h : cs.length < fuel) :
    basicString? fuel done (escapeFrom false quotes cs ++ '"' :: rest) =
      some (String.ofList (done.reverse ++ cs), rest) := by
  induction cs generalizing quotes fuel done with
  | nil =>
    cases fuel with
    | zero => cases h
    | succ fuel => simp [escapeFrom, basicString?]
  | cons c cs ih =>
    cases fuel with
    | zero => cases h
    | succ fuel =>
      have hread : ∀ quotes,
          basicString? fuel (c :: done) (escapeFrom false quotes cs ++ '"' :: rest) =
          some (String.ofList (done.reverse ++ c :: cs), rest) := by
        intro quotes
        rw [ih quotes fuel (c :: done) (Nat.lt_of_succ_lt_succ h)]
        simp
      by_cases hquote : c = '"'
      · subst hquote
        rw [← hread 0]
        exact basicString?_of_escapes escapes_quote fuel done _
      · by_cases hline : c = '\n'
        · subst hline
          rw [← hread 0]
          exact basicString?_of_escapes escapes_newline fuel done _
        · rw [← hread 0]
          rcases escapeFrom_cons hquote hline false quotes cs with
            ⟨hwritten, hplain, hslash⟩ | ⟨tail, hwritten, hescapes⟩
          · rw [hwritten]
            exact basicString?_of_plain hplain hquote hslash fuel done _
          · rw [hwritten, List.append_assoc]
            exact basicString?_of_escapes hescapes fuel done _

theorem length_le_escapeFrom (inBlock : Bool) (quotes : Nat) (cs : List Char) :
    cs.length ≤ (escapeFrom inBlock quotes cs).length := by
  induction cs generalizing quotes with
  | nil => simp
  | cons c cs ih =>
    have hrest := ih 0
    by_cases hquote : c = '"'
    · subst hquote
      have hnext := ih (quotes + 1)
      rw [escapeFrom]
      split <;> simp only [List.length_cons] <;> omega
    · by_cases hline : c = '\n'
      · subst hline
        rw [escapeFrom]
        split <;> simp only [List.length_append, List.length_cons, List.length_nil] <;> omega
      · rcases escapeFrom_cons hquote hline inBlock quotes cs with
          ⟨hwritten, -, -⟩ | ⟨tail, hwritten, -⟩
        · rw [hwritten]
          simpa using hrest
        · rw [hwritten]
          simp only [List.length_append, List.length_cons]
          omega

/-- The text in double quotes, with escapes. -/
def basic (cs : List Char) : List Char := '"' :: escapeFrom false 0 cs ++ ['"']

theorem basic_append (cs rest : List Char) :
    basic cs ++ rest = '"' :: (escapeFrom false 0 cs ++ '"' :: rest) := by
  simp [basic]

theorem basicString?_basic (cs rest : List Char) :
    basicString? ((escapeFrom false 0 cs ++ '"' :: rest).length + 1) []
      (escapeFrom false 0 cs ++ '"' :: rest) = some (String.ofList cs, rest) := by
  rw [basicString?_escapeFrom, List.reverse_nil, List.nil_append]
  have hlength := length_le_escapeFrom false 0 cs
  rw [List.length_append]
  omega

/-! ## Texts in single quotes -/

theorem literalString?_append {cs : List Char} (h : ∀ c ∈ cs, c ≠ '\'' ∧ isPlain c = true)
    (rest : List Char) : literalString? (cs ++ '\'' :: rest) = some (String.ofList cs, rest) := by
  have hall : ∀ c ∈ cs, (c != '\'' && isPlain c) = true := by
    intro c hc
    simp [h c hc]
  rw [literalString?, List.dropWhile_append_of_pos hall, List.takeWhile_append_of_pos hall]
  simp

/-! ## Texts in blocks -/

/-- The characters `cs` are written as `body` between three quotes, after so many quotes in a row. -/
inductive Block (quote : Char) : Nat → List Char → List Char → Prop
  | nil (quotes : Nat) : Block quote quotes [] []
  | quote {quotes : Nat} {cs body : List Char} (h : quotes < 2)
    (hrest : Block quote (quotes + 1) cs body) : Block quote quotes (quote :: cs) (quote :: body)
  | newline (quotes : Nat) {cs body : List Char} (hrest : Block quote 0 cs body) :
    Block quote quotes ('\n' :: cs) ('\n' :: body)
  | plain (quotes : Nat) {c : Char} {cs body : List Char} (hplain : isPlain c = true)
    (hquote : c ≠ quote) (hslash : c = '\\' → quote ≠ '"') (hrest : Block quote 0 cs body) :
    Block quote quotes (c :: cs) (c :: body)
  | escaped (quotes : Nat) {c : Char} {tail cs body : List Char} (h : Escapes c tail)
    (hdouble : quote = '"') (hrest : Block quote 0 cs body) :
    Block quote quotes (c :: cs) ('\\' :: (tail ++ body))

section Block

variable {quote : Char} {quotes : Nat} {cs body rest : List Char}

/-- The body of a block, its closing quotes and what follows. -/
def closed (quote : Char) (body rest : List Char) : List Char :=
  body ++ quote :: quote :: quote :: rest

/-- The quotes at the beginning of a block run up to its end, or they are few. -/
theorem Block.run (h : Block quote quotes cs body) (hquote : quote ≠ '\n' ∧ quote ≠ '\\')
    (hquotes : quotes ≤ 2) (rest : List Char) :
    (∃ k, cs = List.replicate k quote ∧ k + quotes ≤ 2 ∧
        closed quote body rest = List.replicate (k + 3) quote ++ rest) ∨
      ((closed quote body rest).takeWhile (· == quote)).length + quotes ≤ 2 := by
  induction h with
  | nil quotes => exact .inl ⟨0, rfl, by omega, rfl⟩
  | @quote quotes cs body hfew hbody ih =>
    rcases ih (by omega) with ⟨k, rfl, hk, hclosed⟩ | hshort
    · refine .inl ⟨k + 1, rfl, by omega, ?_⟩
      rw [closed, List.cons_append, ← closed, hclosed]
      rfl
    · refine .inr ?_
      rw [closed, List.cons_append, ← closed, List.takeWhile_cons_of_pos (by simp), List.length_cons]
      omega
  | newline quotes hbody ih => exact .inr (by simpa [closed, hquote.1.symm] using hquotes)
  | plain quotes hplain hother hslash hbody ih =>
    exact .inr (by simpa [closed, hother] using hquotes)
  | escaped quotes h hdouble hbody ih =>
    exact .inr (by simpa [closed, hquote.2.symm] using hquotes)

/-- Three quotes close a block, and up to two before them belong to it. -/
theorem blockString?_close (hquote : isSolid quote = true) (hrest : rest.head? ≠ some quote)
    {k : Nat} (hk : k ≤ 2) (fuel : Nat) (done : List Char) :
    blockString? quote (fuel + 1) done (List.replicate (k + 3) quote ++ rest) =
      some (String.ofList (done.reverse ++ List.replicate k quote), rest) := by
  have hrun : (List.replicate (k + 3) quote ++ rest).takeWhile (· == quote) =
      List.replicate (k + 3) quote := by
    rw [List.takeWhile_append_of_pos (by simp)]
    cases rest with
    | nil => simp
    | cons c rest =>
      have hc : c ≠ quote := fun heq => hrest (by simp [heq])
      simp [hc]
  have hnewline : newline? (List.replicate (k + 3) quote ++ rest) = none :=
    newline?_of_solid hquote _
  have hcons : List.replicate (k + 3) quote ++ rest =
      quote :: (List.replicate (k + 2) quote ++ rest) := rfl
  rw [blockString?.eq_def]
  simp only [hnewline]
  simp only [hcons, beq_self_eq_true, if_true]
  rw [← hcons, hrun, List.length_replicate, if_neg (by omega), if_pos (by omega),
    List.drop_left' (by simp), Nat.add_sub_cancel]
  simp

/-- Characters other than quotes, newlines and backslashes stand for themselves. -/
theorem blockString?_plain {c : Char} (hplain : isPlain c = true) (hother : c ≠ quote)
    (hslash : c = '\\' → quote ≠ '"') (fuel : Nat) (done cs : List Char) :
    blockString? quote (fuel + 1) done (c :: cs) = blockString? quote fuel (c :: done) cs := by
  have hnewline : newline? (c :: cs) = none :=
    newline?_of_ne (ne_of_isPlain hplain (by decide)) (ne_of_isPlain hplain (by decide)) cs
  have hescape : (c == '\\' && quote == '"') = false := by
    rw [Bool.and_eq_false_imp, beq_iff_eq, beq_eq_false_iff_ne]
    exact hslash
  rw [blockString?.eq_def]
  simp only [hnewline, hescape, hplain, beq_eq_false_iff_ne.2 hother, Bool.false_eq_true, if_false,
    if_true]

theorem blockString?_escaped {c : Char} {tail : List Char} (h : Escapes c tail) (fuel : Nat)
    (done cs : List Char) :
    blockString? '"' (fuel + 1) done ('\\' :: (tail ++ cs)) =
      blockString? '"' fuel (c :: done) cs := by
  rcases h.solid with ⟨d, ds, htail, hsolid⟩
  have hnewline : newline? ('\\' :: (tail ++ cs)) = none := newline?_of_solid (by decide) _
  have hline : newline? (skipWhite (tail ++ cs)) = none := by
    rw [htail, List.cons_append, skipWhite_of_solid hsolid, newline?_of_solid hsolid]
  rw [blockString?.eq_def]
  simp only [hnewline, hline, h.read cs]
  rfl

/-- A quote that is not one of three in a row stands for itself. -/
theorem blockString?_quote (hquote : isSolid quote = true) {cs : List Char}
    (hfew : (cs.takeWhile (· == quote)).length + 1 < 3) (fuel : Nat) (done : List Char) :
    blockString? quote (fuel + 1) done (quote :: cs) =
      blockString? quote fuel (quote :: done) cs := by
  have hnewline : newline? (quote :: cs) = none := newline?_of_solid hquote _
  have hrun : ((quote :: cs).takeWhile (· == quote)).length < 3 := by
    rw [List.takeWhile_cons_of_pos (by simp), List.length_cons]
    exact hfew
  rw [blockString?.eq_def]
  simp only [hnewline, beq_self_eq_true, if_true, hrun]

theorem blockString?_newline (fuel : Nat) (done cs : List Char) :
    blockString? quote (fuel + 1) done ('\n' :: cs) = blockString? quote fuel ('\n' :: done) cs := by
  rw [blockString?.eq_def]
  rfl

/-- A block is read to its end. -/
theorem Block.read (h : Block quote quotes cs body) (hquote : quote = '"' ∨ quote = '\'')
    (hquotes : quotes ≤ 2) (hrest : rest.head? ≠ some quote) {fuel : Nat} (hfuel : cs.length < fuel)
    (done : List Char) :
    blockString? quote fuel done (closed quote body rest) =
      some (String.ofList (done.reverse ++ cs), rest) := by
  have hsolid : isSolid quote = true := by
    rcases hquote with rfl | rfl <;> decide
  have hmark : quote ≠ '\n' ∧ quote ≠ '\\' := by
    rcases hquote with rfl | rfl <;> decide
  induction h generalizing fuel done with
  | nil quotes =>
    cases fuel with
    | zero => cases hfuel
    | succ fuel => simpa [closed] using blockString?_close hsolid hrest (Nat.zero_le 2) fuel done
  | @quote quotes cs body hfew hbody ih =>
    cases fuel with
    | zero => cases hfuel
    | succ fuel =>
      rcases (Block.quote hfew hbody).run hmark hquotes rest with ⟨k, hcs, hk, hclosed⟩ | hshort
      · rw [hclosed, hcs]
        exact blockString?_close hsolid hrest (by omega) fuel done
      · rw [closed, List.cons_append, ← closed] at hshort ⊢
        rw [List.takeWhile_cons_of_pos (by simp), List.length_cons] at hshort
        rw [blockString?_quote hsolid (by omega), ih (by omega) (Nat.lt_of_succ_lt_succ hfuel)]
        simp
  | newline quotes hbody ih =>
    cases fuel with
    | zero => cases hfuel
    | succ fuel =>
      rw [closed, List.cons_append, ← closed, blockString?_newline,
        ih (by omega) (Nat.lt_of_succ_lt_succ hfuel)]
      simp
  | plain quotes hplain hother hslash hbody ih =>
    cases fuel with
    | zero => cases hfuel
    | succ fuel =>
      rw [closed, List.cons_append, ← closed, blockString?_plain hplain hother hslash,
        ih (by omega) (Nat.lt_of_succ_lt_succ hfuel)]
      simp
  | escaped quotes h hdouble hbody ih =>
    cases fuel with
    | zero => cases hfuel
    | succ fuel =>
      subst hdouble
      rw [closed, List.cons_append, List.append_assoc, ← closed, blockString?_escaped h,
        ih (by omega) (Nat.lt_of_succ_lt_succ hfuel)]
      simp

/-- With escapes any text can be written between three double quotes. -/
theorem block_escapeFrom (cs : List Char) (h : quotes ≤ 2) :
    Block '"' quotes cs (escapeFrom true quotes cs) := by
  induction cs generalizing quotes with
  | nil => exact .nil quotes
  | cons c cs ih =>
    by_cases hquote : c = '"'
    · subst hquote
      rw [escapeFrom]
      by_cases hfew : quotes < 2
      · rw [if_pos (by simp [hfew])]
        exact .quote hfew (ih hfew)
      · rw [if_neg (by simp [hfew])]
        exact .escaped quotes escapes_quote rfl (ih (Nat.zero_le 2))
    · by_cases hline : c = '\n'
      · subst hline
        exact .newline quotes (ih (Nat.zero_le 2))
      · rcases escapeFrom_cons hquote hline true quotes cs with
          ⟨hwritten, hplain, hslash⟩ | ⟨tail, hwritten, hescapes⟩
        · rw [hwritten]
          exact .plain quotes hplain hquote (absurd · hslash) (ih (Nat.zero_le 2))
        · rw [hwritten]
          exact .escaped quotes hescapes rfl (ih (Nat.zero_le 2))

/-- One more character for the longest run. -/
def runStep (c : Char) (state : Nat × Nat) (d : Char) : Nat × Nat :=
  if d == c then (max state.1 (state.2 + 1), state.2 + 1) else (state.1, 0)

theorem le_foldl_runStep (c : Char) (cs : List Char) (state : Nat × Nat) :
    state.1 ≤ (cs.foldl (runStep c) state).1 := by
  induction cs generalizing state with
  | nil => exact le_rfl
  | cons d cs ih =>
    refine le_trans ?_ (ih _)
    rw [runStep]
    split
    · exact Nat.le_max_left _ _
    · exact le_rfl

theorem longestRun_eq (c : Char) (cs : List Char) :
    longestRun c cs = (cs.foldl (runStep c) (0, 0)).1 := rfl

theorem notMem_of_longestRun {c : Char} (h : longestRun c cs = 0) : c ∉ cs := by
  intro hmem
  rcases List.append_of_mem hmem with ⟨before, after, rfl⟩
  have hle := le_foldl_runStep c after (runStep c (before.foldl (runStep c) (0, 0)) c)
  rw [longestRun_eq, List.foldl_append, List.foldl_cons] at h
  rw [h, runStep, if_pos (by simp)] at hle
  have hpos := Nat.le_max_right (before.foldl (runStep c) (0, 0)).1
    ((before.foldl (runStep c) (0, 0)).2 + 1)
  omega

/-- Without escapes a text can be written between three single quotes if it has no control characters
and never three single quotes in a row. -/
theorem block_raw {best : Nat} (hplain : ∀ c ∈ cs, isControl c = false)
    (hrun : (cs.foldl (runStep '\'') (best, quotes)).1 ≤ 2) : Block '\'' quotes cs cs := by
  induction cs generalizing best quotes with
  | nil => exact .nil quotes
  | cons c cs ih =>
    rw [List.forall_mem_cons] at hplain
    rw [List.foldl_cons, runStep] at hrun
    dsimp only at hrun
    split at hrun
    · next hquote =>
      cases beq_iff_eq.1 hquote
      have hle := le_foldl_runStep '\'' cs (max best (quotes + 1), quotes + 1)
      dsimp only at hle
      exact .quote (by omega) (ih hplain.2 hrun)
    · next hquote =>
      by_cases hline : c = '\n'
      · subst hline
        exact .newline quotes (ih hplain.2 hrun)
      · exact .plain quotes (isPlain_of_not_control hplain.1 hline) (by simpa using hquote)
          (fun _ => by decide) (ih hplain.2 hrun)

theorem Block.length_le (h : Block quote quotes cs body) : cs.length ≤ body.length := by
  induction h with
  | nil => exact le_rfl
  | quote _ _ ih => exact Nat.succ_le_succ ih
  | newline _ _ ih => exact Nat.succ_le_succ ih
  | plain _ _ _ _ _ ih => exact Nat.succ_le_succ ih
  | escaped _ _ _ _ ih =>
    simp only [List.length_cons, List.length_append]
    omega

theorem Block.newline?_closed (h : Block quote quotes cs body) (hquote : isSolid quote = true)
    (hline : '\n' ∉ cs) (rest : List Char) : newline? (closed quote body rest) = none := by
  cases h with
  | nil => exact newline?_of_solid hquote _
  | quote => exact newline?_of_solid hquote _
  | newline => exact absurd List.mem_cons_self hline
  | plain _ hplain =>
    exact newline?_of_ne (ne_of_isPlain hplain (by decide)) (ne_of_isPlain hplain (by decide)) _
  | escaped => exact newline?_of_solid (by decide) _

/-- A block is read after its opening quotes, with a newline in front if it has newlines. -/
theorem Block.block? (h : Block quote 0 cs body) (hquote : quote = '"' ∨ quote = '\'')
    (hrest : rest.head? ≠ some quote) :
    block? quote ((if cs.contains '\n' then ['\n'] else []) ++ closed quote body rest) =
      some (String.ofList cs, rest) := by
  have hsolid : isSolid quote = true := by
    rcases hquote with rfl | rfl <;> decide
  have hlength : cs.length < (closed quote body rest).length := by
    have hle := h.length_le
    simp only [closed, List.length_cons, List.length_append]
    omega
  have hread := fun {fuel : Nat} (hfuel : cs.length < fuel) =>
    h.read hquote (Nat.zero_le 2) hrest hfuel []
  rw [Toml.block?]
  split
  · rw [List.singleton_append, newline?, Option.getD_some, List.length_cons, hread (by omega)]
    rfl
  · next hline =>
    rw [List.nil_append, h.newline?_closed hsolid (by simpa using hline), Option.getD_none,
      hread (by omega)]
    rfl

theorem toList_inBlock (quote : Char) (hasNewline : Bool) (body rest : List Char) :
    (inBlock quote hasNewline body).toList ++ rest =
      quote :: quote :: quote :: ((if hasNewline then ['\n'] else []) ++ closed quote body rest) := by
  simp [inBlock, closed, List.replicate]

theorem anyString?_inBlock (h : Block quote 0 cs body) (hquote : quote = '"' ∨ quote = '\'')
    (hrest : rest.head? ≠ some quote) :
    anyString? ((inBlock quote (cs.contains '\n') body).toList ++ rest) =
      some (String.ofList cs, rest) := by
  rw [toList_inBlock, ← h.block? hquote hrest]
  rcases hquote with rfl | rfl <;> rfl

end Block

/-! ## Texts and keys of any kind -/

/-- Two quotes in front of something else are not an opening of three. -/
theorem escapeFrom_ne_quotes (cs : List Char) {rest : List Char} (h : rest.head? ≠ some '"')
    (more : List Char) : escapeFrom false 0 cs ++ '"' :: rest ≠ '"' :: '"' :: more := by
  intro heq
  cases cs with
  | nil =>
    cases heq
    exact h rfl
  | cons c cs =>
    by_cases hquote : c = '"'
    · subst hquote
      cases heq
    · by_cases hline : c = '\n'
      · subst hline
        cases heq
      · rcases escapeFrom_cons hquote hline false 0 cs with ⟨hwritten, -, -⟩ | ⟨tail, hwritten, -⟩
        · rw [hwritten] at heq
          exact hquote (List.cons.inj heq).1
        · rw [hwritten] at heq
          cases heq

theorem anyString?_basic (cs : List Char) {rest : List Char} (h : rest.head? ≠ some '"') :
    anyString? (basic cs ++ rest) = some (String.ofList cs, rest) := by
  rw [basic_append, ← basicString?_basic cs rest]
  have hopen := escapeFrom_ne_quotes cs h
  generalize escapeFrom false 0 cs ++ '"' :: rest = tail at hopen
  unfold anyString?
  split
  · next more heq => exact absurd (List.cons.inj heq).2 (hopen more)
  · next heq => cases heq
  · next heq =>
    cases heq
    rfl
  · next heq => cases heq
  · next _ _ hdouble _ => exact absurd rfl (hdouble tail)

theorem anyString?_literal {cs : List Char} (hcs : ∀ c ∈ cs, c ≠ '\'' ∧ isPlain c = true)
    {rest : List Char} (h : rest.head? ≠ some '\'') :
    anyString? ('\'' :: (cs ++ '\'' :: rest)) = some (String.ofList cs, rest) := by
  have hopen : ∀ more, cs ++ '\'' :: rest ≠ '\'' :: '\'' :: more := by
    intro more heq
    cases cs with
    | nil =>
      cases heq
      exact h rfl
    | cons c cs => exact (hcs c List.mem_cons_self).1 (List.cons.inj heq).1
  rw [← literalString?_append hcs rest]
  generalize cs ++ '\'' :: rest = tail at hopen
  unfold anyString?
  split
  · next heq => cases heq
  · next more heq => exact absurd (List.cons.inj heq).2 (hopen more)
  · next heq => cases heq
  · next heq =>
    cases heq
    rfl
  · next _ _ _ hsingle => exact absurd rfl (hsingle tail)

/-- A text is read back, however it is written. -/
theorem anyString?_quoteText (s : String) {rest : List Char} (hdouble : rest.head? ≠ some '"')
    (hsingle : rest.head? ≠ some '\'') :
    anyString? ((quoteText s).toList ++ rest) = some (s, rest) := by
  have hbasic : anyString? ((String.ofList ('"' :: escapeFrom false 0 s.toList ++ ['"'])).toList ++
      rest) = some (s, rest) := by
    rw [String.toList_ofList]
    simpa [basic] using anyString?_basic s.toList hdouble
  have hblock : anyString? ((inBlock '"' (s.toList.contains '\n')
      (escapeFrom true 0 s.toList)).toList ++ rest) = some (s, rest) := by
    simpa using anyString?_inBlock (block_escapeFrom s.toList (Nat.zero_le 2)) (.inl rfl) hdouble
  unfold quoteText
  dsimp only
  split
  · exact hbasic
  · split
    · next hliteral =>
      simp only [Bool.and_eq_true, Bool.not_eq_true', List.any_eq_false, beq_iff_eq] at hliteral
      have hcs : ∀ c ∈ s.toList, c ≠ '\'' ∧ isPlain c = true := by
        intro c hc
        refine ⟨?_, isPlain_of_not_control ?_ ?_⟩
        · rintro rfl
          exact notMem_of_longestRun hliteral.1.2 hc
        · simpa using hliteral.1.1 c hc
        · rintro rfl
          simp [hc] at hliteral
      simpa using anyString?_literal hcs hsingle
    · split
      · exact hblock
      · split
        · next hraw =>
          simp only [Bool.and_eq_true, Bool.not_eq_true', List.any_eq_false,
            decide_eq_true_eq] at hraw
          have hcs : ∀ c ∈ s.toList, isControl c = false := by
            intro c hc
            simpa using hraw.1 c hc
          simpa using anyString?_inBlock (block_raw hcs hraw.2) (.inr rfl) hsingle
        · split
          · exact hblock
          · exact hbasic

/-- The first character of a key. -/
def isKeyStart (c : Char) : Bool := isBare c || c == '"' || c == '\''

theorem exists_quoteKey (s : String) :
    ∃ c cs, (quoteKey s).toList = c :: cs ∧ isKeyStart c = true := by
  unfold quoteKey
  dsimp only
  split
  · next hbare =>
    cases hs : s.toList with
    | nil => simp [hs] at hbare
    | cons c cs =>
      simp only [hs, List.isEmpty_cons, List.all_cons, Bool.not_false, Bool.true_and,
        Bool.and_eq_true] at hbare
      refine ⟨c, cs, rfl, ?_⟩
      simp only [isKeyStart, isBare, hbare.1, Bool.true_or]
  · split
    · exact ⟨'"', _, String.toList_ofList, by decide⟩
    · split
      · exact ⟨'\'', _, String.toList_ofList, by decide⟩
      · exact ⟨'"', _, String.toList_ofList, by decide⟩

theorem simpleKey?_bare {cs rest : List Char} (hne : cs ≠ []) (hbare : cs.all isBare = true)
    (hrest : ∀ c ∈ rest.head?, isBare c = false) :
    simpleKey? (cs ++ rest) = some (String.ofList cs, rest) := by
  have hall : ∀ c ∈ cs, isBare c = true := List.all_eq_true.1 hbare
  have hkey : (cs ++ rest).takeWhile isBare = cs ∧ (cs ++ rest).dropWhile isBare = rest := by
    rw [List.takeWhile_append_of_pos hall, List.dropWhile_append_of_pos hall]
    cases rest with
    | nil => simp
    | cons d rest => simp [hrest d rfl]
  cases cs with
  | nil => exact absurd rfl hne
  | cons c cs =>
    have hc := hall c List.mem_cons_self
    rw [List.cons_append] at hkey ⊢
    unfold simpleKey?
    split
    · next heq =>
      cases heq
      simp [isBare] at hc
    · next heq =>
      cases heq
      simp [isBare] at hc
    · rw [hkey.1, hkey.2]

/-- A key is read back, however it is written. -/
theorem simpleKey?_quoteKey (s : String) {rest : List Char}
    (hrest : ∀ c ∈ rest.head?, isBare c = false) :
    simpleKey? ((quoteKey s).toList ++ rest) = some (s, rest) := by
  have hbasic : simpleKey? ((String.ofList ('"' :: escapeFrom false 0 s.toList ++ ['"'])).toList ++
      rest) = some (s, rest) := by
    have hread := basicString?_basic s.toList rest
    rw [String.ofList_toList] at hread
    rw [String.toList_ofList, ← hread]
    simp [simpleKey?]
  unfold quoteKey
  dsimp only
  split
  · next hbare =>
    simp only [Bool.and_eq_true, Bool.not_eq_true', List.isEmpty_eq_false_iff] at hbare
    simpa using simpleKey?_bare hbare.1 hbare.2 hrest
  · split
    · exact hbasic
    · split
      · next hliteral =>
        simp only [Bool.and_eq_true, Bool.not_eq_true', List.any_eq_false, Bool.or_eq_true,
          beq_iff_eq, not_or] at hliteral
        have hcs : ∀ c ∈ s.toList, c ≠ '\'' ∧ isPlain c = true := by
          intro c hc
          refine ⟨?_, isPlain_of_not_control ?_ (hliteral.1 c hc).2⟩
          · rintro rfl
            simp [hc] at hliteral
          · simpa using (hliteral.1 c hc).1
        have hread := literalString?_append hcs rest
        rw [String.ofList_toList] at hread
        rw [String.toList_ofList, ← hread]
        simp [simpleKey?]
      · exact hbasic

/-! ## Dotted keys -/

/-- A path as it is written. -/
def pathText (path : List String) : List Char := (".".intercalate (path.map quoteKey)).toList

theorem pathText_singleton (key : String) : pathText [key] = (quoteKey key).toList := by
  simp [pathText]

theorem pathText_cons_cons (key next : String) (path : List String) :
    pathText (key :: next :: path) = (quoteKey key).toList ++ '.' :: pathText (next :: path) := by
  simp [pathText, String.toList_intercalate]

theorem exists_pathText {path : List String} (h : path ≠ []) :
    ∃ c cs, pathText path = c :: cs ∧ isKeyStart c = true := by
  match path, h with
  | [key], _ =>
    rw [pathText_singleton]
    exact exists_quoteKey key
  | key :: next :: path, _ =>
    rcases exists_quoteKey key with ⟨c, cs, hkey, hc⟩
    rw [pathText_cons_cons, hkey]
    exact ⟨c, _, rfl, hc⟩

theorem ne_of_isKeyStart {c d : Char} (h : isKeyStart c = true) (hd : isKeyStart d = false) :
    c ≠ d := by
  rintro rfl
  simp [h] at hd

theorem isSolid_of_isKeyStart {c : Char} (h : isKeyStart c = true) : isSolid c = true := by
  have hne : ∀ d, isKeyStart d = false → c ≠ d := fun d => ne_of_isKeyStart h
  simp [isSolid, isWhite, hne ' ' (by decide), hne '\t' (by decide), hne '\n' (by decide),
    hne '\r' (by decide)]

/-- What stands behind a key: no more of it, and no dot. -/
structure EndsKey (rest : List Char) : Prop where
  notBare : ∀ c ∈ rest.head?, isBare c = false
  notDotted : ∀ more, skipWhite rest ≠ '.' :: more

/-- The parts of a path are read back, and the white space behind it is skipped. -/
theorem keyParts?_pathText {path : List String} (hpath : path ≠ []) {rest : List Char}
    (hrest : EndsKey rest) {fuel : Nat} (hfuel : path.length ≤ fuel) :
    keyParts? fuel (pathText path ++ rest) = some (path, skipWhite rest) := by
  induction path generalizing fuel with
  | nil => exact absurd rfl hpath
  | cons key path ih =>
    cases fuel with
    | zero => cases hfuel
    | succ fuel =>
      rcases exists_pathText (List.cons_ne_nil key path) with ⟨c, cs, htext, hc⟩
      have hskip : skipWhite (pathText (key :: path) ++ rest) = pathText (key :: path) ++ rest := by
        rw [htext]
        exact skipWhite_of_solid (isSolid_of_isKeyStart hc) _
      rw [keyParts?, hskip]
      cases path with
      | nil =>
        rw [pathText_singleton, simpleKey?_quoteKey key hrest.notBare]
        dsimp only
        split
        · next more heq => exact absurd heq (hrest.notDotted more)
        · rfl
      | cons next path =>
        have hdot : ∀ c ∈ ('.' :: (pathText (next :: path) ++ rest)).head?, isBare c = false := by
          rintro c ⟨⟩
          decide
        rw [pathText_cons_cons, List.append_assoc, List.cons_append, simpleKey?_quoteKey key hdot]
        have hwhite : skipWhite ('.' :: (pathText (next :: path) ++ rest)) =
            '.' :: (pathText (next :: path) ++ rest) := skipWhite_of_solid (by decide) _
        simp only [hwhite, ih (List.cons_ne_nil next path) (Nat.le_of_succ_le_succ hfuel),
          Option.map_some]

theorem length_le_pathText (path : List String) : path.length ≤ (pathText path).length + 1 := by
  induction path with
  | nil => exact Nat.zero_le _
  | cons key path ih =>
    cases path with
    | nil => simp
    | cons next path =>
      rw [pathText_cons_cons]
      simp only [List.length_append, List.length_cons] at ih ⊢
      omega

theorem skipWhite_append {white : List Char} (h : ∀ c ∈ white, isWhite c = true) (cs : List Char) :
    skipWhite (white ++ cs) = skipWhite cs :=
  List.dropWhile_append_of_pos h

theorem keyParts?_append {white : List Char} (h : ∀ c ∈ white, isWhite c = true) (fuel : Nat)
    (cs : List Char) : keyParts? fuel (white ++ cs) = keyParts? fuel cs := by
  cases fuel with
  | zero => rfl
  | succ fuel => rw [keyParts?, keyParts?, skipWhite_append h]

/-- A dotted key is read back, unless it has too many parts. White space may stand in front of it. -/
theorem key?_pathText {white : List Char} (hwhite : ∀ c ∈ white, isWhite c = true)
    {path : List String} {key : String} (hpath : path.length + 1 < depthLimit) {rest : List Char}
    (hrest : EndsKey rest) :
    key? (white ++ (pathText (path ++ [key]) ++ rest)) = some ((path, key), skipWhite rest) := by
  have hne : path ++ [key] ≠ [] := by simp
  have hfuel : (path ++ [key]).length ≤
      (white ++ (pathText (path ++ [key]) ++ rest)).length + 1 := by
    have hlength := length_le_pathText (path ++ [key])
    simp only [List.length_append] at hlength ⊢
    omega
  rw [key?, keyParts?_append hwhite, keyParts?_pathText hne hrest hfuel]
  simp [hpath]

theorem key?_quoteKey {white : List Char} (hwhite : ∀ c ∈ white, isWhite c = true) (key : String)
    {rest : List Char} (hrest : EndsKey rest) :
    key? (white ++ ((quoteKey key).toList ++ rest)) = some (([], key), skipWhite rest) := by
  have hread := @key?_pathText white hwhite [] key (by decide) rest hrest
  rwa [List.nil_append, pathText_singleton] at hread

end LintMend.Toml
