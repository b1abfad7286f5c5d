import LintMend.Rust.Reader
import Mathlib.Data.List.Forall2

/-!
# What readers take

A reader takes tokens from the front of those that are left, and the cursor then stands behind the
last one taken. `Reads us r post` says so of a reader that runs after the tokens `us` were taken: it
takes some more, and the condition holds of all of them together and of what is read. There is one
rule for each way in which readers are put together.

Readers whose result does not matter are sorted by classes, so that instances follow the text of a
reader: it looks ahead only, it may take tokens, or it takes at least one.
-/

namespace LintMend.Rust

/-- The tokens begin at the position, if there are any. -/
def Begin (p : Position) (ts : List Token) : Prop := ∀ t ∈ ts.head?, t.extent.start = p

/-- The tokens end at the position, if there are any. -/
def End (p : Position) (ts : List Token) : Prop := ∀ t ∈ ts.getLast?, t.extent.stop = p

theorem Begin.append {p : Position} {us vs : List Token} (h : Begin p us) (hne : us ≠ []) :
    Begin p (us ++ vs) := by
  rcases List.exists_cons_of_ne_nil hne with ⟨t, us, rfl⟩
  exact h

theorem Begin.of_append {p : Position} {us vs : List Token} (h : Begin p (us ++ vs)) : Begin p us := by
  cases us with
  | nil => simp [Begin]
  | cons t us => exact h

theorem End.of_append {p : Position} {us vs : List Token} (h : End p (us ++ vs)) : End p vs := by
  intro t ht
  apply h
  rw [List.getLast?_append, Option.mem_def.1 ht]
  rfl

namespace Cursor

/-- The tokens lead from one cursor to another. -/
structure Takes (c : Cursor) (ts : List Token) (c' : Cursor) : Prop where
  rest : c.rest = ts ++ c'.rest
  last : c'.last = (ts.getLast?.map (·.extent.stop)).getD c.last

theorem Takes.refl (c : Cursor) : c.Takes [] c := ⟨rfl, rfl⟩

theorem Takes.trans {c c' c'' : Cursor} {us vs : List Token} (h : c.Takes us c')
    (h' : c'.Takes vs c'') : c.Takes (us ++ vs) c'' where
  rest := by rw [h.rest, h'.rest, List.append_assoc]
  last := by
    rw [h'.last, h.last, List.getLast?_append]
    cases vs.getLast? <;> rfl

theorem Takes.end_last {c c' : Cursor} {us ts : List Token} (h : c.Takes ts c') (hend : End c.last us) :
    End c'.last (us ++ ts) := by
  intro t ht
  rw [h.last]
  rw [List.getLast?_append, Option.mem_def] at ht
  cases hts : ts.getLast? with
  | none =>
    rw [hts] at ht
    exact hend t ht
  | some t' =>
    rw [hts] at ht
    cases ht
    rfl

end Cursor

namespace Reader

variable {α β σ : Type}

/-- After the tokens `us` the reader takes some more, and the condition holds of all of them and of
what is read. -/
def Reads (us : List Token) (r : Reader α) (post : List Token → α → Prop) : Prop :=
  ∀ c a c', End c.last us → r c = some (a, c') → ∃ ts, c.Takes ts c' ∧ post (us ++ ts) a

/-! ## Rules -/

section Rules

variable {us vs : List Token} {r : Reader α} {f : α → Reader β} {p : List Token → α → Prop}
  {q : List Token → β → Prop}

theorem exists_of_bind {c c' : Cursor} {b : β} (h : (r >>= f) c = some (b, c')) :
    ∃ a d, r c = some (a, d) ∧ f a d = some (b, c') := by
  rcases Option.bind_eq_some_iff.1 h with ⟨⟨a, d⟩, hr, hf⟩
  exact ⟨a, d, hr, hf⟩

theorem Reads.pure {a : α} (h : p us a) : Reads us (pure a) p := by
  intro c b c' _ hr
  cases hr
  exact ⟨[], .refl c, by rwa [List.append_nil]⟩

theorem Reads.bind (h : Reads us r p) (hf : ∀ a ws, p ws a → Reads ws (f a) q) :
    Reads us (r >>= f) q := by
  intro c b c'' hend hrun
  rcases exists_of_bind hrun with ⟨a, c', hr, hrest⟩
  rcases h c a c' hend hr with ⟨ts, htakes, hp⟩
  rcases hf a _ hp c' b c'' (htakes.end_last hend) hrest with ⟨ts', htakes', hq⟩
  refine ⟨ts ++ ts', htakes.trans htakes', ?_⟩
  rwa [← List.append_assoc]

theorem Reads.mono {p' : List Token → α → Prop} (h : Reads us r p) (hp : ∀ ws a, p ws a → p' ws a) :
    Reads us r p' := by
  intro c a c' hend hr
  rcases h c a c' hend hr with ⟨ts, htakes, hpost⟩
  exact ⟨ts, htakes, hp _ a hpost⟩

/-- What a reader does does not depend on tokens taken long before. -/
theorem Reads.frame (h : Reads us r p) (vs : List Token) :
    Reads (vs ++ us) r fun ws a => ∃ ts, ws = vs ++ ts ∧ p ts a := by
  intro c a c' hend hr
  rcases h c a c' hend.of_append hr with ⟨ts, htakes, hpost⟩
  exact ⟨ts, htakes, us ++ ts, List.append_assoc vs us ts, hpost⟩

/-- A reader in the middle of another. -/
theorem Reads.call (h : Reads [] r p) (hf : ∀ a ts, p ts a → Reads (us ++ ts) (f a) q) :
    Reads us (r >>= f) q := by
  have hframe := h.frame us
  rw [List.append_nil] at hframe
  apply hframe.bind
  rintro a _ ⟨ts, rfl, hp⟩
  exact hf a ts hp

/-- A reader at the end of another. -/
theorem Reads.last {p' : List Token → α → Prop} (h : Reads [] r p)
    (hp : ∀ a ts, p ts a → p' (us ++ ts) a) : Reads us r p' := by
  have hframe := h.frame us
  rw [List.append_nil] at hframe
  apply hframe.mono
  rintro _ a ⟨ts, rfl, hpost⟩
  exact hp a ts hpost

theorem Reads.ite {c : Prop} [Decidable c] {x y : Reader α} (hx : Reads us x p) (hy : Reads us y p) :
    Reads us (if c then x else y) p := by
  split
  · exact hx
  · exact hy

theorem Reads.failure : Reads us (failure : Reader α) p := by
  intro c a c' _ hr
  cases hr

theorem Reads.map {g : α → β} (h : Reads us r fun ws a => q ws (g a)) : Reads us (g <$> r) q := by
  intro c b c' hend hr
  rcases Option.bind_eq_some_iff.1 hr with ⟨⟨a, d⟩, hr, hb⟩
  cases hb
  exact h c a c' hend hr

/-- The condition holds if the tokens taken after `us` begin at the position. -/
def Opened (us : List Token) (start : Position) (p : List Token → α → Prop) :
    List Token → α → Prop :=
  fun ws a => (∀ ts, ws = us ++ ts → Begin start ts) → p ws a

theorem Reads.here {f : Position → Reader β} (h : ∀ start, Reads us (f start) (Opened us start q)) :
    Reads us (here >>= f) q := by
  intro c b c'' hend hrun
  rcases exists_of_bind hrun with ⟨start, c', hr, hrest⟩
  have hhere : c' = c ∧ Begin start c.rest := by
    obtain ⟨rest, last, braced⟩ := c
    cases rest with
    | nil =>
      cases hr
      exact ⟨rfl, by simp [Begin]⟩
    | cons t rest =>
      cases hr
      exact ⟨rfl, by simp [Begin]⟩
  rcases hhere with ⟨rfl, hbegin⟩
  rcases h start c' b c'' hend hrest with ⟨ts, htakes, hq⟩
  refine ⟨ts, htakes, hq ?_⟩
  intro ts' hts'
  rw [← List.append_cancel_left hts']
  rw [htakes.rest] at hbegin
  exact hbegin.of_append

theorem Reads.since {start : Position} {f : Extent → Reader β}
    (h : ∀ stop, End stop us → Reads us (f ⟨start, stop⟩) q) : Reads us (since start >>= f) q := by
  intro c b c'' hend hrun
  rcases exists_of_bind hrun with ⟨e, c', hr, hrest⟩
  cases hr
  exact h c.last hend c b c'' hend hrest

/-- What is read only to look ahead is given back. -/
theorem Reads.peek {γ : Type} {f : Cursor → α → Cursor → Reader γ} {q : List Token → γ → Prop}
    (h : ∀ before a after, Reads us (f before a after) q) :
    Reads us (get >>= fun before => r >>= fun a => get >>= fun after =>
      set before >>= fun _ => f before a after) q := by
  intro c b c'' hend hrun
  rcases exists_of_bind hrun with ⟨before, _, hbefore, hrun⟩
  cases hbefore
  rcases exists_of_bind hrun with ⟨a, after, hr, hrun⟩
  rcases exists_of_bind hrun with ⟨_, _, hafter, hrun⟩
  cases hafter
  rcases exists_of_bind hrun with ⟨_, _, hset, hrun⟩
  cases hset
  exact h c a after c b c'' hend hrun

/-- A group whose tokens are used up. -/
theorem Reads.inside (d : Delimiter) (h : Reads [] r p) :
    Reads us (inside d r) fun ws a => ∃ inner e, ws = us ++ [.group d inner e] ∧ p inner a := by
  rintro ⟨rest, last, braced⟩ a c' _ hr
  cases rest with
  | nil => cases hr
  | cons t rest =>
    cases t with
    | group d' inner e =>
      simp only [Reader.inside] at hr
      split at hr
      · next hd =>
        subst hd
        split at hr
        · next a' last' braced' hinner =>
          cases hr
          rcases h _ _ _ (by simp [End]) hinner with ⟨ts, htakes, hp⟩
          obtain rfl : inner = ts := by
            rw [← List.append_nil ts]
            exact htakes.rest
          exact ⟨[.group d' inner e], ⟨rfl, rfl⟩, inner, e, rfl, hp⟩
        · cases hr
      · cases hr
    | _ => cases hr

theorem Reads.attempt (h : Reads us r p) :
    Reads us (attempt r) fun ws o => (∀ a ∈ o, p ws a) ∧ (o = none → ws = us) := by
  intro c o c' hend hrun
  rw [Reader.attempt] at hrun
  split at hrun
  · next a d hr =>
    cases hrun
    rcases h c a c' hend hr with ⟨ts, htakes, hp⟩
    refine ⟨ts, htakes, ?_, by simp⟩
    rintro _ ⟨⟩
    exact hp
  · cases hrun
    exact ⟨[], .refl c, by simp, fun _ => List.append_nil us⟩

/-- A loop keeps what each of its steps keeps. A step may need less than it gives. -/
theorem Reads.loop {step : σ → Reader (σ × Bool)} {p q : List Token → σ → Prop}
    (h : ∀ s ws, q ws s → Reads ws (step s) fun ws' s' => p ws' s'.1) (hpq : ∀ ws s, p ws s → q ws s)
    {s : σ} (hs : q us s) (fuel : Nat) : Reads us (loop step fuel s) p := by
  induction fuel generalizing s us with
  | zero => exact .failure
  | succ fuel ih =>
    rw [Reader.loop]
    apply (h s us hs).bind
    rintro ⟨s', more⟩ ws hs'
    exact .ite (ih (hpq ws s' hs')) (.pure hs')

theorem Reads.repeatedFrom {step : σ → Reader (σ × Bool)} {p q : List Token → σ → Prop} {s : σ}
    (hs : q us s) (hpq : ∀ ws s, p ws s → q ws s)
    (h : ∀ s ws, q ws s → Reads ws (step s) fun ws' s' => p ws' s'.1) : Reads us
    (repeated s step) p := by
  intro c a c' hend hr
  exact Reads.loop h hpq hs _ c a c' hend hr

theorem Reads.repeated {step : σ → Reader (σ × Bool)} {p : List Token → σ → Prop} {s : σ} (hs : p us s)
    (h : ∀ s ws, p ws s → Reads ws (step s) fun ws' s' => p ws' s'.1) : Reads us (repeated s step) p :=
  .repeatedFrom hs (fun _ _ hp => hp) h

end Rules

/-! ## Readers whose result does not matter -/

/-- The reader takes no token. -/
class Looks (r : Reader α) : Prop where
  same : ∀ c a c', r c = some (a, c') → c' = c

/-- The reader takes tokens, if any. -/
class Moves (r : Reader α) : Prop where
  reads : Reads [] r fun _ _ => True

/-- The reader takes at least one token. -/
class Eats (r : Reader α) : Prop where
  reads : Reads [] r fun ts _ => ts ≠ []

section Results

variable {us : List Token} {r : Reader α} {f : α → Reader β} {p : List Token → α → Prop}
  {q : List Token → β → Prop}

theorem Reads.look [Looks r] (h : ∀ a, Reads us (f a) q) : Reads us (r >>= f) q := by
  intro c b c'' hend hrun
  rcases exists_of_bind hrun with ⟨a, c', hr, hrest⟩
  rw [Looks.same c a c' hr] at hrest
  exact h a c b c'' hend hrest

theorem Reads.move [Moves r] (h : ∀ a ts, Reads (us ++ ts) (f a) q) : Reads us (r >>= f) q :=
  Moves.reads.call fun a ts _ => h a ts

theorem Reads.eat [Eats r] (h : ∀ a ts, ts ≠ [] → Reads (us ++ ts) (f a) q) : Reads us (r >>= f) q :=
  Eats.reads.call fun a ts hts => h a ts hts

theorem Reads.eats (h : Reads [] r p) (hp : ∀ ts a, p ts a → ts ≠ []) : Eats r := ⟨h.mono hp⟩

instance (priority := low) [Eats r] : Moves r := ⟨Eats.reads.mono fun _ _ _ => trivial⟩

instance (priority := low) [Looks r] : Moves r where
  reads := by
    intro c a c' _ hr
    rw [Looks.same c a c' hr]
    exact ⟨[], .refl c, trivial⟩

instance (a : α) : Looks (pure a : Reader α) where
  same := by
    intro c b c' hr
    cases hr
    rfl

instance (test : Ahead) : Looks (ahead test) where
  same := by
    intro c b c' hr
    cases hr
    rfl

instance (tests : List Ahead) : Looks (aheadAny tests) where
  same := by
    intro c b c' hr
    cases hr
    rfl

instance : Looks (get : Reader Cursor) where
  same := by
    intro c b c' hr
    cases hr
    rfl

instance : Looks (failure : Reader α) where
  same := by
    intro c b c' hr
    cases hr

instance [Looks r] [∀ a, Looks (f a)] : Looks (r >>= f) where
  same := by
    intro c b c'' hrun
    rcases exists_of_bind hrun with ⟨a, c', hr, hrest⟩
    rw [Looks.same c' b c'' hrest, Looks.same c a c' hr]

instance {c : Prop} [Decidable c] {x y : Reader α} [Looks x] [Looks y] :
    Looks (if c then x else y) where
  same := by
    split
    · exact Looks.same
    · exact Looks.same

instance (test : Ahead) : Looks (require test) := by
  unfold require
  infer_instance

instance [Moves r] [∀ a, Moves (f a)] : Moves (r >>= f) :=
  ⟨.move fun _ _ => Moves.reads.last fun _ _ _ => trivial⟩

instance {c : Prop} [Decidable c] {x y : Reader α} [Moves x] [Moves y] : Moves (if c then x else y) :=
  ⟨.ite Moves.reads Moves.reads⟩

instance {g : α → β} [Moves r] : Moves (g <$> r) := ⟨.map Moves.reads⟩

instance (d : Delimiter) [Moves r] : Eats (inside d r) where
  reads := by
    apply (Reads.inside d Moves.reads).mono
    rintro _ _ ⟨inner, e, rfl, -⟩
    simp

instance [Moves r] : Moves (attempt r) :=
  ⟨(Reads.attempt Moves.reads).mono fun _ _ _ => trivial⟩

instance (s : σ) (step : σ → Reader (σ × Bool)) [∀ s, Moves (step s)] : Moves (repeated s step) :=
  ⟨.repeated trivial fun _ _ _ => Moves.reads.last fun _ _ _ => trivial⟩

instance (priority := high) eats_bind_left [Eats r] [∀ a, Moves (f a)] : Eats (r >>= f) where
  reads := .eat fun _ ts hts => Moves.reads.last fun _ _ _ => by simp [hts]

instance eats_bind_right [Moves r] [∀ a, Eats (f a)] : Eats (r >>= f) where
  reads := .move fun _ ts => Eats.reads.last fun _ _ hts => by simp [hts]

instance {c : Prop} [Decidable c] {x y : Reader α} [Eats x] [Eats y] : Eats (if c then x else y) :=
  ⟨.ite Eats.reads Eats.reads⟩

instance : Eats (failure : Reader α) := ⟨.failure⟩

instance (s : σ) (step : σ → Reader (σ × Bool)) [∀ s, Eats (step s)] : Eats (repeated s step) where
  reads := by
    apply Reads.repeatedFrom (q := fun _ _ => True) trivial fun _ _ _ => trivial
    exact fun _ _ _ => Eats.reads.last fun _ _ hts => by simp [hts]

theorem reads_next (us : List Token) : Reads us next fun ws t => ws = us ++ [t] := by
  rintro ⟨rest, last, braced⟩ t c' _ hr
  cases rest with
  | nil => cases hr
  | cons t' rest =>
    cases hr
    exact ⟨[t], ⟨rfl, rfl⟩, rfl⟩

instance : Eats next := (reads_next []).eats fun ts t h => by simp [h]

instance (text : String) : Eats (word text) := by
  unfold word
  infer_instance

instance : Eats lifetime := by
  unfold lifetime
  infer_instance

theorem reads_anyWord (us : List Token) :
    Reads us anyWord fun ws name => ∃ e, ws = us ++ [.word name e] := by
  unfold anyWord
  apply (reads_next us).bind
  rintro t _ rfl
  cases t with
  | word name e => exact .pure ⟨e, rfl⟩
  | _ => exact .failure

instance : Eats anyWord := (reads_anyWord []).eats fun ts _ ⟨e, h⟩ => by simp [h]

theorem reads_identifier (us : List Token) :
    Reads us identifier fun ws name => ∃ e, ws = us ++ [.word name e] :=
  .look fun _ => reads_anyWord us

instance : Eats identifier := (reads_identifier []).eats fun ts _ ⟨e, h⟩ => by simp [h]

theorem reads_anyGroup (us : List Token) :
    Reads us anyGroup fun ws found => ∃ e, ws = us ++ [.group found.1 found.2 e] := by
  unfold anyGroup
  apply (reads_next us).bind
  rintro t _ rfl
  cases t with
  | group d inner e => exact .pure ⟨e, rfl⟩
  | _ => exact .failure

instance : Eats anyGroup := (reads_anyGroup []).eats fun ts _ ⟨e, h⟩ => by simp [h]

theorem of_require {test : Ahead} {c c' : Cursor} {u : Unit} (h : require test c = some (u, c')) :
    test c.rest = true := by
  rcases exists_of_bind h with ⟨b, d, hb, hrest⟩
  cases hb
  by_contra hno
  rw [Bool.not_eq_true] at hno
  rw [hno] at hrest
  cases hrest

/-- A reader that takes something or nothing, and says so. -/
class Tries (r : Reader Bool) : Prop where
  reads : Reads [] r fun ts taken => (taken = true → ts ≠ []) ∧ (taken = false → ts = [])

instance (r : Reader Bool) [Tries r] : Moves r := ⟨Tries.reads.mono fun _ _ _ => trivial⟩

theorem Reads.whether {r : Reader Bool} {x y : Reader β} [Tries r]
    (hx : ∀ ts, ts ≠ [] → Reads (us ++ ts) x q) (hy : Reads us y q) :
    Reads us (r >>= fun taken => if taken = true then x else y) q := by
  apply Tries.reads.call
  rintro taken ts ⟨htrue, hfalse⟩
  cases taken with
  | true => exact hx ts (htrue rfl)
  | false =>
    rw [hfalse rfl, List.append_nil]
    exact hy

theorem Reads.unless {r : Reader Bool} {x y : Reader β} [Tries r] (hx : Reads us x q)
    (hy : ∀ ts, ts ≠ [] → Reads (us ++ ts) y q) :
    Reads us (r >>= fun taken => if (!taken) = true then x else y) q := by
  apply Tries.reads.call
  rintro taken ts ⟨htrue, hfalse⟩
  cases taken with
  | true => exact hy ts (htrue rfl)
  | false =>
    rw [hfalse rfl, List.append_nil]
    exact hx

theorem tries_of_eats {test : Ahead} {r : Reader α} [Eats r] :
    Tries (ahead test >>= fun b => if b = true then r >>= fun _ => pure true else pure false) where
  reads := by
    apply Reads.look
    intro b
    refine .ite (.eat fun _ ts hts => .pure ?_) (.pure ?_)
    · simpa using hts
    · simp

instance (text : String) : Tries (optionalWord text) := tries_of_eats

instance : Tries optionalLifetime := tries_of_eats

/-! ## Signs -/

/-- The tokens are marks that spell the characters. -/
def Spell (chars : List Char) (ts : List Token) : Prop :=
  List.Forall₂ (fun c t => ∃ joint e, t = Token.mark c joint e) chars ts

theorem takes_takeMarks {chars : List Char} {c c' : Cursor} {u : Unit}
    (hahead : Ahead.signChars chars c.rest = true) (hr : takeMarks chars c = some (u, c')) :
    ∃ ts, c.Takes ts c' ∧ Spell chars ts ∧ ts ≠ [] := by
  induction chars generalizing c with
  | nil => cases hahead
  | cons d ds ih =>
    obtain ⟨rest, last, braced⟩ := c
    cases rest with
    | nil => cases ds <;> cases hahead
    | cons t rest =>
      rcases exists_of_bind hr with ⟨t', c₁, hnext, htake⟩
      cases hnext
      cases t with
      | mark m joint e =>
        cases ds with
        | nil =>
          obtain rfl : d = m := by simpa [Ahead.signChars] using hahead
          cases htake
          exact ⟨[.mark d joint e], ⟨rfl, rfl⟩, .cons ⟨joint, e, rfl⟩ .nil, by simp⟩
        | cons d' ds =>
          simp only [Ahead.signChars, Bool.and_eq_true, beq_iff_eq] at hahead
          obtain ⟨⟨rfl, -⟩, hahead⟩ := hahead
          rcases ih hahead htake with ⟨ts, htakes, hspell, -⟩
          have hfirst : Cursor.Takes ⟨.mark d joint e :: rest, last, braced⟩ [.mark d joint e]
              ⟨rest, e.stop, false⟩ := ⟨rfl, rfl⟩
          exact ⟨.mark d joint e :: ts, hfirst.trans htakes, .cons ⟨joint, e, rfl⟩ hspell, by simp⟩
      | _ => cases ds <;> cases hahead

theorem reads_sign (text : String) (us : List Token) :
    Reads us (sign text) fun ws _ => ∃ ts, ws = us ++ ts ∧ Spell text.toList ts ∧ ts ≠ [] := by
  intro c a c' _ hrun
  rcases exists_of_bind hrun with ⟨_, c₁, hrequire, htake⟩
  rw [Looks.same c _ c₁ hrequire] at htake
  rcases takes_takeMarks (of_require hrequire) htake with ⟨ts, htakes, hspell⟩
  exact ⟨ts, htakes, ts, rfl, hspell⟩

instance (text : String) : Eats (sign text) :=
  (reads_sign text []).eats fun ts _ ⟨us, h, _, hne⟩ => by simp [h, hne]

instance (text : String) : Tries (optionalSign text) where
  reads := by
    intro c taken c' hend hrun
    rcases exists_of_bind hrun with ⟨b, d, hb, hrest⟩
    cases hb
    cases hahead : Ahead.sign text c.rest with
    | false =>
      rw [hahead] at hrest
      cases hrest
      exact ⟨[], .refl c, by simp⟩
    | true =>
      rw [hahead] at hrest
      rcases exists_of_bind hrest with ⟨_, c₁, htake, hpure⟩
      cases hpure
      rcases takes_takeMarks hahead htake with ⟨ts, htakes, -, hne⟩
      exact ⟨ts, htakes, by simpa using hne⟩

/-! ## Lists -/

/-- One thing after the other: the tokens fall into pieces, one for each thing. -/
theorem Reads.until_ (stop : Ahead) (h : Reads [] r p) :
    Reads [] (until_ stop r) fun ts as => ∃ pieces, ts = pieces.flatten ∧ List.Forall₂ p pieces as := by
  unfold Reader.until_
  apply Reads.bind (p := fun ws found =>
    ∃ pieces, ws = pieces.flatten ∧ List.Forall₂ p pieces found.reverse)
  · apply Reads.repeated ⟨[], rfl, .nil⟩
    rintro found _ ⟨pieces, rfl, hfound⟩
    apply Reads.look
    intro b
    refine .ite (.pure ⟨pieces, rfl, hfound⟩) (h.call fun a ts ha => .pure ?_)
    refine ⟨pieces ++ [ts], by simp, ?_⟩
    rw [List.reverse_cons]
    exact List.rel_append hfound (.cons ha .nil)
  · rintro found _ hfound
    exact .pure hfound

/-- Things with signs between them: the tokens hold a piece for each thing. -/
theorem Reads.separated (separator : String) (stop : Ahead) (h : Reads [] r p) :
    Reads [] (separated separator stop r) fun ts as => ∀ a ∈ as, ∃ us, us <:+: ts ∧ p us a := by
  have hmore : ∀ {ws ts : List Token} {found : List α},
      (∀ a ∈ found, ∃ us, us <:+: ws ∧ p us a) → ∀ a ∈ found, ∃ us, us <:+: ws ++ ts ∧ p us a := by
    intro ws ts found hfound a ha
    rcases hfound a ha with ⟨us, hus, hp⟩
    exact ⟨us, hus.trans (List.infix_append' [] ws ts), hp⟩
  have hnew : ∀ {ws ts : List Token} {found : List α} {a : α},
      (∀ a ∈ found, ∃ us, us <:+: ws ∧ p us a) → p ts a →
        ∀ a' ∈ a :: found, ∃ us, us <:+: ws ++ ts ∧ p us a' := by
    intro ws ts found a hfound ha
    rw [List.forall_mem_cons]
    exact ⟨⟨ts, (List.suffix_append ws ts).isInfix, ha⟩, hmore hfound⟩
  unfold Reader.separated
  apply Reads.bind (p := fun ws found => ∀ a ∈ found, ∃ us, us <:+: ws ∧ p us a)
  · apply Reads.repeated (by simp)
    intro found ws hfound
    apply Reads.look
    intro b
    refine .ite (.pure hfound) (h.call fun a ts ha => .look fun b => ?_)
    refine .ite (.pure (hnew hfound ha)) (.eat fun _ vs _ => .pure ?_)
    exact hmore (hnew hfound ha)
  · intro found ws hfound
    apply Reads.pure
    simpa using hfound

instance [Moves r] (stop : Ahead) : Moves (until_ stop r) := by
  unfold Reader.until_
  infer_instance

instance [Moves r] (separator : String) (stop : Ahead) : Moves (separated separator stop r) := by
  unfold Reader.separated
  infer_instance

instance [Moves r] : Moves (commaList r) := by
  unfold commaList
  infer_instance

end Results

end Reader

end LintMend.Rust
