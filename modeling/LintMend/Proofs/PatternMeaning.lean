import LintMend.Text.Pattern
import Mathlib.Data.List.Basic

/-!
# What patterns mean

A pattern is run by trying its ways one after the other. Here all ways are listed in their order, and
running the pattern is going through that list. A way exists exactly if the pattern fits the part of
the text that the way passes, where fitting is said without any order: by parts of the text, with the
character before the part and the text after it at hand for the edges of words.

A search takes the first of the ways at the leftmost place that has any. Searching again behind what
was found gives the successive matches of a text.
-/

namespace LintMend.Text

namespace Pattern

/-! ## Ways -/

/-- The places after characters that pass the test, the farthest first. The rest of the text is given
beside the place; `needed` characters are still missing. -/
def waysMany (test : Char → Bool) (p : Place) (needed : Nat) : List Char → List Place
  | [] => if needed = 0 then [{ p with rest := [] }] else []
  | c :: cs =>
    (if test c then
      waysMany test { p with before := some c, count := p.count + 1 } (needed - 1) cs
    else []) ++ if needed = 0 then [{ p with rest := c :: cs }] else []

/-- All places to which the pattern leads, in the order in which they are tried. -/
def ways : Pattern → Place → List Place
  | .empty, p => [p]
  | .one test, p => if p.rest.head?.any test then p.next?.toList else []
  | .many least test, p => waysMany test p least p.rest
  | .wordEdge, p => if p.isWordEdge then [p] else []
  | .seq first second, p => (first.ways p).flatMap second.ways
  | .alt first second, p => first.ways p ++ second.ways p
  | .group index inner, p =>
    (inner.ways p).map fun q => { q with groups := (index, p.count, q.count) :: q.groups }

theorem runMany_eq_findSome? {β : Type} (test : Char → Bool) (k : Place → Option β) (p : Place)
    (needed : Nat) (cs : List Char) :
    runMany test k p needed cs = (waysMany test p needed cs).findSome? k := by
  induction cs generalizing p needed with
  | nil =>
    rw [runMany, waysMany]
    split <;> simp
  | cons c cs ih =>
    rw [runMany, waysMany, ih, List.findSome?_append]
    by_cases htest : test c = true
    · simp only [htest, if_true]
      cases (waysMany test { p with before := some c, count := p.count + 1 } (needed - 1) cs).findSome?
        k with
      | some result => rfl
      | none =>
        simp only [Option.none_or]
        split <;> simp
    · simp only [htest, Bool.false_eq_true, if_false, List.findSome?_nil, Option.none_or]
      split <;> simp

theorem findSome?_flatMap {α β γ : Type} (f : α → List β) (k : β → Option γ) (as : List α) :
    (as.flatMap f).findSome? k = as.findSome? fun a => (f a).findSome? k := by
  induction as with
  | nil => rfl
  | cons a as ih =>
    rw [List.flatMap_cons, List.findSome?_append, List.findSome?_cons, ih]
    cases (f a).findSome? k <;> rfl

/-- Running a pattern is going through its ways up to the first success. -/
theorem run_eq_findSome? {β : Type} (pattern : Pattern) (k : Place → Option β) (p : Place) :
    pattern.run k p = (pattern.ways p).findSome? k := by
  induction pattern generalizing k p with
  | empty => simp [run, ways]
  | one test =>
    cases hrest : p.rest with
    | nil => simp [run, ways, hrest]
    | cons c cs =>
      by_cases htest : test c = true
      · simp [run, ways, hrest, htest, Place.next?]
      · simp [run, ways, hrest, htest]
  | many least test => exact runMany_eq_findSome? test k p least p.rest
  | wordEdge =>
    by_cases hedge : p.isWordEdge = true
    · simp [run, ways, hedge]
    · simp [run, ways, hedge]
  | seq first second ihfirst ihsecond =>
    have hsecond : second.run k = fun q => (second.ways q).findSome? k := by
      funext q
      exact ihsecond k q
    rw [run, ways, ihfirst, hsecond, findSome?_flatMap]
  | alt first second ihfirst ihsecond =>
    rw [run, ways, ihfirst, ihsecond, List.findSome?_append, Option.orElse_eq_or]
  | group index inner ih =>
    rw [run, ways, ih, List.findSome?_map]
    rfl

/-! ## Fitting -/

/-- The pattern fits a part of a text, with the character before the part and the text after it. -/
def Fits : Pattern → Option Char → List Char → List Char → Prop
  | .empty, _, part, _ => part = []
  | .one test, _, part, _ => ∃ c, part = [c] ∧ test c = true
  | .many least test, _, part, _ => least ≤ part.length ∧ ∀ c ∈ part, test c = true
  | .wordEdge, before, part, after =>
    part = [] ∧ (before.any isWordChar != after.head?.any isWordChar) = true
  | .seq first second, before, part, after =>
    ∃ a b, part = a ++ b ∧ first.Fits before a (b ++ after) ∧
      second.Fits (a.getLast?.or before) b after
  | .alt first second, before, part, after =>
    first.Fits before part after ∨ second.Fits before part after
  | .group _ inner, before, part, after => inner.Fits before part after

section Fitting

variable {before : Option Char} {part after : List Char}

theorem fits_all_cons {p : Pattern} {ps : List Pattern} :
    (all (p :: ps)).Fits before part after ↔ ∃ a b, part = a ++ b ∧ p.Fits before a (b ++ after) ∧
      (all ps).Fits (a.getLast?.or before) b after :=
  Iff.rfl

theorem fits_char {c : Char} : (char c).Fits before part after ↔ part = [c] := by
  constructor
  · rintro ⟨d, rfl, hd⟩
    rw [beq_iff_eq.1 hd]
  · rintro rfl
    exact ⟨c, rfl, beq_self_eq_true c⟩

theorem fits_literal {s : String} : (literal s).Fits before part after ↔ part = s.toList := by
  rw [literal]
  generalize s.toList = cs
  induction cs generalizing before part with
  | nil => exact Iff.rfl
  | cons c cs ih =>
    rw [List.map_cons, fits_all_cons]
    constructor
    · rintro ⟨a, b, rfl, ha, hb⟩
      rw [fits_char.1 ha, ih.1 hb]
      rfl
    · rintro rfl
      exact ⟨[c], cs, rfl, fits_char.2 rfl, ih.2 rfl⟩

theorem fits_blanks : blanks.Fits before part after ↔ ∀ c ∈ part, isBlank c = true :=
  and_iff_right (Nat.zero_le _)

theorem fits_any {ps : List Pattern} :
    (any ps).Fits before part after ↔ ∃ p ∈ ps, p.Fits before part after := by
  induction ps with
  | nil =>
    constructor
    · rintro ⟨c, -, hc⟩
      cases hc
    · rintro ⟨p, hp, -⟩
      cases hp
  | cons p ps ih =>
    cases ps with
    | nil => simp [any]
    | cons q ps =>
      change p.Fits before part after ∨ (any (q :: ps)).Fits before part after ↔ _
      rw [ih]
      simp only [List.mem_cons, exists_eq_or_imp]

/-- A sequence does not fit nothing if one of its members does not. -/
theorem not_fits_nil_all {ps : List Pattern} {p : Pattern} (hp : p ∈ ps)
    (hsolid : ∀ before after, ¬ p.Fits before [] after) : ¬ (all ps).Fits before [] after := by
  induction ps generalizing before with
  | nil => cases hp
  | cons q ps ih =>
    rw [fits_all_cons]
    rintro ⟨a, b, hparts, hq, hps⟩
    rcases List.append_eq_nil_iff.1 hparts.symm with ⟨rfl, rfl⟩
    cases hp with
    | head => exact hsolid _ _ hq
    | tail _ hmem => exact ih hmem hps

end Fitting

/-- The way from one place to another passes the given part of the text. -/
structure Passes (p : Place) (part : List Char) (q : Place) : Prop where
  rest : p.rest = part ++ q.rest
  before : q.before = part.getLast?.or p.before
  count : q.count = p.count + part.length

theorem Passes.refl (p : Place) : Passes p [] p := ⟨rfl, rfl, rfl⟩

theorem Passes.trans {p q r : Place} {a b : List Char} (h : Passes p a q) (h' : Passes q b r) :
    Passes p (a ++ b) r where
  rest := by rw [h.rest, h'.rest, List.append_assoc]
  before := by rw [h'.before, h.before, List.getLast?_append, Option.or_assoc]
  count := by rw [h'.count, h.count, List.length_append, Nat.add_assoc]

theorem exists_passes_of_mem_waysMany {test : Char → Bool} {p q : Place} {needed : Nat}
    {cs : List Char} (h : q ∈ waysMany test p needed cs) :
    ∃ part, cs = part ++ q.rest ∧ q.before = part.getLast?.or p.before ∧
      q.count = p.count + part.length ∧ needed ≤ part.length ∧ ∀ c ∈ part, test c = true := by
  induction cs generalizing p needed with
  | nil =>
    rw [waysMany] at h
    split at h
    · next hneeded =>
      obtain rfl := List.mem_singleton.1 h
      exact ⟨[], rfl, rfl, rfl, by simp [hneeded], by simp⟩
    · simp at h
  | cons c cs ih =>
    rw [waysMany, List.mem_append] at h
    rcases h with h | h
    · split at h
      · next htest =>
        rcases ih h with ⟨part, hcs, hbefore, hcount, hneeded, hall⟩
        refine ⟨c :: part, by rw [hcs]; rfl, ?_, ?_, ?_, List.forall_mem_cons.2 ⟨htest, hall⟩⟩
        · rw [hbefore]
          cases part <;> simp [List.getLast?_cons]
        · rw [hcount, List.length_cons]
          change p.count + 1 + part.length = p.count + (part.length + 1)
          omega
        · rw [List.length_cons]
          omega
      · simp at h
    · split at h
      · next hneeded =>
        obtain rfl := List.mem_singleton.1 h
        exact ⟨[], rfl, rfl, rfl, by simp [hneeded], by simp⟩
      · simp at h

theorem exists_mem_waysMany {test : Char → Bool} (p : Place) {needed : Nat} {part : List Char}
    (after : List Char) (hneeded : needed ≤ part.length) (hall : ∀ c ∈ part, test c = true) :
    ∃ q ∈ waysMany test p needed (part ++ after), q.rest = after := by
  induction part generalizing p needed with
  | nil =>
    obtain rfl : needed = 0 := Nat.le_zero.1 hneeded
    cases after with
    | nil => exact ⟨{ p with rest := [] }, by simp [waysMany], rfl⟩
    | cons c cs => exact ⟨{ p with rest := c :: cs }, by simp [waysMany], rfl⟩
  | cons c part ih =>
    rcases List.forall_mem_cons.1 hall with ⟨htest, hall⟩
    have hless : needed - 1 ≤ part.length := by
      rw [List.length_cons] at hneeded
      omega
    rcases ih { p with before := some c, count := p.count + 1 } hless hall with ⟨q, hq, hrest⟩
    refine ⟨q, ?_, hrest⟩
    rw [List.cons_append, waysMany, if_pos htest]
    exact List.mem_append_left _ hq

/-- A way passes a part of the text that the pattern fits. -/
theorem exists_passes_of_mem_ways {pattern : Pattern} {p q : Place} (h : q ∈ pattern.ways p) :
    ∃ part, Passes p part q ∧ pattern.Fits p.before part q.rest := by
  induction pattern generalizing p q with
  | empty =>
    obtain rfl := List.mem_singleton.1 h
    exact ⟨[], .refl q, rfl⟩
  | one test =>
    rw [ways] at h
    split at h
    · next htest =>
      rw [Place.next?] at h
      cases hrest : p.rest with
      | nil => simp [hrest] at h
      | cons c cs =>
        simp only [hrest, Option.toList_some, List.mem_singleton] at h
        subst h
        rw [hrest] at htest
        exact ⟨[c], ⟨hrest, rfl, rfl⟩, c, rfl, htest⟩
    · simp at h
  | many least test =>
    rcases exists_passes_of_mem_waysMany h with ⟨part, hrest, hbefore, hcount, hleast, hall⟩
    exact ⟨part, ⟨hrest, hbefore, hcount⟩, hleast, hall⟩
  | wordEdge =>
    rw [ways] at h
    split at h
    · next hedge =>
      obtain rfl := List.mem_singleton.1 h
      exact ⟨[], .refl q, rfl, hedge⟩
    · simp at h
  | seq first second ihfirst ihsecond =>
    rcases List.mem_flatMap.1 h with ⟨r, hr, hq⟩
    rcases ihfirst hr with ⟨a, hpassA, hfitA⟩
    rcases ihsecond hq with ⟨b, hpassB, hfitB⟩
    rw [hpassB.rest] at hfitA
    rw [hpassA.before] at hfitB
    exact ⟨a ++ b, hpassA.trans hpassB, a, b, rfl, hfitA, hfitB⟩
  | alt first second ihfirst ihsecond =>
    rcases List.mem_append.1 h with h | h
    · rcases ihfirst h with ⟨part, hpass, hfit⟩
      exact ⟨part, hpass, .inl hfit⟩
    · rcases ihsecond h with ⟨part, hpass, hfit⟩
      exact ⟨part, hpass, .inr hfit⟩
  | group index inner ih =>
    rcases List.mem_map.1 h with ⟨r, hr, rfl⟩
    rcases ih hr with ⟨part, hpass, hfit⟩
    exact ⟨part, ⟨hpass.rest, hpass.before, hpass.count⟩, hfit⟩

/-- There is a way past every part of the text that the pattern fits. -/
theorem exists_mem_ways {pattern : Pattern} {p : Place} {part after : List Char}
    (hrest : p.rest = part ++ after) (h : pattern.Fits p.before part after) :
    ∃ q ∈ pattern.ways p, q.rest = after := by
  induction pattern generalizing p part after with
  | empty =>
    obtain rfl : part = [] := h
    exact ⟨p, List.mem_singleton_self p, hrest⟩
  | one test =>
    rcases h with ⟨c, rfl, htest⟩
    have hways : ways (.one test) p = [⟨some c, after, p.count + 1, p.groups⟩] := by
      simp [ways, hrest, htest, Place.next?]
    exact ⟨_, hways ▸ List.mem_singleton_self _, rfl⟩
  | many least test =>
    rw [ways, hrest]
    exact exists_mem_waysMany p after h.1 h.2
  | wordEdge =>
    rcases h with ⟨rfl, hedge⟩
    rw [List.nil_append] at hrest
    have hways : ways .wordEdge p = [p] := by
      rw [ways, Place.isWordEdge, hrest, if_pos hedge]
    exact ⟨p, hways ▸ List.mem_singleton_self p, hrest⟩
  | seq first second ihfirst ihsecond =>
    rcases h with ⟨a, b, rfl, hfitA, hfitB⟩
    rw [List.append_assoc] at hrest
    rcases ihfirst hrest hfitA with ⟨r, hr, hrestR⟩
    rcases exists_passes_of_mem_ways hr with ⟨a', hpass, -⟩
    have hsame : a' = a := by
      have hparts := hpass.rest.symm.trans hrest
      rw [hrestR] at hparts
      exact List.append_cancel_right hparts
    subst hsame
    rw [← hpass.before] at hfitB
    rcases ihsecond hrestR hfitB with ⟨q, hq, hrestQ⟩
    exact ⟨q, List.mem_flatMap.2 ⟨r, hr, hq⟩, hrestQ⟩
  | alt first second ihfirst ihsecond =>
    rcases h with h | h
    · rcases ihfirst hrest h with ⟨q, hq, hrestQ⟩
      exact ⟨q, List.mem_append_left _ hq, hrestQ⟩
    · rcases ihsecond hrest h with ⟨q, hq, hrestQ⟩
      exact ⟨q, List.mem_append_right _ hq, hrestQ⟩
  | group index inner ih =>
    rcases ih hrest h with ⟨q, hq, hrestQ⟩
    exact ⟨_, List.mem_map.2 ⟨q, hq, rfl⟩, hrestQ⟩

/-! ## Searching -/

/-- A match: where it begins, and the place behind it with the groups that were passed. -/
structure Match where
  start : Nat
  after : Place

/-- The text of a group of the match in the whole text; empty if the group was not passed. -/
def Match.group (m : Match) (cs : List Char) (index : Nat) : List Char :=
  match m.after.groups.find? (·.1 == index) with
  | some (_, start, stop) => (cs.drop start).take (stop - start)
  | none => []

def firstFrom (pattern : Pattern) (before : Option Char) (count : Nat) : List Char → Option Match
  | [] => (pattern.ways ⟨before, [], count, []⟩).head?.map (Match.mk count)
  | c :: cs =>
    match (pattern.ways ⟨before, c :: cs, count, []⟩).head? with
    | some after => some ⟨count, after⟩
    | none => pattern.firstFrom (some c) (count + 1) cs

/-- The first way of the pattern at the leftmost place, from the given one on, that has any. -/
def first? (pattern : Pattern) (p : Place) : Option Match :=
  pattern.firstFrom p.before p.count p.rest

theorem run_some (pattern : Pattern) (p : Place) : pattern.run some p = (pattern.ways p).head? := by
  rw [run_eq_findSome?]
  cases pattern.ways p <;> rfl

theorem searchFrom_eq (pattern : Pattern) (before : Option Char) (count : Nat) (cs : List Char) :
    pattern.searchFrom before count cs = (pattern.firstFrom before count cs).map Match.after := by
  induction cs generalizing before count with
  | nil =>
    rw [searchFrom, firstFrom, run_some, Option.map_map]
    exact Option.map_id'.symm
  | cons c cs ih =>
    rw [searchFrom, firstFrom, run_some, ih]
    cases (pattern.ways ⟨before, c :: cs, count, []⟩).head? <;> rfl

theorem search?_eq (pattern : Pattern) (cs : List Char) :
    pattern.search? cs = (pattern.first? (.ofText cs)).map fun m => m.group cs := by
  rw [search?, searchFrom_eq, Option.map_map]
  rfl

/-- The place behind a piece of the text, with no groups passed. -/
def placeAfter (before : Option Char) (count : Nat) (front rest : List Char) : Place :=
  ⟨front.getLast?.or before, rest, count + front.length, []⟩

theorem placeAfter_cons (before : Option Char) (count : Nat) (c : Char) (front rest : List Char) :
    placeAfter before count (c :: front) rest = placeAfter (some c) (count + 1) front rest := by
  have hlast : (c :: front).getLast?.or before = front.getLast?.or (some c) := by
    cases front <;> simp [List.getLast?_cons]
  rw [placeAfter, placeAfter, hlast, List.length_cons]
  congr 1
  omega

/-- A search finds nothing if no place has a way, and else what the first place that has one leads
to. -/
theorem firstFrom_cases (pattern : Pattern) (before : Option Char) (count : Nat) (cs : List Char) :
    (pattern.firstFrom before count cs = none ∧ ∀ front rest, cs = front ++ rest →
        pattern.ways (placeAfter before count front rest) = []) ∨
      ∃ front rest after, cs = front ++ rest ∧
        (pattern.ways (placeAfter before count front rest)).head? = some after ∧
        pattern.firstFrom before count cs = some ⟨count + front.length, after⟩ ∧
        ∀ front' rest', cs = front' ++ rest' → front'.length < front.length →
          pattern.ways (placeAfter before count front' rest') = [] := by
  induction cs generalizing before count with
  | nil =>
    have hplace : placeAfter before count [] [] = ⟨before, [], count, []⟩ := rfl
    rw [firstFrom]
    cases hhead : (pattern.ways ⟨before, [], count, []⟩).head? with
    | none =>
      refine .inl ⟨rfl, ?_⟩
      intro front rest hparts
      rcases List.append_eq_nil_iff.1 hparts.symm with ⟨rfl, rfl⟩
      rw [hplace]
      exact List.head?_eq_none_iff.1 hhead
    | some after => exact .inr ⟨[], [], after, rfl, hhead, rfl, by simp⟩
  | cons c cs ih =>
    have hplace : placeAfter before count [] (c :: cs) = ⟨before, c :: cs, count, []⟩ := rfl
    rw [firstFrom]
    cases hhead : (pattern.ways ⟨before, c :: cs, count, []⟩).head? with
    | some after => exact .inr ⟨[], c :: cs, after, rfl, hhead, rfl, by simp⟩
    | none =>
      have hhere : pattern.ways (placeAfter before count [] (c :: cs)) = [] :=
        List.head?_eq_none_iff.1 hhead
      rcases ih (some c) (count + 1) with ⟨hnone, hways⟩ |
        ⟨front, rest, after, rfl, hfirst, hsome, hways⟩
      · refine .inl ⟨hnone, ?_⟩
        intro front rest hparts
        cases front with
        | nil =>
          rw [List.nil_append] at hparts
          rw [← hparts]
          exact hhere
        | cons d front =>
          rcases List.cons.inj hparts with ⟨rfl, hrest⟩
          rw [placeAfter_cons]
          exact hways front rest hrest
      · refine .inr ⟨c :: front, rest, after, rfl, ?_, ?_, ?_⟩
        · rw [placeAfter_cons]
          exact hfirst
        · have hcount : count + 1 + front.length = count + (c :: front).length := by
            rw [List.length_cons]
            omega
          rw [hsome, hcount]
        · intro front' rest' hparts hless
          cases front' with
          | nil =>
            rw [List.nil_append] at hparts
            rw [← hparts]
            exact hhere
          | cons d front' =>
            rcases List.cons.inj hparts with ⟨rfl, hrest⟩
            rw [placeAfter_cons]
            exact hways front' rest' hrest (Nat.lt_of_succ_lt_succ hless)

/-- A pattern occurs in a text exactly if it fits a part of it. -/
theorem occurs_iff {pattern : Pattern} {cs : List Char} :
    pattern.occurs cs = true ↔ ∃ front part back, cs = front ++ (part ++ back) ∧
      pattern.Fits front.getLast? part back := by
  have hlast : ∀ front : List Char, front.getLast?.or none = front.getLast? := by simp
  rw [occurs, searchFrom_eq, Option.isSome_map]
  rcases firstFrom_cases pattern none 0 cs with ⟨hnone, hways⟩ |
    ⟨front, rest, after, rfl, hfirst, hsome, -⟩
  · rw [hnone]
    constructor
    · intro h
      cases h
    · rintro ⟨front, part, back, rfl, hfits⟩
      rw [← hlast] at hfits
      rcases exists_mem_ways (p := placeAfter none 0 front (part ++ back)) rfl hfits with ⟨q, hq, -⟩
      rw [hways front (part ++ back) rfl] at hq
      cases hq
  · rw [hsome]
    refine iff_of_true rfl ?_
    rcases exists_passes_of_mem_ways (List.mem_of_head? hfirst) with ⟨part, hpass, hfits⟩
    refine ⟨front, part, after.rest, ?_, ?_⟩
    · rw [← hpass.rest]
      rfl
    · rw [← hlast]
      exact hfits

/-! ## Successive matches -/

/-- The matches are all that the pattern has from the place on: each is the first one behind the one
before it, and none overlaps another. -/
inductive Successive (pattern : Pattern) : Place → List Match → Prop
  | done {p : Place} (h : pattern.first? p = none) : Successive pattern p []
  | next {p : Place} {m : Match} {later : List Match} (h : pattern.first? p = some m)
    (hstart : p.count ≤ m.start) (hafter : m.start < m.after.count)
    (hlater : Successive pattern m.after later) : Successive pattern p (m :: later)

def successiveFrom (pattern : Pattern) : Nat → Place → List Match
  | 0, _ => []
  | fuel + 1, p =>
    match pattern.first? p with
    | some m => m :: pattern.successiveFrom fuel m.after
    | none => []

/-- The successive matches of a pattern that never fits nothing. -/
def successive (pattern : Pattern) (cs : List Char) : List Match :=
  pattern.successiveFrom (cs.length + 1) (.ofText cs)

theorem exists_of_first? {pattern : Pattern} {p : Place} {m : Match} (h : pattern.first? p = some m) :
    ∃ front part, p.rest = front ++ (part ++ m.after.rest) ∧ m.start = p.count + front.length ∧
      m.after.count = m.start + part.length ∧
      pattern.Fits (front.getLast?.or p.before) part m.after.rest := by
  rcases firstFrom_cases pattern p.before p.count p.rest with ⟨hnone, -⟩ |
    ⟨front, rest, after, hrest, hfirst, hsome, -⟩
  · rw [first?, hnone] at h
    cases h
  · rw [first?, hsome] at h
    cases h
    rcases exists_passes_of_mem_ways (List.mem_of_head? hfirst) with ⟨part, hpass, hfits⟩
    refine ⟨front, part, ?_, rfl, hpass.count, hfits⟩
    rw [hrest, ← hpass.rest]
    rfl

theorem successive_successiveFrom {pattern : Pattern}
    (hsolid : ∀ before after, ¬ pattern.Fits before [] after) {fuel : Nat} {p : Place}
    (hfuel : p.rest.length < fuel) : Successive pattern p (pattern.successiveFrom fuel p) := by
  induction fuel generalizing p with
  | zero => exact absurd hfuel (Nat.not_lt_zero _)
  | succ fuel ih =>
    rw [successiveFrom]
    cases hfirst : pattern.first? p with
    | none => exact .done hfirst
    | some m =>
      rcases exists_of_first? hfirst with ⟨front, part, hrest, hstart, hafter, hfits⟩
      have hpart : part ≠ [] := by
        rintro rfl
        exact hsolid _ _ hfits
      have hlength := List.length_pos_iff.2 hpart
      have hless : m.after.rest.length < p.rest.length := by
        rw [hrest, List.length_append, List.length_append]
        omega
      exact .next hfirst (by omega) (by omega) (ih (by omega))

/-- A pattern that never fits nothing has its successive matches listed. -/
theorem successive_successive {pattern : Pattern}
    (hsolid : ∀ before after, ¬ pattern.Fits before [] after) (cs : List Char) :
    Successive pattern (.ofText cs) (pattern.successive cs) :=
  successive_successiveFrom hsolid (Nat.lt_succ_self cs.length)

/-- The first of the successive matches is what a search finds. -/
theorem head?_successive (pattern : Pattern) (cs : List Char) :
    (pattern.successive cs).head? = pattern.first? (.ofText cs) := by
  rw [successive, successiveFrom]
  cases pattern.first? (.ofText cs) <;> rfl

end Pattern

end LintMend.Text
