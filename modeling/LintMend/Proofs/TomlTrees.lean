import LintMend.Proofs.TomlNumbers
import Mathlib.Data.List.Nodup
import Mathlib.Data.String.Basic

/-!
# Trees as they are read

What is read has its keys in order and each once, its integers fit 64 bits, and its dates are in their
usual spelling. Tables under construction have each key once from the beginning, and so do the tables
that come of them.
-/

namespace LintMend.Toml

/-! ## Entries -/

section Entries

variable {α : Type} {entries entries' : List (String × α)} {key : String}

/-- The keys are in order, each once. -/
def Ascending (entries : List (String × α)) : Prop := entries.Pairwise fun a b => a.1 < b.1

theorem ascending_iff : Ascending entries ↔ (entries.map (·.1)).Pairwise (· < ·) :=
  List.pairwise_map.symm

theorem Ascending.nodup (h : Ascending entries) : (entries.map (·.1)).Nodup := by
  rw [List.Nodup, List.pairwise_map]
  exact h.imp ne_of_lt

theorem ascending_sortEntries (h : (entries.map (·.1)).Nodup) : Ascending (sortEntries entries) := by
  have hsorted : (sortEntries entries).Pairwise fun a b => decide (a.1 ≤ b.1) = true := by
    apply List.pairwise_mergeSort
    · intro a b c hab hbc
      rw [decide_eq_true_eq] at hab hbc ⊢
      exact hab.trans hbc
    · intro a b
      rw [Bool.or_eq_true, decide_eq_true_eq, decide_eq_true_eq]
      exact le_total a.1 b.1
  have hdistinct : ((sortEntries entries).map (·.1)).Nodup :=
    (((List.mergeSort_perm entries _).map _).nodup_iff).2 h
  rw [List.Nodup, List.pairwise_map] at hdistinct
  refine (hsorted.and hdistinct).imp ?_
  rintro a b ⟨hle, hne⟩
  exact lt_of_le_of_ne (of_decide_eq_true hle) hne

/-- Sorting finds the one order in which the keys ascend. -/
theorem sortEntries_eq (h : entries.Perm entries') (hsorted : Ascending entries') :
    sortEntries entries = entries' := by
  have hdistinct : (entries.map (·.1)).Nodup := ((h.map _).nodup_iff).2 hsorted.nodup
  refine List.Perm.eq_of_pairwise (fun a b _ _ hab hba => absurd hab hba.asymm)
    (ascending_sortEntries hdistinct) hsorted ?_
  exact (List.mergeSort_perm entries _).trans h

theorem lookup?_eq_none_iff : lookup? entries key = none ↔ key ∉ entries.map (·.1) := by
  rw [lookup?, Option.map_eq_none_iff, List.find?_eq_none]
  constructor
  · intro h hmem
    rcases List.mem_map.1 hmem with ⟨e, he, rfl⟩
    exact h e he (beq_self_eq_true e.1)
  · intro h e he hkey
    exact h (List.mem_map.2 ⟨e, he, beq_iff_eq.1 hkey⟩)

theorem mem_of_lookup? {a : α} (h : lookup? entries key = some a) : (key, a) ∈ entries := by
  rcases Option.map_eq_some_iff.1 h with ⟨⟨key', a'⟩, hfound, rfl⟩
  have hkey := List.find?_some hfound
  rw [beq_iff_eq] at hkey
  exact hkey ▸ List.mem_of_find?_eq_some hfound

end Entries

/-! ## Trees -/

/-- A tree as it is read. -/
inductive Proper : Toml → Prop
  | string (s : String) : Proper (.string s)
  | integer {n : Int} (h : -signedLimit ≤ n ∧ n < signedLimit) : Proper (.integer n)
  | float (x : Double) : Proper (.float x)
  | boolean (b : Bool) : Proper (.boolean b)
  | datetime {s : String} (h : Canonical s) : Proper (.datetime s)
  | array {items : List Toml} (h : ∀ v ∈ items, Proper v) : Proper (.array items)
  | table {entries : List (String × Toml)} (hkeys : Ascending entries)
    (h : ∀ e ∈ entries, Proper e.2) : Proper (.table entries)

namespace Draft

/-- What is put together has each key once, and its values are proper. -/
inductive Proper : Draft → Prop
  | value {v : Toml} (h : v.Proper) : Proper (.value v)
  | table {passing dotted : Bool} {entries : List (String × Draft)}
    (hkeys : (entries.map (·.1)).Nodup) (h : ∀ e ∈ entries, Proper e.2) :
    Proper (.table passing dotted entries)
  | tables {items : List (List (String × Draft))}
    (hkeys : ∀ entries ∈ items, (entries.map (·.1)).Nodup)
    (h : ∀ entries ∈ items, ∀ e ∈ entries, Proper e.2) : Proper (.tables items)

/-- The entries of a proper table. -/
structure ProperEntries (entries : List (String × Draft)) : Prop where
  keys : (entries.map (·.1)).Nodup
  drafts : ∀ e ∈ entries, e.2.Proper

theorem entriesToToml_eq_map (entries : List (String × Draft)) :
    entriesToToml entries = entries.map fun e => (e.1, e.2.toToml) := by
  induction entries with
  | nil => rfl
  | cons e entries ih => rw [entriesToToml, ih, List.map_cons]

theorem itemsToToml_eq_map (items : List (List (String × Draft))) :
    itemsToToml items = items.map fun entries => .table (sortEntries (entriesToToml entries)) := by
  induction items with
  | nil => rfl
  | cons entries items ih => rw [itemsToToml, ih, List.map_cons]

theorem keys_entriesToToml (entries : List (String × Draft)) :
    (entriesToToml entries).map (·.1) = entries.map (·.1) := by
  rw [entriesToToml_eq_map, List.map_map]
  rfl

/-- The table of entries whose values are proper is proper. -/
theorem proper_table_of {entries : List (String × Draft)} (hkeys : (entries.map (·.1)).Nodup)
    (h : ∀ e ∈ entries, e.2.toToml.Proper) :
    Toml.Proper (.table (sortEntries (entriesToToml entries))) := by
  refine .table (ascending_sortEntries (by rwa [keys_entriesToToml])) ?_
  intro e he
  rw [sortEntries, List.mem_mergeSort, entriesToToml_eq_map] at he
  rcases List.mem_map.1 he with ⟨e', he', rfl⟩
  exact h e' he'

theorem Proper.toToml {d : Draft} (h : d.Proper) : d.toToml.Proper := by
  induction h with
  | value h => exact h
  | table hkeys _ ih =>
    rw [Draft.toToml]
    exact proper_table_of hkeys ih
  | tables hkeys _ ih =>
    rw [Draft.toToml, itemsToToml_eq_map]
    refine .array ?_
    intro v hv
    rcases List.mem_map.1 hv with ⟨entries, hentries, rfl⟩
    exact proper_table_of (hkeys entries hentries) (ih entries hentries)

theorem ProperEntries.toToml {entries : List (String × Draft)} (h : ProperEntries entries) :
    Toml.Proper (.table (sortEntries (entriesToToml entries))) :=
  proper_table_of h.keys fun e he => (h.drafts e he).toToml

/-! ## Putting tables together -/

variable {entries : List (String × Draft)} {key : String} {d : Draft}

theorem set_of_notMem (h : key ∉ entries.map (·.1)) (d : Draft) :
    set key d entries = entries ++ [(key, d)] := by
  induction entries with
  | nil => rfl
  | cons e entries ih =>
    rw [List.map_cons, List.mem_cons, not_or] at h
    rw [set, if_neg (by simpa using Ne.symm h.1), ih h.2, List.cons_append]

theorem keys_set_of_mem (h : key ∈ entries.map (·.1)) (d : Draft) :
    (set key d entries).map (·.1) = entries.map (·.1) := by
  induction entries with
  | nil => cases h
  | cons e entries ih =>
    rw [set]
    split
    · next hkey => rw [List.map_cons, List.map_cons, beq_iff_eq.1 hkey]
    · next hkey =>
      have hrest : key ∈ entries.map (·.1) := by
        rw [List.map_cons, List.mem_cons] at h
        exact h.resolve_left fun heq => hkey (by simp [heq])
      rw [List.map_cons, List.map_cons, ih hrest]

theorem mem_set {e : String × Draft} (h : e ∈ set key d entries) : e = (key, d) ∨ e ∈ entries := by
  induction entries with
  | nil => exact .inl (List.mem_singleton.1 h)
  | cons e' entries ih =>
    rw [set] at h
    split at h
    · rcases List.mem_cons.1 h with h | h
      · exact .inl h
      · exact .inr (List.mem_cons_of_mem _ h)
    · rcases List.mem_cons.1 h with rfl | h
      · exact .inr List.mem_cons_self
      · exact (ih h).imp_right (List.mem_cons_of_mem _)

theorem ProperEntries.nil : ProperEntries [] := ⟨List.nodup_nil, by simp⟩

theorem ProperEntries.set (h : ProperEntries entries) (hd : d.Proper) (key : String) :
    ProperEntries (Draft.set key d entries) := by
  refine ⟨?_, ?_⟩
  · by_cases hmem : key ∈ entries.map (·.1)
    · rw [keys_set_of_mem hmem]
      exact h.keys
    · rw [set_of_notMem hmem, List.map_append]
      exact List.nodup_append.2 ⟨h.keys, List.nodup_singleton key, by
        rintro _ ha _ (_ | ⟨_, ⟨⟩⟩) rfl
        exact hmem ha⟩
  · intro e he
    rcases mem_set he with rfl | he
    · exact hd
    · exact h.drafts e he

theorem ProperEntries.table (h : ProperEntries entries) (passing dotted : Bool) :
    Proper (.table passing dotted entries) :=
  .table h.keys h.drafts

theorem Proper.properEntries {passing dotted : Bool} (h : Proper (.table passing dotted entries)) :
    ProperEntries entries := by
  cases h with
  | table hkeys h => exact ⟨hkeys, h⟩

theorem Proper.item {items : List (List (String × Draft))} (h : Proper (.tables items))
    (hmem : entries ∈ items) : ProperEntries entries := by
  cases h with
  | tables hkeys h => exact ⟨hkeys entries hmem, h entries hmem⟩

theorem proper_tables {items : List (List (String × Draft))}
    (h : ∀ entries ∈ items, ProperEntries entries) : Proper (.tables items) :=
  .tables (fun entries hmem => (h entries hmem).keys) fun entries hmem => (h entries hmem).drafts

/-- Changing a table somewhere below keeps all proper if the change does. -/
theorem ProperEntries.descend {dotted : Bool}
    {change : Bool → List (String × Draft) → Option (List (String × Draft))}
    (hchange : ∀ here entries entries', ProperEntries entries → change here entries = some entries' →
      ProperEntries entries') {path : List String} {here : Bool} {out : List (String × Draft)}
    (h : ProperEntries entries) (hout : Draft.descend dotted change path here entries = some out) :
    ProperEntries out := by
  induction path generalizing here entries out with
  | nil => exact hchange here entries out h hout
  | cons key path ih =>
    rw [Draft.descend] at hout
    split at hout
    · rcases Option.bind_eq_some_iff.1 hout with ⟨inner, hinner, hout⟩
      cases hout
      exact h.set ((ih .nil hinner).table true dotted) key
    · cases hout
    · next passing wasDotted inner hfound =>
      split at hout
      · cases hout
      · rcases Option.bind_eq_some_iff.1 hout with ⟨inner', hinner, hout⟩
        cases hout
        have hproper := h.drafts _ (mem_of_lookup? hfound)
        exact h.set ((ih hproper.properEntries hinner).table passing wasDotted) key
    · next items hfound =>
      rcases Option.bind_eq_some_iff.1 hout with ⟨last, hlast, hout⟩
      rcases Option.bind_eq_some_iff.1 hout with ⟨inner, hinner, hout⟩
      cases hout
      have hproper := h.drafts _ (mem_of_lookup? hfound)
      refine h.set (proper_tables ?_) key
      intro entries hmem
      rcases List.mem_append.1 hmem with hmem | hmem
      · exact hproper.item (List.dropLast_subset _ hmem)
      · rw [List.mem_singleton.1 hmem]
        exact ih (hproper.item (List.mem_of_getLast? hlast)) hinner

theorem ProperEntries.addPair {path : List String} {v : Toml} (h : ProperEntries entries)
    (hv : v.Proper) {out : List (String × Draft)}
    (hout : Draft.addPair path key v entries = some out) : ProperEntries out := by
  refine h.descend ?_ hout
  intro here inner inner' hinner hchange
  split at hchange
  · cases hchange
  · split at hchange
    · cases hchange
    · next hnone =>
      cases hchange
      have hmem : key ∉ inner.map (·.1) := lookup?_eq_none_iff.1 (by simpa using hnone)
      rw [← set_of_notMem hmem]
      exact hinner.set (.value hv) key

theorem ProperEntries.addPairs {pairs : List ((List String × String) × Toml)}
    (h : ProperEntries entries) (hpairs : ∀ p ∈ pairs, p.2.Proper) {out : List (String × Draft)}
    (hout : Draft.addPairs pairs entries = some out) : ProperEntries out := by
  induction pairs generalizing entries with
  | nil =>
    cases hout
    exact h
  | cons p pairs ih =>
    rw [List.forall_mem_cons] at hpairs
    rw [Draft.addPairs, List.foldlM_cons] at hout
    rcases Option.bind_eq_some_iff.1 hout with ⟨next, hnext, hout⟩
    exact ih (h.addPair hpairs.1 hnext) hpairs.2 hout

end Draft

/-! ## Values -/

variable {fuel depth : Nat} {cs rest : List Char} {v : Toml}

theorem Proper.of_int64? {n : Int} (h : int64? n = some v) : v.Proper := by
  rw [int64?, Option.ite_none_right_eq_some] at h
  rw [← Option.some.inj h.2]
  exact .integer h.1

theorem Proper.of_basedInteger? {base : Nat} (h : basedInteger? base cs = some (v, rest)) :
    v.Proper := by
  rcases Option.bind_eq_some_iff.1 h with ⟨⟨ds, cs⟩, -, h⟩
  rcases Option.bind_eq_some_iff.1 h with ⟨w, hw, h⟩
  cases h
  exact .of_int64? hw

theorem Proper.of_integer? (h : integer? cs = some (v, rest)) : v.Proper := by
  rw [integer?.eq_def] at h
  split at h
  · exact .of_basedInteger? h
  · exact .of_basedInteger? h
  · exact .of_basedInteger? h
  · rcases Option.bind_eq_some_iff.1 h with ⟨⟨ds, cs⟩, -, h⟩
    rcases Option.bind_eq_some_iff.1 h with ⟨w, hw, h⟩
    cases h
    exact .of_int64? hw

theorem Proper.of_finish {negative : Bool} {ds : List Char} {e : Int}
    (h : float?.finish negative ds e cs = some (some v, rest)) : v.Proper := by
  rw [float?.finish.eq_def] at h
  split at h
  · cases h
  · cases h
    exact .float _

theorem Proper.of_float? (h : float? cs = some (some v, rest)) : v.Proper := by
  rcases Option.bind_eq_some_iff.1 h with ⟨⟨whole, tail⟩, -, h⟩
  dsimp only at h
  split at h
  · rcases Option.bind_eq_some_iff.1 h with ⟨⟨fraction, after⟩, -, h⟩
    rcases Option.bind_eq_some_iff.1 h with ⟨⟨exponent, after⟩, -, h⟩
    exact .of_finish h
  · rcases Option.bind_eq_some_iff.1 h with ⟨⟨exponent, after⟩, -, h⟩
    dsimp only at h
    split at h
    · exact .of_finish h
    · cases h

theorem Proper.of_numeric? (h : numeric? cs = some (v, rest)) : v.Proper := by
  rw [numeric?.eq_def] at h
  split at h
  · rcases canonical_of_datetime? h with ⟨s, rfl, hs⟩
    exact .datetime hs
  · dsimp only at h
    split at h
    · cases h
      exact .float _
    · cases h
      exact .float _
    · split at h
      · exact .of_integer? h
      · exact .of_integer? h
      · exact .of_integer? h
      · split at h
        · next hfloat =>
          cases h
          exact .of_float? hfloat
        · exact .of_integer? h
        · cases h

theorem Proper.of_inlineTable? {pairs : List ((List String × String) × Toml)}
    (hpairs : ∀ p ∈ pairs, p.2.Proper) (h : inlineTable? pairs = some v) : v.Proper := by
  rcases Option.map_eq_some_iff.1 h with ⟨entries, hentries, rfl⟩
  exact (Draft.ProperEntries.nil.addPairs hpairs hentries).toToml

theorem Proper.of_value?_step (ihitems : ∀ {depth done cs v rest}, (∀ w ∈ done, Proper w) →
      items? fuel depth done cs = some (v, rest) → v.Proper)
    (ihpairs : ∀ {depth} {done : List ((List String × String) × Toml)} {cs v rest},
      (∀ p ∈ done, Proper p.2) → pairs? fuel depth done cs = some (v, rest) → v.Proper)
    (h : value? (fuel + 1) depth cs = some (v, rest)) : v.Proper := by
  rw [value?.eq_def] at h
  dsimp only at h
  split at h
  · rw [Option.ite_none_right_eq_some] at h
    exact ihitems (by simp) h.2
  · rw [Option.ite_none_right_eq_some] at h
    replace h := h.2
    split at h
    · cases h
      exact .table .nil (by simp)
    · exact ihpairs (by simp) h
  · cases h
    exact .boolean _
  · cases h
    exact .boolean _
  · cases h
    exact .float _
  · cases h
    exact .float _
  · split at h
    · rcases Option.map_eq_some_iff.1 h with ⟨s, -, hs⟩
      cases hs
      exact .string _
    · rw [Option.ite_none_right_eq_some] at h
      exact .of_numeric? h.2
  · cases h

theorem Proper.of_items?_step
    (ihvalue : ∀ {depth cs v rest}, value? fuel depth cs = some (v, rest) → v.Proper)
    (ihitems : ∀ {depth done cs v rest}, (∀ w ∈ done, Proper w) →
      items? fuel depth done cs = some (v, rest) → v.Proper)
    {done : List Toml} (hdone : ∀ w ∈ done, Proper w)
    (h : items? (fuel + 1) depth done cs = some (v, rest)) : v.Proper := by
  rw [items?.eq_def] at h
  dsimp only at h
  split at h
  · cases h
    exact .array (by simpa using hdone)
  · split at h
    · cases h
    · next item rest' hitem =>
      have hmore : ∀ w ∈ item :: done, Proper w :=
        List.forall_mem_cons.2 ⟨ihvalue hitem, hdone⟩
      split at h
      · exact ihitems hmore h
      · cases h
        exact .array fun w hw => hmore w (List.mem_reverse.1 hw)
      · cases h

theorem Proper.of_pairs?_step
    (ihvalue : ∀ {depth cs v rest}, value? fuel depth cs = some (v, rest) → v.Proper)
    (ihpairs : ∀ {depth} {done : List ((List String × String) × Toml)} {cs v rest},
      (∀ p ∈ done, Proper p.2) → pairs? fuel depth done cs = some (v, rest) → v.Proper)
    {done : List ((List String × String) × Toml)} (hdone : ∀ p ∈ done, Proper p.2)
    (h : pairs? (fuel + 1) depth done cs = some (v, rest)) : v.Proper := by
  rw [pairs?.eq_def] at h
  dsimp only at h
  split at h
  · cases h
  · next key _ _ =>
    split at h
    · split at h
      · cases h
      · next w rest' hw =>
        have hmore : ∀ p ∈ (key, w) :: done, Proper p.2 :=
          List.forall_mem_cons.2 ⟨ihvalue hw, hdone⟩
        split at h
        · exact ihpairs hmore h
        · rcases Option.map_eq_some_iff.1 h with ⟨table, htable, heq⟩
          cases heq
          exact .of_inlineTable? (fun p hp => hmore p (List.mem_reverse.1 hp)) htable
        · cases h
    · cases h

/-- All values that are read are proper; the three readers call each other with less fuel. -/
theorem proper_of_read (fuel : Nat) :
    (∀ {depth cs v rest}, value? fuel depth cs = some (v, rest) → v.Proper) ∧
      (∀ {depth done cs v rest}, (∀ w ∈ done, Proper w) →
        items? fuel depth done cs = some (v, rest) → v.Proper) ∧
      ∀ {depth} {done : List ((List String × String) × Toml)} {cs v rest},
        (∀ p ∈ done, Proper p.2) → pairs? fuel depth done cs = some (v, rest) → v.Proper := by
  induction fuel with
  | zero =>
    refine ⟨?_, ?_, ?_⟩
    · intro _ _ _ _ h
      rw [value?] at h
      cases h
    · intro _ _ _ _ _ _ h
      rw [items?] at h
      cases h
    · intro _ _ _ _ _ _ h
      rw [pairs?] at h
      cases h
  | succ fuel ih =>
    rcases ih with ⟨ihvalue, ihitems, ihpairs⟩
    exact ⟨.of_value?_step ihitems ihpairs, .of_items?_step ihvalue ihitems,
      .of_pairs?_step ihvalue ihpairs⟩

theorem Proper.of_value? (h : value? fuel depth cs = some (v, rest)) : v.Proper :=
  (proper_of_read fuel).1 h

/-! ## Documents -/

/-- The value of the line, if it has one, is proper. -/
def Line.Proper : Line → Prop
  | .pair _ v => v.Proper
  | .header _ | .arrayHeader _ => True

theorem Line.proper_of_header? {line : Line} (h : header? cs = some (line, rest)) : line.Proper := by
  rw [header?.eq_def] at h
  split at h
  all_goals
    rcases Option.bind_eq_some_iff.1 h with ⟨⟨path, after⟩, -, h⟩
    dsimp only at h
    split at h
    · cases h
      exact trivial
    · cases h

theorem Line.proper_of_pair? {line : Line} (h : pair? cs = some (line, rest)) : line.Proper := by
  rcases Option.bind_eq_some_iff.1 h with ⟨⟨key, after⟩, -, h⟩
  dsimp only at h
  split at h
  · rcases Option.bind_eq_some_iff.1 h with ⟨⟨v, after⟩, hv, h⟩
    cases h
    exact Toml.Proper.of_value? hv
  · cases h

theorem proper_of_lines? {done lines : List Line} (hdone : ∀ l ∈ done, l.Proper)
    (h : lines? fuel done cs = some lines) : ∀ l ∈ lines, l.Proper := by
  induction fuel generalizing done cs with
  | zero =>
    rw [lines?] at h
    cases h
  | succ fuel ih =>
    rw [lines?.eq_def] at h
    dsimp only at h
    split at h
    · cases h
      simpa using hdone
    · split at h
      · cases h
      · next line after hline =>
        have hproper : line.Proper := by
          split at hline
          · exact Line.proper_of_header? hline
          · exact Line.proper_of_pair? hline
        split at h
        · exact ih (List.forall_mem_cons.2 ⟨hproper, hdone⟩) h
        · cases h

namespace Filling

variable {f f' : Filling} {root : List (String × Draft)}

/-- Both the finished part and the table being filled are proper. -/
structure Proper (f : Filling) : Prop where
  root : Draft.ProperEntries f.root
  current : Draft.ProperEntries f.current

theorem Proper.close? (h : f.Proper) (hroot : f.close? = some root) : Draft.ProperEntries root := by
  rw [Filling.close?.eq_def] at hroot
  split at hroot
  · cases hroot
    exact h.current
  · refine h.root.descend ?_ hroot
    intro _ entries entries' hentries hchange
    split at hchange
    · split at hchange
      · cases hchange
        exact hentries.set (Draft.proper_tables (by simpa using h.current)) _
      · next items hfound =>
        cases hchange
        have hitems := hentries.drafts _ (mem_of_lookup? hfound)
        refine hentries.set (Draft.proper_tables ?_) _
        intro entries hmem
        rcases List.mem_append.1 hmem with hmem | hmem
        · exact hitems.item hmem
        · rw [List.mem_singleton.1 hmem]
          exact h.current
      · cases hchange
    · cases hchange
      exact hentries.set (h.current.table false false) _

theorem proper_of_follow? {path : List String} {entries inner : List (String × Draft)}
    (h : Draft.ProperEntries entries) (hinner : follow? path entries = some inner) :
    Draft.ProperEntries inner := by
  induction path generalizing entries with
  | nil =>
    cases hinner
    exact h
  | cons key path ih =>
    rw [follow?] at hinner
    split at hinner
    · cases hinner
      exact .nil
    · cases hinner
    · next hfound => exact ih (h.drafts _ (mem_of_lookup? hfound)).properEntries hinner
    · next hfound =>
      rcases Option.bind_eq_some_iff.1 hinner with ⟨last, hlast, hinner⟩
      exact ih ((h.drafts _ (mem_of_lookup? hfound)).item (List.mem_of_getLast? hlast)) hinner

theorem proper_of_startOf? {key : String} {entries inner : List (String × Draft)}
    (h : Draft.ProperEntries entries) (hinner : startOf? key entries = some inner) :
    Draft.ProperEntries inner := by
  rw [startOf?] at hinner
  split at hinner
  · cases hinner
    exact .nil
  · next hfound =>
    cases hinner
    exact (h.drafts _ (mem_of_lookup? hfound)).properEntries
  · cases hinner

theorem Proper.step? (h : f.Proper) {line : Line} (hline : line.Proper)
    (hstep : f.step? line = some f') : f'.Proper := by
  cases line with
  | pair key v =>
    rcases Option.map_eq_some_iff.1 hstep with ⟨current, hcurrent, rfl⟩
    exact ⟨h.root, h.current.addPair hline hcurrent⟩
  | header path =>
    rcases Option.bind_eq_some_iff.1 hstep with ⟨root, hroot, hstep⟩
    rcases Option.bind_eq_some_iff.1 hstep with ⟨parent, hparent, hstep⟩
    rcases Option.bind_eq_some_iff.1 hstep with ⟨current, hcurrent, hstep⟩
    cases hstep
    have hclosed := h.close? hroot
    exact ⟨hclosed, proper_of_startOf? (proper_of_follow? hclosed hparent) hcurrent⟩
  | arrayHeader path =>
    rcases Option.bind_eq_some_iff.1 hstep with ⟨root, hroot, hstep⟩
    rcases Option.bind_eq_some_iff.1 hstep with ⟨parent, -, hstep⟩
    have hclosed := h.close? hroot
    split at hstep
    · cases hstep
      exact ⟨hclosed, .nil⟩
    · cases hstep
      exact ⟨hclosed, .nil⟩
    · cases hstep

theorem Proper.foldlM (h : f.Proper) {lines : List Line} (hlines : ∀ l ∈ lines, l.Proper)
    (hfold : lines.foldlM Filling.step? f = some f') : f'.Proper := by
  induction lines generalizing f with
  | nil =>
    cases hfold
    exact h
  | cons line lines ih =>
    rw [List.forall_mem_cons] at hlines
    rw [List.foldlM_cons] at hfold
    rcases Option.bind_eq_some_iff.1 hfold with ⟨next, hnext, hfold⟩
    exact ih (h.step? hlines.1 hnext) hlines.2 hfold

end Filling

/-- What a text writes is a proper table. -/
theorem Proper.of_parse? {text : String} (h : parse? text = some v) : v.Proper := by
  rcases Option.bind_eq_some_iff.1 h with ⟨lines, hlines, h⟩
  rcases Option.bind_eq_some_iff.1 h with ⟨filled, hfilled, h⟩
  rcases Option.bind_eq_some_iff.1 h with ⟨root, hroot, h⟩
  cases h
  have hstart : Filling.Proper {} := ⟨.nil, .nil⟩
  exact ((hstart.foldlM (proper_of_lines? (by simp) hlines) hfilled).close? hroot).toToml

end LintMend.Toml
