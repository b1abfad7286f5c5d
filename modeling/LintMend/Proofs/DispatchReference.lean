import LintMend.Check.Dispatch
import LintMend.Rules.Registry
import Mathlib.Data.Prod.Lex

/-!
# Dispatch against a reference

The dispatcher walks a unit once and shows each entity to all interested checkers in turn. The
reference takes one checker after the other, and each of its calls starts from an empty sink. Both
give the same issues and the same faults, as long as checkers only add to what they are handed.
-/

namespace LintMend

/-! ## The order of entities -/

/-- The expressions of a statement, those that begin first in front. -/
def Statement.walk (s : Statement) : List Entity :=
  (s.expressions.mergeSort fun a b => a.origin.span.start ≤ b.origin.span.start).map
    (Entity.expression s)

/-- A method, its statements by start and id, and their expressions. A synthetic method contributes
nothing. -/
def Method.walk (c : Class) (m : Method) : List Entity :=
  if m.origin.isSome then
    .method c m ::
      ((m.graph.blocks.flatMap (·.statements)).mergeSort fun a b =>
        toLex (a.origin.span.start, a.id) ≤ toLex (b.origin.span.start, b.id)).flatMap
          fun s => .statement m s :: s.walk
  else []

def Class.walk (c : Class) : List Entity := .classDef c :: c.methods.flatMap (Method.walk c)

/-- All entities of a unit that checkers get to see, in order. -/
def ProgramUnit.walk (u : ProgramUnit) : List Entity := .file u :: u.classes.flatMap Class.walk

theorem FlowGraph.statements_eq_mergeSort (g : FlowGraph) :
    g.statements = (g.blocks.flatMap (·.statements)).mergeSort fun a b =>
      toLex (a.origin.span.start, a.id) ≤ toLex (b.origin.span.start, b.id) := by
  unfold statements stored
  congr 1
  funext a b
  simp only [Prod.Lex.toLex_le_toLex, Bool.decide_or, Bool.decide_and, beq_eq_decide]

namespace Dispatcher

theorem visitStatement_eq_foldl (d : Dispatcher) (u : ProgramUnit) (m : Method) (p : Progress)
    (s : Statement) :
    d.visitStatement u m p s = (Entity.statement m s :: s.walk).foldl (d.visit u) p := by
  simp only [visitStatement, Statement.walk, Statement.inOrder, List.foldl_cons, List.foldl_map]

theorem visitMethod_eq_foldl (d : Dispatcher) (u : ProgramUnit) (c : Class) (p : Progress)
    (m : Method) : d.visitMethod u c p m = (m.walk c).foldl (d.visit u) p := by
  unfold visitMethod Method.walk Method.isSynthetic
  cases h : m.origin with
  | none => simp
  | some o =>
    simp only [Option.isNone_some, Option.isSome_some, Bool.false_eq_true, if_false, if_true,
      List.foldl_cons, List.foldl_flatMap, ← FlowGraph.statements_eq_mergeSort]
    congr 1
    funext p s
    exact visitStatement_eq_foldl d u m p s

theorem visitClass_eq_foldl (d : Dispatcher) (u : ProgramUnit) (p : Progress) (c : Class) :
    d.visitClass u p c = c.walk.foldl (d.visit u) p := by
  simp only [visitClass, Class.walk, List.foldl_cons, List.foldl_flatMap]
  congr 1
  funext p m
  exact visitMethod_eq_foldl d u c p m

/-- The nested loops of the walk visit the entities of the unit in order. -/
theorem walked_eq_foldl (d : Dispatcher) (u : ProgramUnit) (p : Progress) :
    u.classes.foldl (d.visitClass u) (d.visit u p (.file u)) = u.walk.foldl (d.visit u) p := by
  simp only [ProgramUnit.walk, List.foldl_cons, List.foldl_flatMap]
  congr 1
  funext p c
  exact visitClass_eq_foldl d u p c

end Dispatcher

/-! ## Calls on their own -/

namespace Checker

/-- A call only adds issues to the sink, and neither these nor the end of the call depend on what the
sink already holds. -/
def OnlyAppends (c : Checker) : Prop :=
  ∀ (context : Context) (e : Entity) (sink : Sink),
    (c.check context e sink).1.issues = sink.issues ++ (c.check context e {}).1.issues ∧
      (c.check context e sink).2 = (c.check context e {}).2

/-- What a call reports when it starts from nothing; nothing if it is given up. -/
def issuesAlone (c : Checker) (context : Context) (e : Entity) : List Issue :=
  match c.check context e {} with
  | (sink, none) => sink.issues
  | (_, some _) => []

/-- The fault of a call that is given up. -/
def faultAlone? (c : Checker) (context : Context) (e : Entity) : Option Fault :=
  (c.check context e {}).2.map fun a => ⟨c.id, e.describe, a.message⟩

end Checker

theorem onlyAppends_ofFound {c : Checker} (find : Context → Entity → Outcome (List Issue))
    (h : c.check = fun context e => .ofFound (find context e)) : c.OnlyAppends := by
  intro context e sink
  simp only [h]
  cases find context e with
  | ok issues => simp [Reporting.ofFound]
  | error a => simp [Reporting.ofFound]

theorem onlyAppends_of_mem_builtinRules {config : Config} {c : Checker}
    (h : c ∈ builtinRules config) : c.OnlyAppends := by
  simp only [builtinRules, List.mem_cons, List.not_mem_nil, or_false] at h
  rcases h with rfl | rfl | rfl | rfl | rfl | rfl | rfl | rfl
  all_goals exact onlyAppends_ofFound _ rfl

/-! ## Matchers by kind, and who is interested -/

namespace Entry

theorem get_foldl_modify (g : Granularity) (ms : List Matcher) (t : Granularity.Table (List Matcher)) :
    (ms.foldl (fun t m => t.modify m.granularity (· ++ [m])) t).get g =
      t.get g ++ ms.filter (·.granularity = g) := by
  induction ms generalizing t with
  | nil => simp
  | cons m ms ih =>
    rw [List.foldl_cons, ih, Granularity.Table.get_modify]
    by_cases h : m.granularity = g
    · simp [h]
    · simp [h]

theorem get_matchers_ofChecker (c : Checker) (settings : RuleSettings) (g : Granularity) :
    (ofChecker c settings).matchers.get g = c.matchers.filter (·.granularity = g) := by
  simp [ofChecker, get_foldl_modify]

/-- Sorting the matchers by kind loses none that could accept the entity. -/
theorem accepts_ofChecker (c : Checker) (settings : RuleSettings) (e : Entity) :
    (ofChecker c settings).accepts e = c.accepts e := by
  rw [accepts, get_matchers_ofChecker, Checker.accepts, List.any_filter]
  congr 1
  funext m
  by_cases h : m.granularity = e.granularity
  · simp [h]
  · have h' : e.granularity ≠ m.granularity := fun h' => h h'.symm
    simp [Matcher.accepts, h, h']

theorem accepts_eq_false_of_isEmpty {n : Entry} {e : Entity}
    (h : (n.matchers.get e.granularity).isEmpty = true) : n.accepts e = false := by
  rw [List.isEmpty_iff] at h
  simp [accepts, h]

/-- What the checker reports about a sequence of entities, each call on its own. -/
def issuesOn (n : Entry) (u : ProgramUnit) (es : List Entity) : List Issue :=
  (es.filter n.accepts).flatMap (n.checker.issuesAlone (n.context u))

/-- The fault that an entity causes. -/
def faultOn? (n : Entry) (u : ProgramUnit) (e : Entity) : Option Fault :=
  if n.accepts e then n.checker.faultAlone? (n.context u) e else none

theorem issuesOn_append (n : Entry) (u : ProgramUnit) (es fs : List Entity) :
    n.issuesOn u (es ++ fs) = n.issuesOn u es ++ n.issuesOn u fs := by
  simp [issuesOn]

end Entry

namespace Dispatcher

/-- For each kind, exactly the checkers with a matcher for it are interested, in order. -/
def Indexed (d : Dispatcher) : Prop :=
  ∀ g, d.interested.get g = (List.range d.entries.length).filter fun i =>
    d.entries[i]?.any fun n => !(n.matchers.get g).isEmpty

theorem get_foldl_interested (n : Entry) (place : Nat) (gs : List Granularity)
    (t : Granularity.Table (List Nat)) (g : Granularity) (h : gs.Nodup) :
    (gs.foldl (fun t g =>
        if (n.matchers.get g).isEmpty then t else t.modify g (· ++ [place])) t).get g =
      t.get g ++ if g ∈ gs ∧ !(n.matchers.get g).isEmpty then [place] else [] := by
  induction gs generalizing t with
  | nil => simp
  | cons k ks ih =>
    obtain ⟨hk, hks⟩ := List.nodup_cons.1 h
    rw [List.foldl_cons, ih _ hks]
    by_cases hg : k = g
    · subst hg
      by_cases he : (n.matchers.get k).isEmpty
      · simp [he]
      · simp [he, hk]
    · have hg' : g ≠ k := fun h' => hg h'.symm
      by_cases he : (n.matchers.get k).isEmpty
      · simp [he, hg']
      · simp [he, hg, hg']

theorem get_interested_add (d : Dispatcher) (n : Entry) (g : Granularity) :
    (d.add n).interested.get g =
      d.interested.get g ++ if !(n.matchers.get g).isEmpty then [d.entries.length] else [] := by
  have hmem : g ∈ Granularity.all := by cases g <;> decide
  rw [add, get_foldl_interested n _ _ _ g (by decide)]
  simp [hmem]

theorem Indexed.add {d : Dispatcher} (h : d.Indexed) (n : Entry) : (d.add n).Indexed := by
  intro g
  rw [get_interested_add, h g]
  have hlength : (d.add n).entries.length = d.entries.length + 1 := by simp [Dispatcher.add]
  rw [hlength, List.range_succ, List.filter_append]
  congr 1
  · apply List.filter_congr
    intro i hi
    have hi' : i < d.entries.length := List.mem_range.1 hi
    simp [Dispatcher.add, List.getElem?_append_left hi']
  · simp [Dispatcher.add, List.filter_cons]

/-- The entries that checkers become, those that are switched off left out. -/
def enrolled (checkers : List Checker) (config : Config) : List Entry :=
  (checkers.filter fun c => config.isEnabled c.id).map fun c => .ofChecker c (config.rule c.id)

theorem foldl_add (checkers : List Checker) (config : Config) (d : Dispatcher) (h : d.Indexed) :
    let e := checkers.foldl (fun d c =>
      if config.isEnabled c.id then d.add (.ofChecker c (config.rule c.id)) else d) d
    e.entries = d.entries ++ enrolled checkers config ∧ e.Indexed := by
  induction checkers generalizing d with
  | nil => exact ⟨by simp [enrolled], h⟩
  | cons c rest ih =>
    rw [List.foldl_cons]
    by_cases hc : config.isEnabled c.id
    · obtain ⟨hentries, hindexed⟩ := ih _ (h.add (.ofChecker c (config.rule c.id)))
      rw [if_pos hc]
      exact ⟨by rw [hentries]; simp [enrolled, Dispatcher.add, hc], hindexed⟩
    · obtain ⟨hentries, hindexed⟩ := ih d h
      rw [if_neg hc]
      exact ⟨by rw [hentries]; simp [enrolled, hc], hindexed⟩

theorem indexed_empty : ({} : Dispatcher).Indexed := by
  intro g
  simp

theorem entries_ofCheckers (checkers : List Checker) (config : Config) :
    (ofCheckers checkers config).entries = enrolled checkers config :=
  (foldl_add checkers config {} indexed_empty).1.trans (List.nil_append _)

theorem indexed_ofCheckers (checkers : List Checker) (config : Config) :
    (ofCheckers checkers config).Indexed :=
  (foldl_add checkers config {} indexed_empty).2

/-! ## One call -/

/-- A call adds what the checker reports on its own and leaves the sinks of all others alone. -/
theorem call_eq {d : Dispatcher} {u : ProgramUnit} {e : Entity} {p : Progress} {place : Nat}
    {n : Entry} {sink : Sink} (hn : d.entries[place]? = some n) (hs : p.sinks[place]? = some sink)
    (h : n.checker.OnlyAppends) :
    ∃ reported : Sink, reported.issues = sink.issues ++ n.issuesOn u [e] ∧
      d.call u e p place =
        ⟨p.sinks.set place reported, (n.faultOn? u e).toList ++ p.faults⟩ := by
  obtain ⟨hissues, habort⟩ := h (n.context u) e sink
  by_cases ha : n.accepts e
  · rcases hc : n.checker.check (n.context u) e sink with ⟨after, failed⟩
    rcases hl : n.checker.check (n.context u) e {} with ⟨alone, failedAlone⟩
    rw [hc, hl] at hissues habort
    simp only at hissues habort
    subst habort
    cases failed with
    | none =>
      refine ⟨after, ?_, ?_⟩
      · simp [Entry.issuesOn, ha, Checker.issuesAlone, hl, hissues]
      · simp [call, hn, hs, ha, hc, Entry.faultOn?, Checker.faultAlone?, hl]
    | some a =>
      refine ⟨after.truncate sink.count, ?_, ?_⟩
      · simp [Entry.issuesOn, ha, Checker.issuesAlone, hl, hissues, Sink.count_eq_length]
      · simp [call, hn, hs, ha, hc, Entry.faultOn?, Checker.faultAlone?, hl]
  · refine ⟨sink, ?_, ?_⟩
    · simp [Entry.issuesOn, ha]
    · have hset : p.sinks.set place sink = p.sinks := by
        obtain ⟨hlt, rfl⟩ := List.getElem?_eq_some_iff.1 hs
        exact List.set_getElem_self hlt
      simp [call, hn, hs, ha, Entry.faultOn?, hset]

theorem call_eq_self {d : Dispatcher} {u : ProgramUnit} {e : Entity} {p : Progress} {place : Nat}
    (h : ∀ n, d.entries[place]? = some n → n.accepts e = false) : d.call u e p place = p := by
  unfold call
  split
  · next n sink hn _ => simp [h n hn]
  · rfl

/-- Only the interested checkers would do anything, so all might as well be called. -/
theorem visit_eq_foldl_range {d : Dispatcher} (h : d.Indexed) (u : ProgramUnit) (p : Progress)
    (e : Entity) :
    d.visit u p e = (List.range d.entries.length).foldl (d.call u e) p := by
  rw [visit, h e.granularity, List.foldl_filter]
  congr 1
  funext p place
  split
  · rfl
  · next hplace =>
    refine (call_eq_self fun n hn => ?_).symm
    apply Entry.accepts_eq_false_of_isEmpty
    simpa [hn] using hplace

/-! ## The invariant of the walk -/

/-- The faults that an entity causes, in the order of the checkers. -/
def faultsOn (d : Dispatcher) (u : ProgramUnit) (e : Entity) : List Fault :=
  d.entries.filterMap (·.faultOn? u e)

/-- After the entities `seen`, and after the first `k` checkers have seen `e` too, every sink holds
what its checker reports on its own, and every call that was given up has left its fault. -/
structure Reached (d : Dispatcher) (u : ProgramUnit) (seen : List Entity) (e : Entity) (k : Nat)
    (p : Progress) : Prop where
  sinks : ∀ i : Nat, p.sinks[i]?.map Sink.issues =
    d.entries[i]?.map fun n => n.issuesOn u (if i < k then seen ++ [e] else seen)
  faults : p.faults.reverse =
    seen.flatMap (d.faultsOn u) ++ (d.entries.take k).filterMap (·.faultOn? u e)

theorem Reached.call {d : Dispatcher} {u : ProgramUnit} {seen : List Entity} {e : Entity} {k : Nat}
    {p : Progress} (happ : ∀ n ∈ d.entries, n.checker.OnlyAppends) (hk : k < d.entries.length)
    (h : d.Reached u seen e k p) : d.Reached u seen e (k + 1) (d.call u e p k) := by
  have hn : d.entries[k]? = some d.entries[k] := List.getElem?_eq_getElem hk
  obtain ⟨sink, hs, hissues⟩ : ∃ sink, p.sinks[k]? = some sink ∧
      sink.issues = d.entries[k].issuesOn u seen := by
    have hsink := h.sinks k
    rw [hn, Option.map_some, Option.map_eq_some_iff] at hsink
    simpa using hsink
  obtain ⟨reported, hreported, hcall⟩ := call_eq (u := u) (e := e) hn hs
    (happ _ (List.getElem_mem hk))
  rw [hcall]
  constructor
  · intro i
    rw [List.getElem?_set]
    by_cases hi : k = i
    · subst hi
      obtain ⟨hlt, -⟩ := List.getElem?_eq_some_iff.1 hs
      simp [hlt, hn, hreported, hissues, Entry.issuesOn_append]
    · have hlt : i < k ↔ i < k + 1 := by omega
      rw [if_neg hi, h.sinks i]
      simp [hlt]
  · rw [List.reverse_append, h.faults, List.append_assoc, List.take_add_one, hn,
      List.filterMap_append]
    cases hfault : d.entries[k].faultOn? u e <;> simp [hfault]

theorem Reached.foldl_range {d : Dispatcher} {u : ProgramUnit} {seen : List Entity} {e : Entity}
    {p : Progress} (happ : ∀ n ∈ d.entries, n.checker.OnlyAppends) (h : d.Reached u seen e 0 p)
    (k : Nat) (hk : k ≤ d.entries.length) :
    d.Reached u seen e k ((List.range k).foldl (d.call u e) p) := by
  induction k with
  | zero => exact h
  | succ k ih =>
    rw [List.range_succ, List.foldl_append]
    exact (ih (by omega)).call happ (by omega)

/-- After the entities `seen`, every sink holds what its checker reports about them on its own, and
every call that was given up has left its fault. -/
structure Tallies (d : Dispatcher) (u : ProgramUnit) (seen : List Entity) (p : Progress) : Prop where
  sinks : p.sinks.map Sink.issues = d.entries.map (·.issuesOn u seen)
  faults : p.faults.reverse = seen.flatMap (d.faultsOn u)

theorem Tallies.visit {d : Dispatcher} {u : ProgramUnit} {seen : List Entity} {p : Progress}
    (hindexed : d.Indexed) (happ : ∀ n ∈ d.entries, n.checker.OnlyAppends)
    (h : d.Tallies u seen p) (e : Entity) : d.Tallies u (seen ++ [e]) (d.visit u p e) := by
  have hstart : d.Reached u seen e 0 p := by
    refine ⟨fun i => ?_, by simp [h.faults]⟩
    have hi := congrArg (·[i]?) h.sinks
    simpa using hi
  have hall := hstart.foldl_range happ d.entries.length le_rfl
  rw [visit_eq_foldl_range hindexed]
  constructor
  · apply List.ext_getElem?
    intro i
    have hi := hall.sinks i
    rw [List.getElem?_map, hi, List.getElem?_map]
    by_cases hlt : i < d.entries.length
    · simp [hlt]
    · simp [List.getElem?_eq_none (Nat.le_of_not_lt hlt)]
  · rw [hall.faults]
    simp [faultsOn]

theorem Tallies.foldl_visit {d : Dispatcher} {u : ProgramUnit} (hindexed : d.Indexed)
    (happ : ∀ n ∈ d.entries, n.checker.OnlyAppends) (es : List Entity) {seen : List Entity}
    {p : Progress} (h : d.Tallies u seen p) :
    d.Tallies u (seen ++ es) (es.foldl (d.visit u) p) := by
  induction es generalizing seen p with
  | nil => simpa using h
  | cons e es ih => simpa using ih (h.visit hindexed happ e)

theorem tallies_dispatch (d : Dispatcher) (u : ProgramUnit) (hindexed : d.Indexed)
    (happ : ∀ n ∈ d.entries, n.checker.OnlyAppends) :
    (d.dispatch u).issues = d.entries.flatMap (·.issuesOn u u.walk) ∧
      (d.dispatch u).faults = u.walk.flatMap (d.faultsOn u) := by
  have hstart : d.Tallies u [] ⟨d.entries.map fun _ => {}, []⟩ := by
    refine ⟨?_, rfl⟩
    simp [Entry.issuesOn]
  have hwalked := hstart.foldl_visit hindexed happ u.walk
  rw [← walked_eq_foldl] at hwalked
  refine ⟨?_, hwalked.faults⟩
  have hsinks := congrArg List.flatten hwalked.sinks
  simpa [dispatch, List.flatMap] using hsinks

end Dispatcher

/-! ## The reference -/

/-- The issues that the enabled checkers report, one checker after the other, each call on its own. -/
def referenceIssues (checkers : List Checker) (config : Config) (u : ProgramUnit) : List Issue :=
  (checkers.filter fun c => config.isEnabled c.id).flatMap fun c =>
    (u.walk.filter c.accepts).flatMap (c.issuesAlone (c.context u (config.rule c.id)))

/-- The faults of the enabled checkers, one entity after the other, each call on its own. -/
def referenceFaults (checkers : List Checker) (config : Config) (u : ProgramUnit) : List Fault :=
  u.walk.flatMap fun e =>
    ((checkers.filter fun c => config.isEnabled c.id).filter (·.accepts e)).filterMap fun c =>
      c.faultAlone? (c.context u (config.rule c.id)) e

/-- One walk with all checkers in turn finds what the checkers find one after the other. -/
theorem dispatch_eq_reference (checkers : List Checker) (config : Config) (u : ProgramUnit)
    (h : ∀ c ∈ checkers, c.OnlyAppends) :
    ((Dispatcher.ofCheckers checkers config).dispatch u).issues =
        referenceIssues checkers config u ∧
      ((Dispatcher.ofCheckers checkers config).dispatch u).faults =
        referenceFaults checkers config u := by
  have happ : ∀ n ∈ (Dispatcher.ofCheckers checkers config).entries, n.checker.OnlyAppends := by
    intro n hn
    rw [Dispatcher.entries_ofCheckers, Dispatcher.enrolled] at hn
    obtain ⟨c, hc, rfl⟩ := List.mem_map.1 hn
    exact h c (List.mem_filter.1 hc).1
  obtain ⟨hissues, hfaults⟩ := Dispatcher.tallies_dispatch _ u
    (Dispatcher.indexed_ofCheckers checkers config) happ
  constructor
  · rw [hissues, Dispatcher.entries_ofCheckers, Dispatcher.enrolled, List.flatMap_map]
    congr 1
    funext c
    simp only [Entry.issuesOn, funext (Entry.accepts_ofChecker c (config.rule c.id))]
    rfl
  · rw [hfaults, referenceFaults]
    congr 1
    funext e
    rw [Dispatcher.faultsOn, Dispatcher.entries_ofCheckers, Dispatcher.enrolled, List.filterMap_map,
      List.filterMap_filter (p := fun c : Checker => c.accepts e)]
    congr 1
    funext c
    simp only [Function.comp_apply, Entry.faultOn?, Entry.accepts_ofChecker]
    rfl

/-- Asks twice for every statement, reports it, and is then given up if it has `boom` in it. -/
def Checker.skittish : Checker where
  id := "skittish"
  severity := .error
  description := "given up half-way"
  matchers := [⟨.statement, none⟩, ⟨.statement, none⟩]
  check c e sink :=
    match e with
    | .statement _ s =>
      (sink.report ⟨c.build s.origin.line 1 2 s.text, none⟩,
        if hasText s.text "boom" then some ⟨"cannot handle " ++ s.text⟩ else none)
    | _ => (sink, none)

theorem Checker.onlyAppends_skittish : Checker.skittish.OnlyAppends := by
  intro context e sink
  cases e <;> simp [skittish]

/-- A unit with a statement in each of two methods. -/
def ProgramUnit.twoStatements : ProgramUnit where
  name := "a.rs"
  path := "a.rs"
  source := "a();\nboom();\n"
  classes := [⟨"a", none, [
    ⟨"f", some ⟨1, 1, ⟨0, 4⟩⟩, ⟨[⟨0, [⟨0, ⟨1, 1, ⟨0, 4⟩⟩, "a();", [], none⟩]⟩], []⟩⟩,
    ⟨"g", some ⟨2, 1, ⟨5, 12⟩⟩, ⟨[⟨0, [⟨1, ⟨2, 1, ⟨5, 12⟩⟩, "boom();", [], none⟩]⟩], []⟩⟩]⟩]

theorem dispatch_eq_reference_skittish :
    (∀ c ∈ [Checker.skittish, ConsoleOutput.rule], c.OnlyAppends) ∧
      ((Dispatcher.ofCheckers [.skittish, ConsoleOutput.rule] {}).dispatch .twoStatements).issues =
        referenceIssues [.skittish, ConsoleOutput.rule] {} .twoStatements ∧
      ((Dispatcher.ofCheckers [.skittish, ConsoleOutput.rule] {}).dispatch .twoStatements).faults =
        referenceFaults [.skittish, ConsoleOutput.rule] {} .twoStatements ∧
      (referenceIssues [.skittish, ConsoleOutput.rule] {} .twoStatements).map
        (·.defect.description) = ["a();"] ∧
      referenceFaults [.skittish, ConsoleOutput.rule] {} .twoStatements =
        [⟨"skittish", "statement 1 in g", "cannot handle boom();"⟩] := by
  have h : ∀ c ∈ [Checker.skittish, ConsoleOutput.rule], c.OnlyAppends := by
    simp only [List.mem_cons, List.not_mem_nil, or_false, forall_eq_or_imp, forall_eq]
    exact ⟨Checker.onlyAppends_skittish, onlyAppends_ofFound _ rfl⟩
  obtain ⟨hissues, hfaults⟩ := dispatch_eq_reference _ {} ProgramUnit.twoStatements h
  exact ⟨h, hissues, hfaults, by decide +kernel, by decide +kernel⟩

end LintMend
