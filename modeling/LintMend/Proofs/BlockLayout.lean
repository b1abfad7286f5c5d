import LintMend.Proofs.DispatchReference
import LintMend.Proofs.SplicerAgreement
import LintMend.Proofs.StatementEdits
import Mathlib.Data.List.Forall2

/-!
# The layout of blocks makes no difference

The statements of a method can be spread over its basic blocks in many ways. Checkers are shown the
statements by place and id, and changes are made by place and id, so with unique ids both come in one
order whatever the layout is. What the built-in rules read of a method beside its statements is its
name, its origin and the numbers of its statements, blocks and edges, and no layout changes these.
-/

namespace LintMend

/-! ## Units that differ in the layout only -/

/-- The same blocks and edges, and the same statements spread over the blocks in two ways. -/
structure FlowGraph.Rearranges (g h : FlowGraph) : Prop where
  blocks : g.blocks.map (·.id) = h.blocks.map (·.id)
  edges : g.edges = h.edges
  stored : g.stored.Perm h.stored

structure Method.Rearranges (m n : Method) : Prop where
  name : m.name = n.name
  origin : m.origin = n.origin
  graph : m.graph.Rearranges n.graph

structure Class.Rearranges (c d : Class) : Prop where
  name : c.name = d.name
  origin : c.origin = d.origin
  methods : List.Forall₂ Method.Rearranges c.methods d.methods

/-- The same unit, with the statements of each method spread over the blocks of the method in two
ways. -/
structure ProgramUnit.Rearranges (u v : ProgramUnit) : Prop where
  name : u.name = v.name
  path : u.path = v.path
  source : u.source = v.source
  classes : List.Forall₂ Class.Rearranges u.classes v.classes

theorem FlowGraph.Rearranges.refl (g : FlowGraph) : g.Rearranges g := ⟨rfl, rfl, .refl _⟩

theorem Method.Rearranges.refl (m : Method) : m.Rearranges m := ⟨rfl, rfl, .refl _⟩

theorem Class.Rearranges.refl (c : Class) : c.Rearranges c :=
  ⟨rfl, rfl, List.forall₂_same.2 fun m _ => .refl m⟩

theorem ProgramUnit.Rearranges.lines {u v : ProgramUnit} (h : u.Rearranges v) : u.lines = v.lines :=
  congrArg textLines h.source

/-- The unit with another graph in the method at a place of the class at a place. -/
def ProgramUnit.withGraph (u : ProgramUnit) (cls method : Nat) (g : FlowGraph) : ProgramUnit :=
  { u with classes := u.classes.modify cls fun c =>
      { c with methods := c.methods.modify method fun m => { m with graph := g } } }

theorem forall₂_modify {α : Type} {R : α → α → Prop} (hrefl : ∀ a, R a a) {l : List α} {i : Nat}
    {f : α → α} (h : ∀ a, l[i]? = some a → R a (f a)) : List.Forall₂ R l (l.modify i f) := by
  induction l generalizing i with
  | nil => simp
  | cons a l ih =>
    cases i with
    | zero => exact .cons (h a rfl) (List.forall₂_same.2 fun b _ => hrefl b)
    | succ i => exact .cons (hrefl a) (ih h)

/-- The statements of one method may be rearranged while all others stay where they are. -/
theorem ProgramUnit.rearranges_withGraph {u : ProgramUnit} {cls method : Nat} {g : FlowGraph}
    (h : ∀ c m, u.classes[cls]? = some c → c.methods[method]? = some m → m.graph.Rearranges g) :
    u.Rearranges (u.withGraph cls method g) where
  name := rfl
  path := rfl
  source := rfl
  classes := by
    apply forall₂_modify Class.Rearranges.refl
    intro c hc
    refine ⟨rfl, rfl, forall₂_modify Method.Rearranges.refl ?_⟩
    intro m hm
    exact ⟨rfl, rfl, h c m hc hm⟩

/-! ## One order of statements -/

/-- Elements with distinct ids have one order by start and id. -/
theorem mergeSort_of_perm {α : Type} (start id : α → Nat) {l l' : List α} (hperm : l.Perm l')
    (hids : ∀ a ∈ l, ∀ b ∈ l, id a = id b → a = b) :
    (l.mergeSort fun a b => start a < start b || (start a == start b && id a ≤ id b)) =
      l'.mergeSort fun a b => start a < start b || (start a == start b && id a ≤ id b) := by
  have hsorted : ∀ l : List α,
      (l.mergeSort fun a b => start a < start b || (start a == start b && id a ≤ id b)).Pairwise
        fun a b => start a < start b ∨ start a = start b ∧ id a ≤ id b := by
    intro l
    refine (List.pairwise_mergeSort ?_ ?_ l).imp fun {a b} hab => by simpa using hab
    · intro a b c hab hbc
      simp only [Bool.or_eq_true, Bool.and_eq_true, decide_eq_true_eq, beq_iff_eq] at *
      omega
    · intro a b
      simp only [Bool.or_eq_true, Bool.and_eq_true, decide_eq_true_eq, beq_iff_eq]
      omega
  refine List.Perm.eq_of_pairwise ?_ (hsorted l) (hsorted l') ?_
  · intro a b ha hb hab hba
    exact hids a (List.mem_mergeSort.1 ha) b (hperm.mem_iff.2 (List.mem_mergeSort.1 hb)) (by omega)
  · exact (List.mergeSort_perm l _).trans (hperm.trans (List.mergeSort_perm l' _).symm)

theorem FlowGraph.Rearranges.statements {g h : FlowGraph} (hgraph : g.Rearranges h)
    (hids : (g.stored.map (·.id)).Nodup) : g.statements = h.statements :=
  mergeSort_of_perm (fun s : Statement => s.origin.span.start) Statement.id hgraph.stored
    fun _ hs _ ht => List.inj_on_of_nodup_map hids hs ht

/-! ## Entities in step -/

/-- The same entity, apart from the layout of the blocks in it and around it. -/
inductive Entity.Alike : Entity → Entity → Prop
  | file {u v : ProgramUnit} (h : u.Rearranges v) : Alike (.file u) (.file v)
  | classDef {c d : Class} (h : c.Rearranges d) : Alike (.classDef c) (.classDef d)
  | method {c d : Class} {m n : Method} (hclass : c.Rearranges d) (h : m.Rearranges n) :
    Alike (.method c m) (.method d n)
  | statement {m n : Method} (h : m.Rearranges n) (s : Statement) :
    Alike (.statement m s) (.statement n s)
  | expression (s : Statement) (e : Expression) : Alike (.expression s e) (.expression s e)

theorem Method.map_id_stored (m : Method) : m.graph.stored.map (·.id) = m.ids :=
  List.map_flatMap ..

theorem Method.Rearranges.walk {c d : Class} {m n : Method} (hclass : c.Rearranges d)
    (h : m.Rearranges n) (hids : m.ids.Nodup) :
    List.Forall₂ Entity.Alike (m.walk c) (n.walk d) := by
  have hstatements := h.graph.statements (m.map_id_stored ▸ hids)
  unfold Method.walk
  rw [← FlowGraph.statements_eq_mergeSort, ← FlowGraph.statements_eq_mergeSort, ← hstatements,
    ← h.origin]
  split
  · refine .cons (.method hclass h) ?_
    refine List.rel_flatMap (List.forall₂_same.2 fun s _ => rfl) ?_
    rintro s _ rfl
    refine .cons (.statement h s) (List.forall₂_same.2 fun e he => ?_)
    obtain ⟨x, -, rfl⟩ := List.mem_map.1 he
    exact .expression s x
  · exact .nil

theorem Class.Rearranges.walk {c d : Class} (h : c.Rearranges d) (hids : c.ids.Nodup) :
    List.Forall₂ Entity.Alike c.walk d.walk := by
  have hmethods := (List.forall₂_and_left _ _).2 ⟨(List.nodup_flatMap.1 hids).1, h.methods⟩
  refine .cons (.classDef h) (List.rel_flatMap hmethods ?_)
  rintro m n ⟨hm, hmn⟩
  exact hmn.walk h hm

/-- Checkers are shown the same entities in the same order. -/
theorem ProgramUnit.Rearranges.walk {u v : ProgramUnit} (h : u.Rearranges v) (hids : u.ids.Nodup) :
    List.Forall₂ Entity.Alike u.walk v.walk := by
  have hclasses := (List.forall₂_and_left _ _).2 ⟨(List.nodup_flatMap.1 hids).1, h.classes⟩
  refine .cons (.file h) (List.rel_flatMap hclasses ?_)
  rintro c d ⟨hc, hcd⟩
  exact hcd.walk hc

/-! ## Rules that do not see the layout -/

/-- The same context, apart from the layout of the unit. -/
structure Context.Alike (a b : Context) : Prop where
  unit : a.unit.Rearranges b.unit
  ruleId : a.ruleId = b.ruleId
  severity : a.severity = b.severity
  docPath : a.docPath = b.docPath

namespace Context.Alike

variable {a b : Context}

theorem originLine (h : a.Alike b) : a.unit.originLine = b.unit.originLine := by
  funext o
  simp only [ProgramUnit.originLine, h.unit.source]

theorem unitOrigin (h : a.Alike b) : a.unitOrigin = b.unitOrigin := by
  simp only [Context.unitOrigin, h.unit.source]

theorem build (h : a.Alike b) : a.build = b.build := by
  funext line start stop description
  simp only [Context.build, h.ruleId, h.unit.path, h.severity, h.docPath]

theorem defect (h : a.Alike b) : a.defect = b.defect := by
  funext o description
  simp only [Context.defect, h.originLine, h.build]

theorem defectAt (h : a.Alike b) : a.defectAt = b.defectAt := by
  funext o token description
  simp only [Context.defectAt, Context.columnOf, h.originLine, h.build]

end Context.Alike

/-- The checker takes and finds the same whatever the layout is. -/
structure Checker.IgnoresLayout (c : Checker) : Prop where
  accepts : ∀ {e f : Entity}, e.Alike f → c.accepts e = c.accepts f
  check : ∀ {a b : Context} {e f : Entity}, a.Alike b → e.Alike f → c.check a e = c.check b f

theorem Entity.Alike.granularity {e f : Entity} (h : e.Alike f) : e.granularity = f.granularity := by
  cases h <;> rfl

theorem Entity.Alike.describe {e f : Entity} (h : e.Alike f) : e.describe = f.describe := by
  cases h with
  | file h => simp only [Entity.describe, h.name]
  | classDef h => simp only [Entity.describe, h.name]
  | method hclass h => simp only [Entity.describe, hclass.name, h.name]
  | statement h s => simp only [Entity.describe, h.name]
  | expression s e => rfl

/-- A rule with one matcher, neither of which sees the layout. -/
theorem Checker.IgnoresLayout.of_matcher {c : Checker} {m : Matcher}
    (find : Context → Entity → Outcome (List Issue)) (hmatcher : c.matchers = [m])
    (hcheck : c.check = fun context e => .ofFound (find context e))
    (hselect : ∀ {e f : Entity}, e.Alike f → (m.select.all (· e)) = m.select.all (· f))
    (hfind : ∀ {a b : Context} {e f : Entity}, a.Alike b → e.Alike f → find a e = find b f) :
    c.IgnoresLayout where
  accepts he := by
    simp only [Checker.accepts, hmatcher, List.any_cons, List.any_nil, Matcher.accepts,
      he.granularity, hselect he]
  check ha he := by simp only [hcheck, hfind ha he]

theorem ConsoleOutput.ignoresLayout_rule : rule.IgnoresLayout := by
  refine .of_matcher check rfl rfl (fun he => by cases he <;> rfl) ?_
  intro a b e f ha he
  cases he with
  | statement h s => simp only [check, ha.defectAt]
  | _ => rfl

theorem WeakCrypto.ignoresLayout_rule : rule.IgnoresLayout := by
  refine .of_matcher check rfl rfl (fun he => by cases he <;> rfl) ?_
  intro a b e f ha he
  cases he with
  | expression s e => simp only [check, ha.defectAt, ha.unit.source]
  | _ => rfl

theorem HardcodedSecret.ignoresLayout_rule (settings : RuleSettings) :
    (rule settings).IgnoresLayout := by
  refine .of_matcher (check (pattern (namesFor settings))) rfl rfl (fun _ => rfl) ?_
  intro a b e f ha he
  cases he with
  | statement h s => simp only [check, ha.originLine, ha.defectAt]
  | _ => rfl

theorem SqlInjection.ignoresLayout_rule : rule.IgnoresLayout := by
  refine .of_matcher check rfl rfl (fun he => by cases he <;> rfl) ?_
  intro a b e f ha he
  cases he with
  | expression s e => simp only [check, ha.defectAt]
  | _ => rfl

namespace Size

/-- A number that the layout does not change is checked against a limit. -/
theorem checkMethod_of_alike {count : Method → Nat}
    (hcount : ∀ {m n : Method}, m.Rearranges n → count m = count n) (limit : Nat)
    (words : Nat → String) {a b : Context} {e f : Entity} (ha : a.Alike b) (he : e.Alike f) :
    checkMethod count limit words a e = checkMethod count limit words b f := by
  cases he with
  | method hclass h =>
    simp only [checkMethod, methodIssue, hcount h, hclass.name, h.name, h.origin, ha.defectAt]
  | _ => rfl

theorem statementCount_of_rearranges {m n : Method} (h : m.Rearranges n) :
    m.statementCount = n.statementCount := h.graph.stored.length_eq

theorem complexity_of_rearranges {m n : Method} (h : m.Rearranges n) :
    m.graph.complexity = n.graph.complexity := by
  have hlength : m.graph.blocks.length = n.graph.blocks.length := by
    simpa using congrArg List.length h.graph.blocks
  have hempty : m.graph.blocks.isEmpty = n.graph.blocks.isEmpty := by
    rw [Bool.eq_iff_iff, List.isEmpty_iff_length_eq_zero, List.isEmpty_iff_length_eq_zero, hlength]
  simp only [FlowGraph.complexity, hempty, hlength, h.graph.edges]

theorem ignoresLayout_longMethod (settings : RuleSettings) : (longMethod settings).IgnoresLayout :=
  .of_matcher _ rfl rfl (fun _ => rfl)
    (checkMethod_of_alike statementCount_of_rearranges _ _)

theorem ignoresLayout_complexity (settings : RuleSettings) : (complexity settings).IgnoresLayout :=
  .of_matcher _ rfl rfl (fun _ => rfl)
    (checkMethod_of_alike complexity_of_rearranges _ _)

theorem ownMethods_of_rearranges {c d : Class} (h : c.Rearranges d) : ownMethods c = ownMethods d := by
  have hown : ∀ {ms ns : List Method}, List.Forall₂ Method.Rearranges ms ns →
      (ms.filter (!·.isSynthetic)).length = (ns.filter (!·.isSynthetic)).length := by
    intro ms ns hmethods
    induction hmethods with
    | nil => rfl
    | cons hm _ ih =>
      rw [List.filter_cons, List.filter_cons, Method.isSynthetic, Method.isSynthetic, hm.origin]
      split
      · rw [List.length_cons, List.length_cons, ih]
      · exact ih
  exact hown h.methods

theorem ignoresLayout_largeClass (settings : RuleSettings) : (largeClass settings).IgnoresLayout := by
  refine .of_matcher _ rfl rfl (fun _ => rfl) ?_
  intro a b e f ha he
  cases he with
  | classDef h =>
    simp only [checkClass, ownMethods_of_rearranges h, h.name, h.origin, ha.defect, ha.unitOrigin]
  | _ => rfl

theorem ignoresLayout_largeUnit (settings : RuleSettings) : (largeUnit settings).IgnoresLayout := by
  refine .of_matcher _ rfl rfl (fun _ => rfl) ?_
  intro a b e f ha he
  cases he with
  | file h => simp only [checkFile, h.lines, ha.defect, ha.unitOrigin]
  | _ => rfl

end Size

theorem ignoresLayout_of_mem_builtinRules {config : Config} {c : Checker}
    (h : c ∈ builtinRules config) : c.IgnoresLayout := by
  simp only [builtinRules, List.mem_cons, List.not_mem_nil, or_false] at h
  rcases h with rfl | rfl | rfl | rfl | rfl | rfl | rfl | rfl
  · exact ConsoleOutput.ignoresLayout_rule
  · exact WeakCrypto.ignoresLayout_rule
  · exact HardcodedSecret.ignoresLayout_rule _
  · exact SqlInjection.ignoresLayout_rule
  · exact Size.ignoresLayout_longMethod _
  · exact Size.ignoresLayout_complexity _
  · exact Size.ignoresLayout_largeClass _
  · exact Size.ignoresLayout_largeUnit _

/-! ## The walk -/

theorem flatMap_of_forall₂ {α β γ : Type} {R : α → β → Prop} {f : α → List γ} {g : β → List γ}
    {as : List α} {bs : List β} (h : List.Forall₂ R as bs) (hfg : ∀ a b, R a b → f a = g b) :
    as.flatMap f = bs.flatMap g := by
  induction h with
  | nil => rfl
  | cons hab _ ih => rw [List.flatMap_cons, List.flatMap_cons, hfg _ _ hab, ih]

namespace Entry

variable {n : Entry} {u v : ProgramUnit}

theorem alike_context (n : Entry) (h : u.Rearranges v) : (n.context u).Alike (n.context v) :=
  ⟨h, rfl, rfl, rfl⟩

/-- What the checker reports about an entity does not depend on the layout. -/
theorem issuesOn_singleton_of_alike (hn : n.checker.IgnoresLayout)
    (haccepts : ∀ e, n.accepts e = n.checker.accepts e) (h : u.Rearranges v) {e f : Entity}
    (he : e.Alike f) : n.issuesOn u [e] = n.issuesOn v [f] := by
  have hcheck := hn.check (n.alike_context h) he
  have hsame : n.accepts e = n.accepts f := by rw [haccepts, haccepts, hn.accepts he]
  simp only [issuesOn, List.filter_cons, List.filter_nil, hsame]
  split
  · simp only [List.flatMap_cons, List.flatMap_nil, Checker.issuesAlone, hcheck]
  · rfl

theorem issuesOn_eq_flatMap (n : Entry) (u : ProgramUnit) (es : List Entity) :
    n.issuesOn u es = es.flatMap fun e => n.issuesOn u [e] := by
  induction es with
  | nil => rfl
  | cons e es ih => rw [List.flatMap_cons, ← ih, ← issuesOn_append, List.singleton_append]

theorem faultOn?_of_alike (hn : n.checker.IgnoresLayout)
    (haccepts : ∀ e, n.accepts e = n.checker.accepts e) (h : u.Rearranges v) {e f : Entity}
    (he : e.Alike f) : n.faultOn? u e = n.faultOn? v f := by
  simp only [faultOn?, haccepts, hn.accepts he, Checker.faultAlone?,
    hn.check (n.alike_context h) he, he.describe]

end Entry

namespace Dispatcher

variable {checkers : List Checker} {config : Config} {u v : ProgramUnit}

/-- Checkers that do not see the layout find the same in two units that differ in it only. -/
theorem dispatch_of_rearranges (happ : ∀ c ∈ checkers, c.OnlyAppends)
    (hlayout : ∀ c ∈ checkers, c.IgnoresLayout) (h : u.Rearranges v) (hids : u.ids.Nodup) :
    (ofCheckers checkers config).dispatch u = (ofCheckers checkers config).dispatch v := by
  have hentries : ∀ n ∈ (ofCheckers checkers config).entries,
      n.checker ∈ checkers ∧ ∀ e, n.accepts e = n.checker.accepts e := by
    intro n hn
    rw [entries_ofCheckers, enrolled] at hn
    obtain ⟨c, hc, rfl⟩ := List.mem_map.1 hn
    exact ⟨(List.mem_filter.1 hc).1, Entry.accepts_ofChecker c _⟩
  have hindexed := indexed_ofCheckers checkers config
  obtain ⟨hissues, hfaults⟩ := tallies_dispatch _ u hindexed fun n hn => happ _ (hentries n hn).1
  obtain ⟨hissues', hfaults'⟩ := tallies_dispatch _ v hindexed fun n hn => happ _ (hentries n hn).1
  have hwalk := h.walk hids
  have hsame : ((ofCheckers checkers config).dispatch u).issues =
      ((ofCheckers checkers config).dispatch v).issues := by
    rw [hissues, hissues']
    refine List.flatMap_congr fun n hn => ?_
    obtain ⟨hmem, haccepts⟩ := hentries n hn
    rw [Entry.issuesOn_eq_flatMap, Entry.issuesOn_eq_flatMap n v]
    exact flatMap_of_forall₂ hwalk fun e f he =>
      Entry.issuesOn_singleton_of_alike (hlayout _ hmem) haccepts h he
  have hsame' : ((ofCheckers checkers config).dispatch u).faults =
      ((ofCheckers checkers config).dispatch v).faults := by
    rw [hfaults, hfaults']
    refine flatMap_of_forall₂ hwalk fun e f he => List.filterMap_congr fun n hn => ?_
    obtain ⟨hmem, haccepts⟩ := hentries n hn
    exact Entry.faultOn?_of_alike (hlayout _ hmem) haccepts h he
  exact congrArg₂ Findings.mk hsame hsame'

end Dispatcher

/-! ## Printing -/

theorem perm_flatMap_of_forall₂ {α β : Type} {R : α → α → Prop} {f : α → List β} {as bs : List α}
    (h : List.Forall₂ R as bs) (hf : ∀ a b, R a b → (f a).Perm (f b)) :
    (as.flatMap f).Perm (bs.flatMap f) := by
  induction h with
  | nil => exact .nil
  | cons hab _ ih =>
    rw [List.flatMap_cons, List.flatMap_cons]
    exact (hf _ _ hab).append ih

theorem ProgramUnit.Rearranges.statements {u v : ProgramUnit} (h : u.Rearranges v) :
    u.statements.Perm v.statements :=
  perm_flatMap_of_forall₂ h.classes fun _ _ hclass =>
    perm_flatMap_of_forall₂ hclass.methods fun _ _ hmethod => hmethod.graph.stored

namespace Printer

theorem id_changeOf (source : String) (s : Statement) (edit : Edit) :
    (changeOf source s edit).id = s.id := by
  cases edit <;> rfl

/-- With unique ids, no two changes come from statements with one id. -/
theorem eq_of_mem_pending {u : ProgramUnit} (hids : u.ids.Nodup) {a b : Change}
    (ha : a ∈ pending u) (hb : b ∈ pending u) (hid : a.id = b.id) : a = b := by
  obtain ⟨s, hs, edit, hedit, rfl⟩ := mem_pending_iff.1 ha
  obtain ⟨t, ht, edit', hedit', rfl⟩ := mem_pending_iff.1 hb
  rw [id_changeOf, id_changeOf] at hid
  obtain rfl := ProgramUnit.eq_of_id_eq hids hs ht hid
  rw [Option.some.inj (hedit.symm.trans hedit')]

theorem print_of_rearranges {u v : ProgramUnit} (h : u.Rearranges v) (hids : u.ids.Nodup)
    (hspans : ∀ s ∈ u.statements, s.origin.span.fits u.source = true) : print u = print v := by
  have hspans' : ∀ s ∈ v.statements, s.origin.span.fits v.source = true := fun s hs =>
    h.source ▸ hspans s (h.statements.mem_iff.2 hs)
  have hpending : (pending u).Perm (pending v) := by
    unfold pending
    rw [h.source]
    exact (h.statements.filterMap _).map _
  have hsorted : sorted u = sorted v :=
    mergeSort_of_perm (fun c : Change => c.span.start) Change.id hpending
      fun _ ha _ hb => eq_of_mem_pending hids ha hb
  rw [print_eq, print_eq, find?_isMisplaced_eq_none fun s hs _ => hspans s hs,
    find?_isMisplaced_eq_none fun s hs _ => hspans' s hs, hsorted, h.source]

end Printer

/-- How the statements of methods are spread over the blocks makes no difference: with unique ids and
spans that fit the source, the built-in rules find the same issues and leave the same faults, and the
unit is printed alike. -/
theorem findings_and_print_of_rearranges (config : Config) (u v : ProgramUnit) (h : u.Rearranges v)
    (hids : u.ids.Nodup) (hspans : ∀ s ∈ u.statements, s.origin.span.fits u.source = true) :
    (Dispatcher.ofCheckers (builtinRules config) config).dispatch u =
        (Dispatcher.ofCheckers (builtinRules config) config).dispatch v ∧
      Printer.print u = Printer.print v :=
  ⟨Dispatcher.dispatch_of_rearranges (fun _ => onlyAppends_of_mem_builtinRules)
      (fun _ => ignoresLayout_of_mem_builtinRules) h hids,
    Printer.print_of_rearranges h hids hspans⟩

/-- A statement that is to be replaced, and the one on the next line, which is to be removed. -/
def Statement.logged : Statement :=
  ⟨1, ⟨1, 1, ⟨0, 9⟩⟩, "print(x);", [⟨.call, some "print", "print(x)", ⟨1, 1, ⟨0, 8⟩⟩⟩],
    some (.replace "log(x);")⟩

def Statement.dropped : Statement := ⟨0, ⟨2, 1, ⟨10, 14⟩⟩, "b();", [], some .remove⟩

/-- Both statements in the first of two blocks, the later one in front. -/
def ProgramUnit.crowded : ProgramUnit where
  name := "m"
  path := "m.rs"
  source := "print(x);\nb();\n"
  classes := [⟨"c", none, [⟨"f", some ⟨1, 1, ⟨0, 14⟩⟩,
    ⟨[⟨0, [.dropped, .logged]⟩, ⟨1, []⟩], [(0, 1)]⟩⟩]⟩]

/-- The same statements in the order of their places, with a block each. -/
def FlowGraph.spread : FlowGraph := ⟨[⟨0, [.logged]⟩, ⟨1, [.dropped]⟩], [(0, 1)]⟩

theorem findings_and_print_of_rearranges_crowded :
    (∀ c m, ProgramUnit.crowded.classes[0]? = some c → c.methods[0]? = some m →
      m.graph.Rearranges .spread) ∧
    ProgramUnit.crowded.ids.Nodup ∧
    (∀ s ∈ ProgramUnit.crowded.statements,
      s.origin.span.fits ProgramUnit.crowded.source = true) ∧
    (Dispatcher.ofCheckers (builtinRules {}) {}).dispatch .crowded =
      (Dispatcher.ofCheckers (builtinRules {}) {}).dispatch
        (ProgramUnit.crowded.withGraph 0 0 .spread) ∧
    Printer.print .crowded = .ok (.ok "log(x);\n") := by
  have hgraph : ∀ c m, ProgramUnit.crowded.classes[0]? = some c → c.methods[0]? = some m →
      m.graph.Rearranges .spread := by
    rintro c m ⟨⟩ ⟨⟩
    exact ⟨rfl, rfl, .swap ..⟩
  have hids : ProgramUnit.crowded.ids.Nodup := by decide
  have hspans : ∀ s ∈ ProgramUnit.crowded.statements,
      s.origin.span.fits ProgramUnit.crowded.source = true := by decide +kernel
  obtain ⟨hfound, hprint⟩ := findings_and_print_of_rearranges {} _ _
    (ProgramUnit.rearranges_withGraph hgraph) hids hspans
  have hsorted : Printer.sorted (ProgramUnit.crowded.withGraph 0 0 .spread) =
      Printer.pending (ProgramUnit.crowded.withGraph 0 0 .spread) := by
    apply List.mergeSort_of_pairwise
    decide
  refine ⟨hgraph, hids, hspans, hfound, hprint.trans ?_⟩
  rw [Printer.print_eq, hsorted]
  rfl

end LintMend
