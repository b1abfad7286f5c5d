import LintMend.Proofs.AdmittedUnits
import LintMend.Proofs.JsonText

/-!
# Program units to JSON and back

A unit is written with all it has except for pending edits, and it is read back as it was written.
Numbers have to be machine words, as others are refused by the reader. What the reader accepts has
only such numbers and no edits, so that writing and reading it again changes nothing.
-/

namespace LintMend

open Json

/-! ## Parts of records -/

namespace Json

variable {α : Type} {encode : α → Json} {decode : Json → Option α}

theorem word?_ofNat {n : Nat} (h : n < wordLimit) : word? (ofNat n) = some n := if_pos h

theorem lt_of_word? {j : Json} {n : Nat} (h : word? j = some n) : n < wordLimit := by
  unfold word? at h
  split at h
  · split at h
    · next hlt =>
      cases h
      exact hlt
    · simp at h
  · simp at h

theorem list?_ofList {f : α → α} {as : List α} (h : ∀ a ∈ as, decode (encode a) = some (f a)) :
    list? decode (ofList encode as) = some (as.map f) := by
  change (as.map encode).mapM decode = _
  induction as with
  | nil => rfl
  | cons a as ih =>
    rw [List.forall_mem_cons] at h
    rw [List.map_cons, List.mapM_cons, h.1, ih h.2]
    rfl

theorem list?_ofList_self {as : List α} (h : ∀ a ∈ as, decode (encode a) = some a) :
    list? decode (ofList encode as) = some as := by
  rw [list?_ofList (f := id) h, List.map_id]

theorem exists_of_list? {j : Json} {as : List α} (h : list? decode j = some as) {a : α}
    (ha : a ∈ as) : ∃ item, decode item = some a := by
  unfold list? at h
  split at h
  · rcases exists_of_mem_mapM h ha with ⟨-, item, -, hitem⟩
    exact ⟨item, hitem⟩
  · simp at h

/-- A list that may be missing. -/
theorem exists_of_withDefault? {value : Option Json} {as : List α}
    (h : withDefault? (list? decode) [] value = some as) {a : α} (ha : a ∈ as) :
    ∃ item, decode item = some a := by
  cases value with
  | none =>
    cases h
    simp at ha
  | some j => exact exists_of_list? h ha

theorem nullable?_ofOption {o : Option α} (hnull : ∀ a, encode a ≠ .null)
    (h : ∀ a ∈ o, decode (encode a) = some a) : nullable? decode (ofOption encode o) = some o := by
  cases o with
  | none => rfl
  | some a =>
    have hdecode := h a rfl
    unfold nullable? ofOption
    split
    · next hencode => exact absurd hencode (hnull a)
    · rw [hdecode, Option.map_some]

theorem exists_of_nullable? {value : Option Json} {o : Option α}
    (h : withDefault? (nullable? decode) none value = some o) {a : α} (ha : a ∈ o) :
    ∃ j, decode j = some a := by
  cases value with
  | none =>
    cases h
    simp at ha
  | some j =>
    change nullable? decode j = some o at h
    unfold nullable? at h
    split at h
    · cases h
      simp at ha
    · rcases Option.map_eq_some_iff.1 h with ⟨b, hb, rfl⟩
      cases ha
      exact ⟨_, hb⟩

theorem exists_of_required? {value : Option Json} {a : α} (h : required? decode value = some a) :
    ∃ j, decode j = some a := by
  rcases Option.bind_eq_some_iff.1 h with ⟨j, -, hj⟩
  exact ⟨j, hj⟩

theorem arePlain_map (as : List α) (h : ∀ a, (encode a).isPlain = true) :
    arePlain (as.map encode) = true := by
  induction as with
  | nil => rfl
  | cons a as ih => rw [List.map_cons, arePlain, h a, ih, Bool.and_true]

theorem isPlain_ofList (as : List α) (h : ∀ a, (encode a).isPlain = true) :
    (ofList encode as).isPlain = true := by
  rw [ofList, isPlain]
  exact arePlain_map as h

theorem isPlain_ofOption (o : Option α) (h : ∀ a, (encode a).isPlain = true) :
    (ofOption encode o).isPlain = true := by
  cases o with
  | none => rfl
  | some a => exact h a

end Json

/-! ## Numbers of a unit -/

def Span.Worded (s : Span) : Prop := s.start < wordLimit ∧ s.stop < wordLimit

def Origin.Worded (o : Origin) : Prop :=
  o.line < wordLimit ∧ o.column < wordLimit ∧ o.span.Worded

def Statement.Worded (s : Statement) : Prop :=
  s.id < wordLimit ∧ s.origin.Worded ∧ ∀ e ∈ s.expressions, e.origin.Worded

def FlowBlock.Worded (b : FlowBlock) : Prop := b.id < wordLimit ∧ ∀ s ∈ b.statements, s.Worded

def FlowGraph.Worded (g : FlowGraph) : Prop :=
  (∀ b ∈ g.blocks, b.Worded) ∧ ∀ edge ∈ g.edges, edge.1 < wordLimit ∧ edge.2 < wordLimit

def Method.Worded (m : Method) : Prop := (∀ o ∈ m.origin, o.Worded) ∧ m.graph.Worded

def Class.Worded (c : Class) : Prop := (∀ o ∈ c.origin, o.Worded) ∧ ∀ m ∈ c.methods, m.Worded

/-- All numbers of the unit are machine words. -/
def ProgramUnit.Worded (u : ProgramUnit) : Prop := ∀ c ∈ u.classes, c.Worded

/-! ## Writing -/

theorem Origin.isPlain_toJson (o : Origin) : o.toJson.isPlain = true := rfl

theorem Expression.isPlain_toJson (e : Expression) : e.toJson.isPlain = true := by
  have hname : (ofOption Json.string e.name).isPlain = true :=
    isPlain_ofOption e.name fun _ => rfl
  simp [toJson, isPlain, havePlain, hname, e.origin.isPlain_toJson, ExpressionKind.toJson]

theorem Statement.isPlain_toJson (s : Statement) : s.toJson.isPlain = true := by
  have hexpressions := isPlain_ofList s.expressions Expression.isPlain_toJson
  simp [toJson, isPlain, havePlain, ofNat, s.origin.isPlain_toJson, hexpressions]

theorem FlowBlock.isPlain_toJson (b : FlowBlock) : b.toJson.isPlain = true := by
  have hstatements := isPlain_ofList b.statements Statement.isPlain_toJson
  simp [toJson, isPlain, havePlain, ofNat, hstatements]

theorem FlowGraph.isPlain_toJson (g : FlowGraph) : g.toJson.isPlain = true := by
  have hblocks := isPlain_ofList g.blocks FlowBlock.isPlain_toJson
  have hedges : (ofList (fun (edge : Nat × Nat) =>
      Json.array [ofNat edge.1, ofNat edge.2]) g.edges).isPlain = true :=
    isPlain_ofList g.edges fun _ => rfl
  simp [toJson, isPlain, havePlain, hblocks, hedges]

theorem Method.isPlain_toJson (m : Method) : m.toJson.isPlain = true := by
  have horigin := isPlain_ofOption m.origin Origin.isPlain_toJson
  simp [toJson, isPlain, havePlain, horigin, m.graph.isPlain_toJson]

theorem Class.isPlain_toJson (c : Class) : c.toJson.isPlain = true := by
  have horigin := isPlain_ofOption c.origin Origin.isPlain_toJson
  have hmethods := isPlain_ofList c.methods Method.isPlain_toJson
  simp [toJson, isPlain, havePlain, horigin, hmethods]

theorem ProgramUnit.isPlain_toJson (u : ProgramUnit) : u.toJson.isPlain = true := by
  have hclasses := isPlain_ofList u.classes Class.isPlain_toJson
  simp [toJson, isPlain, havePlain, hclasses]

/-! ## Reading what was written -/

theorem Span.ofJson?_toJson {s : Span} (h : s.Worded) : ofJson? s.toJson = some s := by
  simp [toJson, ofJson?, record?, field?, required?, word?_ofNat h.1, word?_ofNat h.2]

theorem Origin.ofJson?_toJson {o : Origin} (h : o.Worded) : ofJson? o.toJson = some o := by
  simp [toJson, ofJson?, record?, field?, required?, word?_ofNat h.1, word?_ofNat h.2.1,
    Span.ofJson?_toJson h.2.2]

theorem Expression.ofJson?_toJson {e : Expression} (h : e.origin.Worded) :
    ofJson? e.toJson = some e := by
  have hname : nullable? text? (ofOption .string e.name) = some e.name :=
    nullable?_ofOption (by simp) fun _ _ => rfl
  simp [toJson, ofJson?, record?, field?, required?, withDefault?, hname, text?, choice?,
    ExpressionKind.toJson, ExpressionKind.ofJson?, ExpressionKind.ofName?_name,
    Origin.ofJson?_toJson h]

/-- The statement without its pending edit. -/
def Statement.unedited (s : Statement) : Statement := { s with edit := none }

theorem Statement.ofJson?_toJson {s : Statement} (h : s.Worded) :
    ofJson? s.toJson = some s.unedited := by
  have hexpressions : list? Expression.ofJson? (ofList Expression.toJson s.expressions) =
      some s.expressions :=
    list?_ofList_self fun e he => Expression.ofJson?_toJson (h.2.2 e he)
  simp [toJson, ofJson?, record?, field?, required?, withDefault?, text?, word?_ofNat h.1,
    Origin.ofJson?_toJson h.2.1, hexpressions, unedited]

theorem FlowBlock.ofJson?_toJson {b : FlowBlock} (h : b.Worded) :
    ofJson? b.toJson = some (b.mapStatements Statement.unedited) := by
  have hstatements : list? Statement.ofJson? (ofList Statement.toJson b.statements) =
      some (b.statements.map Statement.unedited) :=
    list?_ofList fun s hs => Statement.ofJson?_toJson (h.2 s hs)
  simp [toJson, ofJson?, record?, field?, required?, withDefault?, word?_ofNat h.1, hstatements,
    mapStatements]

theorem FlowGraph.ofJson?_toJson {g : FlowGraph} (h : g.Worded) :
    ofJson? g.toJson =
      some { g with blocks := g.blocks.map (FlowBlock.mapStatements Statement.unedited) } := by
  have hblocks : list? FlowBlock.ofJson? (ofList FlowBlock.toJson g.blocks) =
      some (g.blocks.map (FlowBlock.mapStatements Statement.unedited)) :=
    list?_ofList fun b hb => FlowBlock.ofJson?_toJson (h.1 b hb)
  have hedges : list? (pair? word? word?)
      (ofList (fun (edge : Nat × Nat) => .array [ofNat edge.1, ofNat edge.2]) g.edges) =
      some g.edges := by
    apply list?_ofList_self
    intro edge hedge
    simp [pair?, word?_ofNat (h.2 edge hedge).1, word?_ofNat (h.2 edge hedge).2]
  simp [toJson, ofJson?, record?, field?, withDefault?, hblocks, hedges]

theorem Method.ofJson?_toJson {m : Method} (h : m.Worded) :
    ofJson? m.toJson = some (m.mapStatements Statement.unedited) := by
  have horigin : nullable? Origin.ofJson? (ofOption Origin.toJson m.origin) = some m.origin :=
    nullable?_ofOption (by simp [Origin.toJson]) fun o ho => Origin.ofJson?_toJson (h.1 o ho)
  simp [toJson, ofJson?, record?, field?, required?, withDefault?, text?, horigin,
    FlowGraph.ofJson?_toJson h.2, mapStatements]

theorem Class.ofJson?_toJson {c : Class} (h : c.Worded) :
    ofJson? c.toJson = some (c.mapStatements Statement.unedited) := by
  have horigin : nullable? Origin.ofJson? (ofOption Origin.toJson c.origin) = some c.origin :=
    nullable?_ofOption (by simp [Origin.toJson]) fun o ho => Origin.ofJson?_toJson (h.1 o ho)
  have hmethods : list? Method.ofJson? (ofList Method.toJson c.methods) =
      some (c.methods.map (Method.mapStatements Statement.unedited)) :=
    list?_ofList fun m hm => Method.ofJson?_toJson (h.2 m hm)
  simp [toJson, ofJson?, record?, field?, required?, withDefault?, text?, horigin, hmethods,
    mapStatements]

theorem ProgramUnit.ofJson?_toJson {u : ProgramUnit} (h : u.Worded) :
    ofJson? u.toJson = some (u.mapStatements Statement.unedited) := by
  have hclasses : list? Class.ofJson? (ofList Class.toJson u.classes) =
      some (u.classes.map (Class.mapStatements Statement.unedited)) :=
    list?_ofList fun c hc => Class.ofJson?_toJson (h c hc)
  simp [toJson, ofJson?, record?, field?, required?, withDefault?, text?, hclasses, mapStatements]

/-! ## What is read -/

theorem Span.worded_of_ofJson? {j : Json} {s : Span} (h : ofJson? j = some s) : s.Worded := by
  rcases Option.bind_eq_some_iff.1 h with ⟨values, -, h⟩
  split at h
  · rcases Option.bind_eq_some_iff.1 h with ⟨start, hstart, h⟩
    rcases Option.bind_eq_some_iff.1 h with ⟨stop, hstop, h⟩
    rcases exists_of_required? hstart with ⟨_, hstart⟩
    rcases exists_of_required? hstop with ⟨_, hstop⟩
    cases h
    exact ⟨lt_of_word? hstart, lt_of_word? hstop⟩
  · simp at h

theorem Origin.worded_of_ofJson? {j : Json} {o : Origin} (h : ofJson? j = some o) : o.Worded := by
  rcases Option.bind_eq_some_iff.1 h with ⟨values, -, h⟩
  split at h
  · rcases Option.bind_eq_some_iff.1 h with ⟨line, hline, h⟩
    rcases Option.bind_eq_some_iff.1 h with ⟨column, hcolumn, h⟩
    rcases Option.bind_eq_some_iff.1 h with ⟨span, hspan, h⟩
    rcases exists_of_required? hline with ⟨_, hline⟩
    rcases exists_of_required? hcolumn with ⟨_, hcolumn⟩
    rcases exists_of_required? hspan with ⟨_, hspan⟩
    cases h
    exact ⟨lt_of_word? hline, lt_of_word? hcolumn, Span.worded_of_ofJson? hspan⟩
  · simp at h

theorem Expression.worded_of_ofJson? {j : Json} {e : Expression} (h : ofJson? j = some e) :
    e.origin.Worded := by
  rcases Option.bind_eq_some_iff.1 h with ⟨values, -, h⟩
  split at h
  · rcases Option.bind_eq_some_iff.1 h with ⟨kind, -, h⟩
    rcases Option.bind_eq_some_iff.1 h with ⟨name, -, h⟩
    rcases Option.bind_eq_some_iff.1 h with ⟨text, -, h⟩
    rcases Option.bind_eq_some_iff.1 h with ⟨origin, horigin, h⟩
    rcases exists_of_required? horigin with ⟨_, horigin⟩
    cases h
    exact Origin.worded_of_ofJson? horigin
  · simp at h

/-- A statement that is read has no pending edit. -/
theorem Statement.worded_of_ofJson? {j : Json} {s : Statement} (h : ofJson? j = some s) :
    s.Worded ∧ s.unedited = s := by
  rcases Option.bind_eq_some_iff.1 h with ⟨values, -, h⟩
  split at h
  · rcases Option.bind_eq_some_iff.1 h with ⟨id, hid, h⟩
    rcases Option.bind_eq_some_iff.1 h with ⟨origin, horigin, h⟩
    rcases Option.bind_eq_some_iff.1 h with ⟨text, -, h⟩
    rcases Option.bind_eq_some_iff.1 h with ⟨expressions, hexpressions, h⟩
    rcases exists_of_required? hid with ⟨_, hid⟩
    rcases exists_of_required? horigin with ⟨_, horigin⟩
    cases h
    refine ⟨⟨lt_of_word? hid, Origin.worded_of_ofJson? horigin, ?_⟩, rfl⟩
    intro e he
    rcases exists_of_withDefault? hexpressions he with ⟨_, hexpression⟩
    exact Expression.worded_of_ofJson? hexpression
  · simp at h

theorem FlowBlock.worded_of_ofJson? {j : Json} {b : FlowBlock} (h : ofJson? j = some b) :
    b.Worded ∧ ∀ s ∈ b.statements, s.unedited = s := by
  rcases Option.bind_eq_some_iff.1 h with ⟨values, -, h⟩
  split at h
  · rcases Option.bind_eq_some_iff.1 h with ⟨id, hid, h⟩
    rcases Option.bind_eq_some_iff.1 h with ⟨statements, hstatements, h⟩
    rcases exists_of_required? hid with ⟨_, hid⟩
    cases h
    have hread : ∀ s ∈ statements, s.Worded ∧ s.unedited = s := by
      intro s hs
      rcases exists_of_withDefault? hstatements hs with ⟨_, hstatement⟩
      exact Statement.worded_of_ofJson? hstatement
    exact ⟨⟨lt_of_word? hid, fun s hs => (hread s hs).1⟩, fun s hs => (hread s hs).2⟩
  · simp at h

theorem FlowGraph.worded_of_ofJson? {j : Json} {g : FlowGraph} (h : ofJson? j = some g) :
    g.Worded ∧ ∀ s ∈ g.stored, s.unedited = s := by
  rcases Option.bind_eq_some_iff.1 h with ⟨values, -, h⟩
  split at h
  · rcases Option.bind_eq_some_iff.1 h with ⟨blocks, hblocks, h⟩
    rcases Option.bind_eq_some_iff.1 h with ⟨edges, hedges, h⟩
    cases h
    have hread : ∀ b ∈ blocks, b.Worded ∧ ∀ s ∈ b.statements, s.unedited = s := by
      intro b hb
      rcases exists_of_withDefault? hblocks hb with ⟨_, hblock⟩
      exact FlowBlock.worded_of_ofJson? hblock
    refine ⟨⟨fun b hb => (hread b hb).1, ?_⟩, ?_⟩
    · intro edge hedge
      rcases exists_of_withDefault? hedges hedge with ⟨item, hitem⟩
      unfold pair? at hitem
      split at hitem
      · rcases Option.bind_eq_some_iff.1 hitem with ⟨source, hsource, hitem⟩
        rcases Option.bind_eq_some_iff.1 hitem with ⟨target, htarget, hitem⟩
        cases hitem
        exact ⟨lt_of_word? hsource, lt_of_word? htarget⟩
      · simp at hitem
    · intro s hs
      rcases List.mem_flatMap.1 hs with ⟨b, hb, hs⟩
      exact (hread b hb).2 s hs
  · simp at h

theorem Method.worded_of_ofJson? {j : Json} {m : Method} (h : ofJson? j = some m) :
    m.Worded ∧ ∀ s ∈ m.graph.stored, s.unedited = s := by
  rcases Option.bind_eq_some_iff.1 h with ⟨values, -, h⟩
  split at h
  · rcases Option.bind_eq_some_iff.1 h with ⟨name, -, h⟩
    rcases Option.bind_eq_some_iff.1 h with ⟨origin, horigin, h⟩
    rcases Option.bind_eq_some_iff.1 h with ⟨graph, hgraph, h⟩
    cases h
    have hread : graph.Worded ∧ ∀ s ∈ graph.stored, s.unedited = s := by
      unfold withDefault? at hgraph
      split at hgraph
      · cases hgraph
        simp [FlowGraph.Worded, FlowGraph.stored]
      · exact FlowGraph.worded_of_ofJson? hgraph
    refine ⟨⟨fun o ho => ?_, hread.1⟩, hread.2⟩
    rcases exists_of_nullable? horigin ho with ⟨_, horigin⟩
    exact Origin.worded_of_ofJson? horigin
  · simp at h

theorem Class.worded_of_ofJson? {j : Json} {c : Class} (h : ofJson? j = some c) :
    c.Worded ∧ ∀ m ∈ c.methods, ∀ s ∈ m.graph.stored, s.unedited = s := by
  rcases Option.bind_eq_some_iff.1 h with ⟨values, -, h⟩
  split at h
  · rcases Option.bind_eq_some_iff.1 h with ⟨name, -, h⟩
    rcases Option.bind_eq_some_iff.1 h with ⟨origin, horigin, h⟩
    rcases Option.bind_eq_some_iff.1 h with ⟨methods, hmethods, h⟩
    cases h
    have hread : ∀ m ∈ methods, m.Worded ∧ ∀ s ∈ m.graph.stored, s.unedited = s := by
      intro m hm
      rcases exists_of_withDefault? hmethods hm with ⟨_, hmethod⟩
      exact Method.worded_of_ofJson? hmethod
    refine ⟨⟨fun o ho => ?_, fun m hm => (hread m hm).1⟩, fun m hm => (hread m hm).2⟩
    rcases exists_of_nullable? horigin ho with ⟨_, horigin⟩
    exact Origin.worded_of_ofJson? horigin
  · simp at h

theorem ProgramUnit.worded_of_ofJson? {j : Json} {u : ProgramUnit} (h : ofJson? j = some u) :
    u.Worded ∧ ∀ s ∈ u.statements, s.unedited = s := by
  rcases Option.bind_eq_some_iff.1 h with ⟨values, -, h⟩
  split at h
  · rcases Option.bind_eq_some_iff.1 h with ⟨name, -, h⟩
    rcases Option.bind_eq_some_iff.1 h with ⟨path, -, h⟩
    rcases Option.bind_eq_some_iff.1 h with ⟨source, -, h⟩
    rcases Option.bind_eq_some_iff.1 h with ⟨classes, hclasses, h⟩
    cases h
    have hread : ∀ c ∈ classes,
        c.Worded ∧ ∀ m ∈ c.methods, ∀ s ∈ m.graph.stored, s.unedited = s := by
      intro c hc
      rcases exists_of_withDefault? hclasses hc with ⟨_, hclass⟩
      exact Class.worded_of_ofJson? hclass
    refine ⟨fun c hc => (hread c hc).1, fun s hs => ?_⟩
    rcases List.mem_flatMap.1 hs with ⟨c, hc, hs⟩
    rcases List.mem_flatMap.1 hs with ⟨m, hm, hs⟩
    exact (hread c hc).2 m hm s hs
  · simp at h

/-! ## Loading -/

namespace Frontend

theorem fault?_unedited (u : ProgramUnit) :
    (u.mapStatements Statement.unedited).fault? = u.fault? := by
  have horigins : (u.mapStatements Statement.unedited).origins = u.origins :=
    ProgramUnit.origins_mapStatements u (fun _ => rfl) (fun _ => rfl) fun _ => rfl
  unfold ProgramUnit.fault?
  rw [horigins]
  rfl

theorem withName_of_ne {u : ProgramUnit} (h : u.name ≠ "") (name : String) :
    withName name u = u := by
  simp [withName, h]

theorem withName_withName (name : String) (u : ProgramUnit) :
    withName name (withName name u) = withName name u := by
  by_cases h : u.name = ""
  · simp [withName, h]
  · rw [withName_of_ne h, withName_of_ne h]

/-- A unit in order is read back from its text, if it keeps its name. -/
theorem parseModel_compact {name : String} (path : String) {u : ProgramUnit}
    (hname : withName name (u.mapStatements Statement.unedited) =
      u.mapStatements Statement.unedited)
    (hwords : u.Worded) (hfault : u.fault? = none) (hids : (u.statements.map (·.id)).Nodup) :
    parseModel name path u.toJson.compact = .ok (u.mapStatements Statement.unedited) := by
  apply parseModel_eq_ok_iff.2
  refine ⟨?_, ?_, ?_⟩
  · rw [Json.parse?_compact u.isPlain_toJson, Option.bind_some, ProgramUnit.ofJson?_toJson hwords,
      Option.map_some, hname]
  · rw [fault?_unedited, hfault]
  · rw [ProgramUnit.statements_mapStatements, List.map_map]
    exact hids

/-- Units go to JSON and back. A unit with a name, whose numbers are machine words and which has no
fault and unique ids, is read back from its text without its edits; and a unit that was read is read
back as it is. -/
theorem model_round_trip (name path : String) :
    (∀ u : ProgramUnit, u.name ≠ "" → u.Worded → u.fault? = none →
        (u.statements.map (·.id)).Nodup →
        parseModel name path u.toJson.compact = .ok (u.mapStatements Statement.unedited)) ∧
      ∀ (source : String) (u : ProgramUnit), parseModel name path source = .ok u →
        parseModel name path u.toJson.compact = .ok u := by
  constructor
  · intro u hname hwords hfault hids
    have hkept : (u.mapStatements Statement.unedited).name ≠ "" := hname
    exact parseModel_compact path (withName_of_ne hkept name) hwords hfault hids
  · intro source u h
    rcases parseModel_eq_ok_iff.1 h with ⟨hread, hfault, hids⟩
    rcases Option.map_eq_some_iff.1 hread with ⟨v, hv, rfl⟩
    rcases Option.bind_eq_some_iff.1 hv with ⟨j, -, hj⟩
    have hwords : (withName name v).Worded ∧ ∀ s ∈ (withName name v).statements, s.unedited = s := by
      have hdecoded := ProgramUnit.worded_of_ofJson? hj
      unfold withName
      split <;> exact hdecoded
    have hunedited : (withName name v).mapStatements Statement.unedited = withName name v :=
      ProgramUnit.mapStatements_eq_self hwords.2
    have hparsed := parseModel_compact path (by rw [hunedited, withName_withName]) hwords.1 hfault
      hids
    rw [hparsed, hunedited]

/-- A call that is to be removed, in a graph of two blocks. -/
def removedCall : ProgramUnit where
  name := "m"
  path := "m.rs"
  source := "f(1);"
  classes := [⟨"c", some ⟨1, 1, ⟨0, 5⟩⟩, [⟨"g", none,
    ⟨[⟨0, [⟨7, ⟨1, 1, ⟨0, 5⟩⟩, "f(1);", [⟨.call, some "f", "f(1)", ⟨1, 1, ⟨0, 4⟩⟩⟩,
      ⟨.numberLiteral, none, "1", ⟨1, 3, ⟨2, 3⟩⟩⟩], some .remove⟩]⟩, ⟨1, []⟩], [(0, 1), (1, 0)]⟩⟩]⟩]

theorem model_round_trip_removedCall :
    parseModel "n" "n.unit.json" removedCall.toJson.compact =
        .ok (removedCall.mapStatements Statement.unedited) ∧
      parseModel "n" "n.unit.json"
          (removedCall.mapStatements Statement.unedited).toJson.compact =
        .ok (removedCall.mapStatements Statement.unedited) := by
  have hwords : removedCall.Worded := by
    simp [removedCall, ProgramUnit.Worded, Class.Worded, Method.Worded, FlowGraph.Worded,
      FlowBlock.Worded, Statement.Worded, Origin.Worded, Span.Worded, wordLimit]
    omega
  have hparsed := (model_round_trip "n" "n.unit.json").1 removedCall (by decide) hwords
    (by decide +kernel) (by decide)
  exact ⟨hparsed, (model_round_trip "n" "n.unit.json").2 _ _ hparsed⟩

end Frontend

end LintMend
