import LintMend.Proofs.AdmittedUnits
import LintMend.Proofs.DefectColumns
import LintMend.Proofs.DispatchReference
import LintMend.Proofs.ModelExchange

/-!
# Faults of the built-in rules

The only thing that can stop a built-in rule is the column of an entity, which nothing bounds when a
unit is read from JSON. A rule that finds something in an entity at column zero finds the same in any
other column, with its columns moved. It is given up exactly if an end column does not fit a word after
the move. In source text columns are too small for that.
-/

namespace LintMend

/-! ## Columns -/

/-- The origin in another column of its line. -/
def Origin.atColumn (column : Nat) (o : Origin) : Origin := { o with column }

@[simp] theorem Origin.span_atColumn (column : Nat) (o : Origin) :
    (o.atColumn column).span = o.span := rfl

namespace Entity

/-- The column of an entity; zero for an entity without an origin. -/
def column (e : Entity) : Nat := (e.origin?.map Origin.column).getD 0

/-- The entity with its own origin in another column. -/
def atColumn (column : Nat) : Entity → Entity
  | .file u => .file u
  | .classDef c => .classDef { c with origin := c.origin.map (Origin.atColumn column) }
  | .method c m => .method c { m with origin := m.origin.map (Origin.atColumn column) }
  | .statement m s => .statement m { s with origin := s.origin.atColumn column }
  | .expression s e => .expression s { e with origin := e.origin.atColumn column }

theorem atColumn_column (e : Entity) : e.atColumn e.column = e := by
  have hmap : ∀ o : Option Origin,
      o.map (Origin.atColumn ((o.map Origin.column).getD 0)) = o := by
    intro o
    cases o <;> rfl
  cases e with
  | file u => rfl
  | classDef c => rw [atColumn, column, origin?, hmap]
  | method c m => rw [atColumn, column, origin?, hmap]
  | statement m s => rfl
  | expression s e => rfl

end Entity

/-- The defect moved to the right. -/
def Defect.moved (columns : Nat) (d : Defect) : Defect :=
  { d with startColumn := columns + d.startColumn, endColumn := columns + d.endColumn }

/-- The issue moved to the right. -/
def Issue.moved (columns : Nat) (i : Issue) : Issue := { i with defect := i.defect.moved columns }

/-- The issues moved to the right, as long as the columns where they end fit words. -/
def Issue.moveAll (columns : Nat) (issues : List Issue) : Outcome (List Issue) :=
  if issues.all fun i => columns + i.defect.endColumn < wordLimit then
    .ok (issues.map (Issue.moved columns))
  else .error Context.overflow

/-- What is found in an entity is what is found in it at column zero, moved. Only columns beyond the
signed words can be too far. -/
def Moves (find : Entity → Outcome (List Issue)) (e : Entity) : Prop :=
  ∃ issues, find (e.atColumn 0) = .ok issues ∧ find e = Issue.moveAll e.column issues ∧
    ∀ i ∈ issues, wordLimit ≤ e.column + i.defect.endColumn → signedLimit < e.column

namespace Moves

variable {find : Entity → Outcome (List Issue)} {e : Entity}

theorem nothing (h : ∀ column, find (e.atColumn column) = .ok []) : Moves find e := by
  refine ⟨[], h 0, ?_, by simp⟩
  rw [← e.atColumn_column]
  exact h _

/-- A rule that builds an issue from a defect of the entity. -/
theorem single (c : Context) (o : Origin) (start width : Nat) (description : String)
    (issue : Defect → Issue) (hmoved : ∀ columns d, issue (d.moved columns) = (issue d).moved columns)
    (hend : ∀ d, (issue d).defect.endColumn = d.endColumn) (hwidth : width < signedLimit)
    (hcolumn : e.column = o.column)
    (h : ∀ column, find (e.atColumn column) = do
      return [issue (← c.buildAt (o.atColumn column) start width description)]) :
    Moves find e := by
  have hsmall : width < wordLimit := hwidth.trans (by decide)
  have hzero : c.buildAt (o.atColumn 0) start width description =
      .ok (c.build o.line start width description) := by
    simp [Context.buildAt, Origin.atColumn, hsmall]
  have hhere : c.buildAt (o.atColumn e.column) start width description =
      if e.column + width < wordLimit then
        .ok ((c.build o.line start width description).moved e.column)
      else .error Context.overflow := rfl
  have hstop : (c.build o.line start width description).endColumn = width := rfl
  refine ⟨[issue (c.build o.line start width description)], ?_, ?_, ?_⟩
  · rw [h 0, hzero]
    rfl
  · rw [← e.atColumn_column, h, hhere, Entity.atColumn_column, Issue.moveAll]
    by_cases hfits : e.column + width < wordLimit
    · simp [hfits, hend, hstop, ← hmoved, bind, Except.bind, pure, Except.pure]
    · simp [hfits, hend, hstop, bind, Except.bind]
  · intro i hi hfar
    rw [List.mem_singleton.1 hi, hend, hstop] at hfar
    simp only [signedLimit, wordLimit] at *
    omega

/-- A rule that builds an issue from a defect at the beginning of the file. -/
theorem fixed (c : Context) {start width : Nat} {description : String}
    (hwidth : width < signedLimit) (hcolumn : e.column = 0)
    (h : ∀ column, find (e.atColumn column) = do
      return [⟨← c.buildAt c.unitOrigin start width description, none⟩]) : Moves find e := by
  have hsmall : 1 + width < wordLimit := by
    simp only [signedLimit, wordLimit] at *
    omega
  have hbuilt : c.buildAt c.unitOrigin start width description =
      .ok (c.build 1 (1 + start) (1 + width) description) := by
    rw [Context.buildAt]
    exact if_pos hsmall
  have hhere := h e.column
  rw [Entity.atColumn_column, hbuilt] at hhere
  refine ⟨_, (h 0).trans (by rw [hbuilt]; rfl), ?_, ?_⟩
  · rw [hhere, hcolumn]
    simp [Issue.moveAll, Issue.moved, Defect.moved, Context.build, hsmall, bind, Except.bind, pure,
      Except.pure]
  · intro i hi hfar
    have hstop : i.defect.endColumn = 1 + width := by rw [List.mem_singleton.1 hi]; rfl
    omega

/-- A rule that builds an issue from a defect at a token of the entity. -/
theorem token (c : Context) (o : Origin) {token description : String} (issue : Defect → Issue)
    (hmoved : ∀ columns d, issue (d.moved columns) = (issue d).moved columns)
    (hend : ∀ d, (issue d).defect.endColumn = d.endColumn)
    (hsource : byteLength c.unit.source < signedLimit) (htoken : byteLength token < signedLimit)
    (hcolumn : e.column = o.column)
    (h : ∀ column, find (e.atColumn column) = do
      return [issue (← c.defectAt (o.atColumn column) token description)]) : Moves find e := by
  have hwidth : c.tokenOffset o token + byteLength token < signedLimit :=
    (c.tokenOffset_add_le o token).trans_lt (max_lt hsource htoken)
  apply single c o (c.tokenOffset o token) _ description issue hmoved hend hwidth hcolumn
  intro column
  rw [h column, Context.defectAt_eq_buildAt]
  rfl

end Moves

/-! ## The rules, one by one -/

theorem Outcome.ok_bind {α β : Type} (a : α) (f : α → Outcome β) : (Except.ok a >>= f) = f a := rfl

/-- Small letters take as many bytes as the capital ones of ASCII. -/
theorem Text.utf8Size_toLower (c : Char) : c.toLower.utf8Size = c.utf8Size := by
  unfold Char.toLower
  split
  · next h =>
    have hle : c.val.toNat ≤ 90 := UInt32.le_iff_toNat_le.1 h.2
    have hmoved : (c.val + ('a'.val - 'A'.val)).toNat ≤ 127 := by
      have hgap : ('a'.val - 'A'.val).toNat = 32 := by decide
      rw [UInt32.toNat_add]
      omega
    have hsize : c.utf8Size = 1 :=
      Char.utf8Size_eq_one_iff.2 (UInt32.le_iff_toNat_le.2 (hle.trans (by decide)))
    rw [hsize]
    exact Char.utf8Size_eq_one_iff.2 (UInt32.le_iff_toNat_le.2 hmoved)
  · rfl

theorem Text.bytes_lowerAscii (cs : List Char) : bytes (lowerAscii cs) = bytes cs := by
  induction cs with
  | nil => rfl
  | cons c cs ih =>
    rw [bytes_cons, ← ih, ← utf8Size_toLower]
    exact bytes_cons _ _

section Rules

variable {c : Context}

/-- What is found in a statement is a call in it, with a name that writes to the console. -/
theorem ConsoleOutput.of_call? {s : Statement} {call : Expression} {name : String}
    (h : call? s = some (call, name)) :
    call ∈ s.expressions ∧ call.kind ∈ [.expansion, .call, .methodCall] ∧ call.name = some name ∧
      name ∈ names := by
  rcases List.exists_of_findSome?_eq_some h with ⟨e, he, hfound⟩
  split at hfound
  all_goals
    simp only [Option.ite_none_right_eq_some, Option.some.injEq, Prod.mk.injEq,
      List.contains_iff_mem, reduceCtorEq] at hfound
  all_goals
    rcases hfound with ⟨hmem, rfl, rfl⟩
    simp [*]

theorem ConsoleOutput.byteLength_lt {s : Statement} {call : Expression} {name : String}
    (h : call? s = some (call, name)) : byteLength name < signedLimit := by
  have hname : name ∈ names := (of_call? h).2.2.2
  revert hname
  exact (by decide +kernel : ∀ name ∈ names, byteLength name < signedLimit) name

theorem ConsoleOutput.moves (hsource : byteLength c.unit.source < signedLimit) (e : Entity) :
    Moves (check c) e := by
  cases e with
  | statement m s =>
    have hcall' : ∀ column, call? { s with origin := s.origin.atColumn column } = call? s :=
      fun _ => rfl
    cases hcall : call? s with
    | none =>
      apply Moves.nothing
      intro column
      simp only [check, Entity.atColumn, hcall', hcall]
    | some found =>
      have htoken := byteLength_lt hcall
      have hremovable' : ∀ column, isRemovable { s with origin := s.origin.atColumn column } found.1 =
        isRemovable s found.1 := fun _ => rfl
      by_cases hremovable : isRemovable s found.1 = true
      · apply Moves.token c s.origin (fun d => .withFix d (toString s.id) (.unit removal))
          (fun _ _ => rfl) (fun _ => rfl) hsource htoken rfl
        intro column
        simp only [check, Entity.atColumn, hcall', hcall, hremovable', hremovable, if_true]
        rfl
      · apply Moves.token c s.origin (fun d => ⟨d, none⟩) (fun _ _ => rfl) (fun _ => rfl) hsource
          htoken rfl
        intro column
        simp only [check, Entity.atColumn, hcall', hcall, hremovable', hremovable]
        rfl
  | _ => exact Moves.nothing fun _ => rfl

theorem HardcodedSecret.sublist_of_search? {p : Text.Pattern} {cs : List Char}
    {group : Nat → List Char} (h : p.search? cs = some group) (index : Nat) :
    (group index).Sublist cs := by
  rcases Option.map_eq_some_iff.1 h with ⟨place, -, rfl⟩
  dsimp only
  split
  · exact (List.take_sublist _ _).trans (List.drop_sublist _ _)
  · exact List.nil_sublist cs

theorem HardcodedSecret.moves (p : Text.Pattern) (hsource : byteLength c.unit.source < signedLimit)
    (e : Entity) : Moves (check p c) e := by
  cases e with
  | statement m s =>
    have hline : ∀ column, c.unit.originLine (s.origin.atColumn column) = c.unit.originLine s.origin :=
      fun _ => rfl
    cases hfound : p.search? (c.unit.originLine s.origin).toList with
    | none =>
      apply Moves.nothing
      intro column
      simp only [check, Entity.atColumn, hline, hfound]
    | some group =>
      by_cases hplaceholder : isPlaceholder (group valueGroup) = true
      · apply Moves.nothing
        intro column
        simp only [check, Entity.atColumn, hline, hfound, hplaceholder, if_true]
      · have hname : byteLength (String.ofList (group nameGroup)) < signedLimit := by
          have hwithin := Text.bytes_le_of_sublist (sublist_of_search? hfound nameGroup)
          have hline := byteLength_originLine_le c.unit s.origin
          rw [← byteLength_eq_bytes, ← byteLength_ofList] at hwithin
          exact (hwithin.trans hline).trans_lt hsource
        apply Moves.token c s.origin (fun d => .withFix d (toString s.id) (.suggestion _))
          (fun _ _ => rfl) (fun _ => rfl) hsource hname rfl
        intro column
        simp only [check, Entity.atColumn, hline, hfound, hplaceholder]
        rfl
  | _ => exact Moves.nothing fun _ => rfl

/-- A weak piece of a name is the name of a weak algorithm up to the case of its letters. -/
theorem WeakCrypto.exists_weak {e : Expression} {segment : String} {replacement : Option String}
    (h : weakSegment? e = some (segment, replacement)) :
    ∃ weak, (weak, replacement) ∈ algorithms ∧ weak.toList = Text.lowerAscii segment.toList := by
  rcases Option.bind_eq_some_iff.1 h with ⟨name, -, hfound⟩
  rcases List.exists_of_findSome?_eq_some hfound with ⟨piece, -, hpiece⟩
  rcases Option.map_eq_some_iff.1 hpiece with ⟨known, hknown, hsame⟩
  cases hsame
  refine ⟨known.1, List.mem_of_find?_eq_some hknown, ?_⟩
  simpa using List.find?_some hknown

theorem WeakCrypto.byteLength_eq {weak segment : String}
    (h : weak.toList = Text.lowerAscii segment.toList) : byteLength segment = byteLength weak := by
  rw [byteLength_eq_bytes, byteLength_eq_bytes, h, Text.bytes_lowerAscii]

theorem WeakCrypto.byteLength_lt {e : Expression} {segment : String} {replacement : Option String}
    (h : weakSegment? e = some (segment, replacement)) : byteLength segment < signedLimit := by
  rcases exists_weak h with ⟨weak, hweak, hletters⟩
  rw [byteLength_eq hletters]
  exact (by decide +kernel : ∀ known ∈ algorithms, byteLength known.1 < signedLimit) _ hweak

theorem WeakCrypto.moves (hsource : byteLength c.unit.source < signedLimit) {e : Entity}
    (hplace : ∀ s x, e = .expression s x →
      x.origin.span.start < signedLimit ∧ byteLength x.text < signedLimit) :
    Moves (check c) e := by
  cases e with
  | expression s x =>
    have hweak' : ∀ column, weakSegment? { x with origin := x.origin.atColumn column } =
      weakSegment? x := fun _ => rfl
    cases hweak : weakSegment? x with
    | none =>
      apply Moves.nothing
      intro column
      simp only [check, Entity.atColumn, hweak', hweak]
    | some found =>
      have htoken := byteLength_lt hweak
      cases hreplacement : found.2 with
      | none =>
        apply Moves.token c x.origin (fun d => ⟨d, none⟩) (fun _ _ => rfl) (fun _ => rfl) hsource
          htoken rfl
        intro column
        simp only [check, Entity.atColumn, hweak', hweak, hreplacement]
        rfl
      | some replacement =>
        cases hfind : Text.find? found.1.toList x.text.toList with
        | none =>
          apply Moves.token c x.origin (fun d => ⟨d, none⟩) (fun _ _ => rfl) (fun _ => rfl) hsource
            htoken rfl
          intro column
          simp only [check, Entity.atColumn, hweak', hweak, hreplacement, hfind]
          rfl
        | some offset =>
          have hwithin := (Text.occursAt_of_find? hfind).add_le
          rw [← byteLength_eq_bytes, ← byteLength_eq_bytes] at hwithin
          have hspan := hplace s x rfl
          have hstart : addWord x.origin.span.start offset =
              .ok (x.origin.span.start + offset) := by
            apply addWord_eq_ok
            simp only [signedLimit, wordLimit] at *
            omega
          have hstop : addWord (x.origin.span.start + offset) (byteLength found.1) =
              .ok (x.origin.span.start + offset + byteLength found.1) := by
            apply addWord_eq_ok
            simp only [signedLimit, wordLimit] at *
            omega
          apply Moves.token c x.origin (fun d => .withFix d none (.patch _)) (fun _ _ => rfl)
            (fun _ => rfl) hsource htoken rfl
          intro column
          simp only [check, Entity.atColumn, Origin.span_atColumn, hweak', hweak, hreplacement, hfind,
            hstart, Outcome.ok_bind, hstop]
          rfl
  | _ => exact Moves.nothing fun _ => rfl

theorem SqlInjection.moves (hsource : byteLength c.unit.source < signedLimit) {e : Entity}
    (hname : ∀ s x, e = .expression s x → ∀ name ∈ x.name, byteLength name < signedLimit) :
    Moves (check c) e := by
  cases e with
  | expression s x =>
    have hname' : byteLength (x.name.getD "query") < signedLimit := by
      cases hx : x.name with
      | none => exact (by decide +kernel : byteLength "query" < signedLimit)
      | some name => exact hname s x rfl name hx
    by_cases hassembled : assembled.occurs (arguments x.text (x.name.getD "query")) = true
    · apply Moves.token c x.origin (fun d => ⟨d, none⟩) (fun _ _ => rfl) (fun _ => rfl) hsource hname'
        rfl
      intro column
      simp only [check, Entity.atColumn, hassembled, if_true]
      rfl
    · apply Moves.nothing
      intro column
      simp only [check, Entity.atColumn, hassembled]
      rfl
  | _ => exact Moves.nothing fun _ => rfl

theorem Size.moves_checkMethod (count : Method → Nat)
    (hcount : ∀ m o, count { m with origin := o } = count m) (limit : Nat) (words : Nat → String)
    (hsource : byteLength c.unit.source < signedLimit) {e : Entity}
    (hname : ∀ cls m, e = .method cls m → byteLength m.name < signedLimit) :
    Moves (checkMethod count limit words c) e := by
  cases e with
  | method cls m =>
    cases horigin : m.origin with
    | none =>
      apply Moves.nothing
      intro column
      simp only [checkMethod, Entity.atColumn, horigin, Option.map_none]
    | some o =>
      by_cases hlimit : limit < count m
      · apply Moves.token c o (fun d => ⟨d, none⟩) (fun _ _ => rfl) (fun _ => rfl) hsource
          (hname cls m rfl) (by simp [Entity.column, Entity.origin?, horigin])
        intro column
        simp only [checkMethod, Entity.atColumn, horigin, Option.map_some, hcount, hlimit, if_true,
          methodIssue]
        rfl
      · apply Moves.nothing
        intro column
        simp only [checkMethod, Entity.atColumn, horigin, Option.map_some, hcount, hlimit, if_false]
  | _ => exact Moves.nothing fun _ => rfl

theorem Size.moves_checkClass (limit : Nat) (hsource : byteLength c.unit.source < signedLimit)
    (e : Entity) : Moves (checkClass limit c) e := by
  cases e with
  | classDef cls =>
    have hown : ∀ o, ownMethods { cls with origin := o } = ownMethods cls := fun _ => rfl
    by_cases hlimit : limit < ownMethods cls
    · cases horigin : cls.origin with
      | none =>
        have hwidth := (byteLength_originLine_le c.unit c.unitOrigin).trans_lt hsource
        apply Moves.fixed c hwidth (by simp [Entity.column, Entity.origin?, horigin])
        intro column
        simp only [checkClass, Entity.atColumn, hown, hlimit, if_true, horigin, Option.map_none,
          Option.getD_none, Context.defect_eq_buildAt]
        rfl
      | some o =>
        have hwidth := (byteLength_originLine_le c.unit o).trans_lt hsource
        apply Moves.single c o 0 _ _ (fun d => ⟨d, none⟩) (fun _ _ => rfl) (fun _ => rfl) hwidth
          (by simp [Entity.column, Entity.origin?, horigin])
        intro column
        simp only [checkClass, Entity.atColumn, hown, hlimit, if_true, horigin, Option.map_some,
          Option.getD_some, Context.defect_eq_buildAt]
        rfl
    · apply Moves.nothing
      intro column
      simp only [checkClass, Entity.atColumn, hown, hlimit, if_false]
  | _ => exact Moves.nothing fun _ => rfl

theorem Size.moves_checkFile (limit : Nat) (hsource : byteLength c.unit.source < signedLimit)
    (e : Entity) : Moves (checkFile limit c) e := by
  cases e with
  | file u =>
    by_cases hlimit : limit < u.lines.length
    · have hwidth := (byteLength_originLine_le c.unit c.unitOrigin).trans_lt hsource
      apply Moves.fixed c hwidth rfl
      intro column
      simp only [checkFile, Entity.atColumn, hlimit, if_true, Context.defect_eq_buildAt]
      rfl
    · apply Moves.nothing
      intro column
      simp only [checkFile, Entity.atColumn, hlimit, if_false]
  | _ => exact Moves.nothing fun _ => rfl

end Rules

/-! ## Entities of a unit -/

/-- The entity is a part of the unit. -/
def Entity.In (u : ProgramUnit) : Entity → Prop
  | .file v => v = u
  | .classDef c => c ∈ u.classes
  | .method c m => c ∈ u.classes ∧ m ∈ c.methods
  | .statement _ s => s ∈ u.statements
  | .expression s e => s ∈ u.statements ∧ e ∈ s.expressions

theorem Entity.in_of_mem_walk {u : ProgramUnit} {e : Entity} (h : e ∈ u.walk) : e.In u := by
  rcases List.mem_cons.1 h with rfl | h
  · rfl
  · rcases List.mem_flatMap.1 h with ⟨c, hc, h⟩
    rcases List.mem_cons.1 h with rfl | h
    · exact hc
    · rcases List.mem_flatMap.1 h with ⟨m, hm, h⟩
      rw [Method.walk] at h
      split at h
      · rcases List.mem_cons.1 h with rfl | h
        · exact ⟨hc, hm⟩
        · rcases List.mem_flatMap.1 h with ⟨s, hs, h⟩
          have hstored : s ∈ u.statements :=
            List.mem_flatMap.2 ⟨c, hc, List.mem_flatMap.2 ⟨m, hm, List.mem_mergeSort.1 hs⟩⟩
          rcases List.mem_cons.1 h with rfl | h
          · exact hstored
          · rcases List.mem_map.1 h with ⟨x, hx, rfl⟩
            exact ⟨hstored, List.mem_mergeSort.1 hx⟩
      · simp at h

theorem Entity.mem_origins {u : ProgramUnit} {e : Entity} {o : Origin} (h : e.In u)
    (ho : e.origin? = some o) : ∃ what, (what, o) ∈ u.origins := by
  have hstatement : ∀ s ∈ u.statements, ∀ part ∈ (s!"statement {s.id}", s.origin) ::
      s.expressions.map (fun e => (s!"expression in statement {s.id}", e.origin)),
      part ∈ u.origins := by
    intro s hs part hpart
    rcases List.mem_flatMap.1 hs with ⟨c, hc, hs⟩
    rcases List.mem_flatMap.1 hs with ⟨m, hm, hs⟩
    refine List.mem_flatMap.2 ⟨c, hc, List.mem_append_right _ ?_⟩
    refine List.mem_flatMap.2 ⟨m, hm, List.mem_append_right _ ?_⟩
    exact List.mem_flatMap.2 ⟨s, hs, hpart⟩
  cases e with
  | file v => cases ho
  | classDef c =>
    refine ⟨s!"class '{c.name}'", List.mem_flatMap.2 ⟨c, h, List.mem_append_left _ ?_⟩⟩
    exact List.mem_map.2 ⟨o, Option.mem_toList.2 ho, rfl⟩
  | method c m =>
    refine ⟨s!"method '{m.name}'", List.mem_flatMap.2 ⟨c, h.1, List.mem_append_right _ ?_⟩⟩
    refine List.mem_flatMap.2 ⟨m, h.2, List.mem_append_left _ ?_⟩
    exact List.mem_map.2 ⟨o, Option.mem_toList.2 ho, rfl⟩
  | statement m s =>
    cases ho
    exact ⟨_, hstatement s h _ List.mem_cons_self⟩
  | expression s x =>
    cases ho
    exact ⟨_, hstatement s h.1 _ (List.mem_cons_of_mem _ (List.mem_map.2 ⟨x, h.2, rfl⟩))⟩

/-- The texts of the unit fit the memory of the machine. -/
structure ProgramUnit.InMemory (u : ProgramUnit) : Prop where
  source : byteLength u.source < signedLimit
  methods : ∀ c ∈ u.classes, ∀ m ∈ c.methods, byteLength m.name < signedLimit
  expressions : ∀ s ∈ u.statements, ∀ e ∈ s.expressions,
    byteLength e.text < signedLimit ∧ ∀ name ∈ e.name, byteLength name < signedLimit

/-- Each built-in rule finds in an entity what it finds in it at column zero, moved. -/
theorem exists_moves {config : Config} {r : Checker} (hr : r ∈ builtinRules config) {u : ProgramUnit}
    (hu : u.Admitted) (hmemory : u.InMemory) :
    ∃ find : Context → Entity → Outcome (List Issue),
      (r.check = fun c e => .ofFound (find c e)) ∧
      ∀ c : Context, c.unit = u → ∀ e, e.In u → Moves (find c) e := by
  have hname : ∀ e : Entity, e.In u → ∀ s x, e = .expression s x →
      ∀ name ∈ x.name, byteLength name < signedLimit := by
    rintro e he s x rfl
    exact (hmemory.expressions s he.1 x he.2).2
  have hmethod : ∀ e : Entity, e.In u → ∀ c m, e = .method c m → byteLength m.name < signedLimit := by
    rintro e he c m rfl
    exact hmemory.methods c he.1 m he.2
  have hplace : ∀ e : Entity, e.In u → ∀ s x, e = .expression s x →
      x.origin.span.start < signedLimit ∧ byteLength x.text < signedLimit := by
    rintro e he s x rfl
    rcases Entity.mem_origins he rfl with ⟨what, hpart⟩
    have hfits := hu.fits _ hpart
    simp only [Span.fits, Bool.and_eq_true, decide_eq_true_eq] at hfits
    have hsource := hmemory.source
    exact ⟨by omega, (hmemory.expressions s he.1 x he.2).1⟩
  simp only [builtinRules, List.mem_cons, List.not_mem_nil, or_false] at hr
  rcases hr with rfl | rfl | rfl | rfl | rfl | rfl | rfl | rfl
  all_goals
    refine ⟨_, rfl, ?_⟩
    rintro c rfl e he
  · exact ConsoleOutput.moves hmemory.source e
  · exact WeakCrypto.moves hmemory.source (hplace e he)
  · exact HardcodedSecret.moves _ hmemory.source e
  · exact SqlInjection.moves hmemory.source (hname e he)
  · exact Size.moves_checkMethod _ (fun _ _ => rfl) _ _ hmemory.source (hmethod e he)
  · exact Size.moves_checkMethod _ (fun _ _ => rfl) _ _ hmemory.source (hmethod e he)
  · exact Size.moves_checkClass _ hmemory.source e
  · exact Size.moves_checkFile _ hmemory.source e

/-! ## Faults -/

/-- The rule finds something in the entity at column zero that ends in a column which does not fit a
word once it is moved to the column of the entity. -/
def Checker.overruns (r : Checker) (c : Context) (e : Entity) : Bool :=
  (r.issuesAlone c (e.atColumn 0)).any fun i => wordLimit ≤ e.column + i.defect.endColumn

theorem Checker.issuesAlone_of_found {r : Checker} {find : Context → Entity → Outcome (List Issue)}
    (hr : r.check = fun c e => .ofFound (find c e)) {c : Context} {e : Entity} {issues : List Issue}
    (h : find c e = .ok issues) : r.issuesAlone c e = issues := by
  simp [issuesAlone, hr, h, Reporting.ofFound]

namespace Moves

variable {r : Checker} {find : Context → Entity → Outcome (List Issue)} {c : Context} {e : Entity}

theorem faultAlone?_eq (hr : r.check = fun c e => .ofFound (find c e)) (h : Moves (find c) e) :
    r.faultAlone? c e =
      if r.overruns c e then some ⟨r.id, e.describe, Context.overflow.message⟩ else none := by
  rcases h with ⟨issues, hzero, hhere, -⟩
  have hover : r.overruns c e = !(issues.all fun i => e.column + i.defect.endColumn < wordLimit) := by
    rw [Checker.overruns, Checker.issuesAlone_of_found hr hzero, List.not_all_eq_any_not]
    congr 1
    funext i
    rw [← decide_not]
    exact decide_eq_decide.2 Nat.not_lt.symm
  rw [Checker.faultAlone?, hr, hover]
  simp only [hhere, Issue.moveAll]
  cases issues.all fun i => e.column + i.defect.endColumn < wordLimit with
  | true => rfl
  | false => rfl

theorem lt_column (hr : r.check = fun c e => .ofFound (find c e)) (h : Moves (find c) e)
    (hover : r.overruns c e = true) : signedLimit < e.column := by
  rcases h with ⟨issues, hzero, -, hfar⟩
  rw [Checker.overruns, Checker.issuesAlone_of_found hr hzero, List.any_eq_true] at hover
  rcases hover with ⟨i, hi, hend⟩
  exact hfar i hi (by simpa using hend)

end Moves

namespace Dispatcher

/-- The fault of a rule on an entity whose column is too far. -/
def overrun (e : Entity) (r : Checker) : Fault := ⟨r.id, e.describe, Context.overflow.message⟩

/-- The rules that are given up on an entity. -/
def overrunning (config : Config) (u : ProgramUnit) (e : Entity) : List Checker :=
  (builtinRules config).filter fun r =>
    config.isEnabled r.id && r.accepts e && r.overruns (r.context u (config.rule r.id)) e

theorem onlyAppends_of_mem_entries {config : Config} {n : Entry}
    (h : n ∈ (ofCheckers (builtinRules config) config).entries) : n.checker.OnlyAppends := by
  rw [entries_ofCheckers, enrolled] at h
  rcases List.mem_map.1 h with ⟨r, hr, rfl⟩
  exact onlyAppends_of_mem_builtinRules (List.mem_filter.1 hr).1

theorem faults_eq_overruns (config : Config) {u : ProgramUnit} (hu : u.Admitted)
    (hmemory : u.InMemory) :
    ((ofCheckers (builtinRules config) config).dispatch u).faults =
      u.walk.flatMap fun e => (overrunning config u e).map (overrun e) := by
  rw [(tallies_dispatch _ u (indexed_ofCheckers _ config) fun _ => onlyAppends_of_mem_entries).2]
  apply List.flatMap_congr
  intro e he
  rw [faultsOn, entries_ofCheckers, enrolled, List.filterMap_map, List.filterMap_filter, overrunning,
    ← List.filterMap_eq_map, List.filterMap_filter]
  apply List.filterMap_congr
  intro r hr
  rcases exists_moves hr hu hmemory with ⟨find, hfind, hmoves⟩
  have hmove := hmoves (r.context u (config.rule r.id)) rfl e (Entity.in_of_mem_walk he)
  have hfault : Entry.faultOn? (.ofChecker r (config.rule r.id)) u e =
      if r.accepts e && r.overruns (r.context u (config.rule r.id)) e then some (overrun e r)
      else none := by
    rw [Entry.faultOn?, Entry.accepts_ofChecker]
    cases r.accepts e with
    | true => exact hmove.faultAlone?_eq hfind
    | false => rfl
  rw [Function.comp_apply, hfault, Bool.and_assoc]
  cases config.isEnabled r.id with
  | true => rfl
  | false => rfl

/-- Columns within the signed words are never too far. -/
theorem faults_eq_nil (config : Config) {u : ProgramUnit} (hu : u.Admitted) (hmemory : u.InMemory)
    (hcolumns : ∀ part ∈ u.origins, part.2.column ≤ signedLimit) :
    ((ofCheckers (builtinRules config) config).dispatch u).faults = [] := by
  rw [faults_eq_overruns config hu hmemory, List.flatMap_eq_nil_iff]
  intro e he
  rw [List.map_eq_nil_iff, overrunning, List.filter_eq_nil_iff]
  intro r hr hover
  rw [Bool.and_eq_true] at hover
  rcases exists_moves hr hu hmemory with ⟨find, hfind, hmoves⟩
  have hin := Entity.in_of_mem_walk he
  have hlt : signedLimit < e.column := (hmoves _ rfl e hin).lt_column hfind hover.2
  rw [Entity.column] at hlt
  cases horigin : e.origin? with
  | none => simp [horigin] at hlt
  | some o =>
    rcases Entity.mem_origins hin horigin with ⟨what, hpart⟩
    have hle := hcolumns _ hpart
    rw [horigin] at hlt
    exact absurd hlt (Nat.not_lt.2 hle)

theorem column_le_of_marks {o : Origin} {source : String} (h : o.Marks source) :
    o.column ≤ byteLength source + 1 := by
  have hcolumn : o.column = ((LineIndex.ofText source).position o.span.start).column :=
    congrArg Position.column h.position
  have hfits := h.fits
  simp only [Span.fits, Bool.and_eq_true, decide_eq_true_eq] at hfits
  rw [hcolumn]
  calc ((LineIndex.ofText source).position o.span.start).column
      ≤ o.span.start + 1 := Nat.succ_le_succ (Nat.sub_le _ _)
    _ ≤ byteLength source + 1 := by omega

/-- A unit of a file with source text is lowered from that text. -/
theorem exists_unitOf {name path source : String} {u : ProgramUnit}
    (hformat : Format.ofPath? path = some .rust) (h : Frontend.parse name path source = .ok u) :
    ∃ items, u = Rust.unitOf name path source items := by
  simp only [Frontend.parse, hformat, Frontend.parseRust] at h
  cases hclasses : Rust.classes? source with
  | none => simp [hclasses] at h
  | some classes =>
    rcases Option.map_eq_some_iff.1 hclasses with ⟨items, -, rfl⟩
    rw [hclasses] at h
    exact ⟨items, (Except.ok.inj h).symm⟩

/-- The built-in rules are stopped by nothing but columns that are too far. -/
theorem faults_of_parse (config : Config) {name path source : String} {u : ProgramUnit}
    (hparse : Frontend.parse name path source = .ok u) (hmemory : u.InMemory) :
    let faults := ((ofCheckers (builtinRules config) config).dispatch u).faults
    faults = (u.walk.flatMap fun e => (overrunning config u e).map (overrun e)) ∧
      ((∀ part ∈ u.origins, part.2.column ≤ signedLimit) → faults = []) ∧
      (Format.ofPath? path = some .rust → faults = []) ∧
      ∀ (text name : String) (offset : Nat), Text.rfind? name.toList text.toList = some offset →
        Text.dropBytes? text.toList (offset + byteLength name) =
          some (SqlInjection.arguments text name) := by
  have hu := Frontend.admitted_of_parse hparse
  refine ⟨faults_eq_overruns config hu hmemory, faults_eq_nil config hu hmemory, ?_, ?_⟩
  · intro hformat
    apply faults_eq_nil config hu hmemory
    intro part hpart
    rcases exists_unitOf hformat hparse with ⟨items, rfl⟩
    calc part.2.column ≤ byteLength source + 1 := column_le_of_marks (Rust.marks_of_mem_origins hpart)
      _ ≤ signedLimit := hmemory.source
  · intro text name offset hfound
    rcases (Text.occursAt_of_rfind? hfound).exists_dropBytes? with ⟨back, hback⟩
    rw [← byteLength_eq_bytes] at hback
    simp only [SqlInjection.arguments, hfound, hback, Option.getD_some]

/-- A unit with a call in the last column there is. -/
def farUnit : ProgramUnit where
  name := "m"
  path := "m.rs"
  source := "print()"
  classes := [⟨"c", none, [⟨"f", some ⟨1, 1, ⟨0, 7⟩⟩,
    ⟨[⟨0, [⟨0, ⟨1, 18446744073709551615, ⟨0, 7⟩⟩, "print()",
      [⟨.call, some "print", "print()", ⟨1, 1, ⟨0, 7⟩⟩⟩], none⟩]⟩], []⟩⟩]⟩]

theorem parse_farUnit :
    Frontend.parse "m" "m.unit.json" farUnit.toJson.compact = .ok farUnit := by
  have hformat : Format.ofPath? "m.unit.json" = some .model := by decide +kernel
  have hwords : farUnit.Worded := by
    simp [farUnit, ProgramUnit.Worded, Class.Worded, Method.Worded, FlowGraph.Worded,
      FlowBlock.Worded, Statement.Worded, Origin.Worded, Span.Worded, wordLimit]
  simp only [Frontend.parse, hformat]
  exact Frontend.parseModel_compact "m.unit.json" rfl hwords (by decide +kernel) (by decide)

theorem inMemory_farUnit : farUnit.InMemory := by
  refine ⟨by decide +kernel, ?_, ?_⟩
  · simp only [farUnit, List.mem_singleton, forall_eq]
    decide +kernel
  · simp only [farUnit, ProgramUnit.statements, FlowGraph.stored, List.flatMap_singleton,
      List.mem_singleton, forall_eq, Option.mem_def, Option.some.injEq, forall_eq']
    decide +kernel

theorem faults_of_parse_farUnit :
    Frontend.parse "m" "m.unit.json" farUnit.toJson.compact = .ok farUnit ∧ farUnit.InMemory ∧
      ((ofCheckers (builtinRules {}) {}).dispatch farUnit).faults =
        farUnit.walk.flatMap fun e => (overrunning {} farUnit e).map (overrun e) :=
  ⟨parse_farUnit, inMemory_farUnit, (faults_of_parse {} parse_farUnit inMemory_farUnit).1⟩

/-- A unit that is read without complaint stops the rule on console output. -/
theorem farUnit_stops_rule :
    Frontend.parse "m" "m.unit.json" farUnit.toJson.compact = .ok farUnit ∧
      ((ofCheckers (builtinRules {}) {}).dispatch farUnit).faults =
        [⟨"console-output", "statement 0 in f", "attempt to add with overflow"⟩] ∧
      ((ofCheckers (builtinRules {}) {}).dispatch farUnit).issues.length = 0 := by
  exact ⟨parse_farUnit, by decide +kernel, by decide +kernel⟩

end Dispatcher

end LintMend
