import LintMend.Proofs.Cutting
import LintMend.Rust.Lowering

/-!
# Units lowered from source text

Positions of the grammar are turned into byte offsets by the lines of the text, and what comes out is
a boundary of the text. So every piece that is cut out of the text is there, wherever the tree says
that it stands. Statements are numbered by a counter that goes through the whole tree, so that all
numbers below the last one are given out exactly once.
-/

namespace LintMend

/-! ## Offsets of positions -/

namespace Text

/-- The pair is a boundary of the text and the text from there on. -/
def IsCut (cs : List Char) (cut : Nat × List Char) : Prop :=
  ∃ pre, cs = pre ++ cut.2 ∧ bytes pre = cut.1

theorem isCut_of_mem_lineStartsFrom {cs done rest : List Char} {found : List (Nat × List Char)}
    {base : Nat} (hcs : cs = done ++ rest) (hbase : bytes done = base)
    (hfound : ∀ cut ∈ found, IsCut cs cut) : ∀ cut ∈ lineStartsFrom found base rest, IsCut cs cut := by
  fun_induction lineStartsFrom found base rest generalizing done with
  | case1 found base => exact hfound
  | case2 found base rest ih =>
    have hbytes : bytes (done ++ ['\n']) = base + 1 := by
      rw [bytes_append, hbase]
      rfl
    have hsplit : cs = (done ++ ['\n']) ++ rest := by simp [hcs]
    apply ih hsplit hbytes
    rw [List.forall_mem_cons]
    exact ⟨⟨done ++ ['\n'], hsplit, hbytes⟩, hfound⟩
  | case3 found base c rest _ ih =>
    have hbytes : bytes (done ++ [c]) = base + c.utf8Size := by simp [hbase]
    exact ih (by simp [hcs]) hbytes hfound

theorem isCut_of_mem_lineStarts {cs : List Char} {cut : Nat × List Char} (h : cut ∈ lineStarts cs) :
    IsCut cs cut := by
  rw [lineStarts, List.mem_reverse] at h
  have hcs : cs = [] ++ cs := rfl
  refine isCut_of_mem_lineStartsFrom hcs bytes_nil ?_ cut h
  rw [List.forall_mem_singleton]
  exact ⟨[], rfl, rfl⟩

theorem exists_lineStartsFrom (found : List (Nat × List Char)) (base : Nat) (cs : List Char) :
    ∃ new, lineStartsFrom found base cs = new ++ found := by
  fun_induction lineStartsFrom found base cs with
  | case1 found base => exact ⟨[], rfl⟩
  | case2 found base rest ih =>
    rcases ih with ⟨new, hnew⟩
    exact ⟨new ++ [(base + 1, rest)], by simp [hnew]⟩
  | case3 found base c rest _ ih => exact ih

/-- The first line begins with the text. -/
theorem exists_lineStarts_cons (cs : List Char) : ∃ later, lineStarts cs = (0, cs) :: later := by
  rcases exists_lineStartsFrom [(0, cs)] 0 cs with ⟨new, hnew⟩
  exact ⟨new.reverse, by simp [lineStarts, hnew]⟩

theorem bytesOfFirstFrom_eq_some {total n offset : Nat} {cs : List Char}
    (h : bytesOfFirstFrom total n cs = some offset) :
    ∃ pre post, cs = pre ++ post ∧ offset = total + bytes pre := by
  fun_induction bytesOfFirstFrom total n cs with
  | case1 total cs => exact ⟨[], cs, rfl, by simpa using h.symm⟩
  | case2 => simp at h
  | case3 total n c cs ih =>
    rcases ih h with ⟨pre, post, rfl, hoffset⟩
    refine ⟨c :: pre, post, rfl, ?_⟩
    rw [hoffset, bytes_cons]
    omega

end Text

/-- A position of the text stands between two of its characters. -/
theorem LineIndex.isByteBoundary_offset? {source : String} {line column offset : Nat}
    (h : (LineIndex.ofText source).offset? line column = some offset) :
    isByteBoundary source offset = true := by
  unfold offset? at h
  cases line with
  | zero => simp at h
  | succ n =>
    rcases Option.bind_eq_some_iff.1 h with ⟨⟨start, rest⟩, hstart, hoffset⟩
    rcases Text.isCut_of_mem_lineStarts (List.mem_of_getElem? hstart) with ⟨pre, hsource, hpre⟩
    rcases Text.bytesOfFirstFrom_eq_some hoffset with ⟨first, after, hrest, rfl⟩
    refine Text.isBoundary_iff.2 ⟨pre ++ first, after, ?_, ?_⟩
    · rw [hsource, hrest, List.append_assoc]
    · rw [Text.bytes_append, hpre]

/-- Lines count from one. -/
theorem LineIndex.position_line_ne_zero (source : String) (offset : Nat) :
    ((LineIndex.ofText source).position offset).line ≠ 0 := by
  rcases Text.exists_lineStarts_cons source.toList with ⟨later, hstarts⟩
  unfold position ofText
  simp [hstarts]

theorem Span.text?_of_fits {span : Span} {source : String} (h : span.fits source = true) :
    ∃ text, span.text? source = some text := by
  rcases Span.fits_iff.1 h with ⟨front, part, back, hsource, hstart, hstop⟩
  refine ⟨String.ofList part, ?_⟩
  rw [text?, sliceBytes?, hsource, ← hstart, ← hstop, Text.slice?_append, Option.map_some]

/-- The span of the origin fits the source, and line and column say where it starts. -/
structure Origin.Marks (o : Origin) (source : String) : Prop where
  fits : o.span.fits source = true
  position : ⟨o.line, o.column⟩ = (LineIndex.ofText source).position o.span.start

theorem Origin.Marks.line_ne_zero {o : Origin} {source : String} (h : o.Marks source) :
    o.line ≠ 0 := by
  rw [show o.line = ((LineIndex.ofText source).position o.span.start).line from
    congrArg Position.line h.position]
  exact LineIndex.position_line_ne_zero source _

namespace Rust

theorem Locator.fits_of_span? {source : String} {e : Extent} {span : Span}
    (h : (Locator.ofSource source).span? e = some span) : span.fits source = true := by
  unfold span? at h
  rcases Option.bind_eq_some_iff.1 h with ⟨start, hstart, h⟩
  rcases Option.bind_eq_some_iff.1 h with ⟨stop, hstop, h⟩
  split at h
  · next hle =>
    obtain rfl : ⟨start, stop⟩ = span := by simpa using h
    exact Span.fits_iff.2 (exists_parts hle (LineIndex.isByteBoundary_offset? hstart)
      (LineIndex.isByteBoundary_offset? hstop))
  · simp at h

theorem Locator.marks_of_span? {source : String} {e : Extent} {span : Span}
    (h : (Locator.ofSource source).span? e = some span) :
    ((Locator.ofSource source).index.origin span).Marks source :=
  ⟨Locator.fits_of_span? h, rfl⟩

theorem Locator.marks_of_origin? {source : String} {e : Extent} {o : Origin}
    (h : (Locator.ofSource source).origin? e = some o) : o.Marks source := by
  rcases Option.map_eq_some_iff.1 h with ⟨span, hspan, rfl⟩
  exact Locator.marks_of_span? hspan

/-- What is located is where it is said to be, and the text is the one that stands there. -/
theorem Locator.marks_of_locate? {source text : String} {e : Extent} {o : Origin}
    (h : (Locator.ofSource source).locate? e = some (o, text)) :
    o.Marks source ∧ o.span.text? source = some text := by
  unfold locate? at h
  rcases Option.bind_eq_some_iff.1 h with ⟨span, hspan, h⟩
  rcases Option.bind_eq_some_iff.1 h with ⟨slice, hslice, h⟩
  obtain ⟨rfl, rfl⟩ : (Locator.ofSource source).index.origin span = o ∧
      String.ofList slice = text := by
    simpa using h
  refine ⟨Locator.marks_of_span? hspan, ?_⟩
  exact congrArg (Option.map String.ofList) hslice

/-! ## What is lowered -/

/-- The statement and its expressions stand in the source, with their texts. -/
structure Stands (source : String) (s : Statement) : Prop where
  origin : s.origin.Marks source
  text : s.origin.span.text? source = some s.text
  expressions : ∀ e ∈ s.expressions,
    e.origin.Marks source ∧ e.origin.span.text? source = some e.text

/-- The statements stand in the source, and their ids are the numbers from `first` up to, but not
including, `next` in some order. -/
structure Lowers (source : String) (first next : Nat) (ss : List Statement) : Prop where
  le : first ≤ next
  numbered : (ss.map (·.id)).Perm (List.range' first (next - first))
  stand : ∀ s ∈ ss, Stands source s

namespace Lowers

variable {source : String} {first next last : Nat} {ss ts : List Statement}

theorem nil (source : String) (first : Nat) : Lowers source first first [] where
  le := le_rfl
  numbered := by simp
  stand := by simp

theorem append (h : Lowers source first next ss) (h' : Lowers source next last ts) :
    Lowers source first last (ss ++ ts) where
  le := h.le.trans h'.le
  numbered := by
    have hnext : first + (next - first) = next := Nat.add_sub_cancel' h.le
    have hlength : next - first + (last - next) = last - first := by
      have := h.le
      have := h'.le
      omega
    have hrange : List.range' first (next - first) ++ List.range' next (last - next) =
        List.range' first (last - first) := by
      rw [← hlength, ← List.range'_append_1, hnext]
    rw [List.map_append, ← hrange]
    exact h.numbered.append h'.numbered
  stand := List.forall_mem_append.2 ⟨h.stand, h'.stand⟩

theorem perm (h : Lowers source first next ss) (hperm : ss.Perm ts) :
    Lowers source first next ts where
  le := h.le
  numbered := (hperm.map _).symm.trans h.numbered
  stand s hs := h.stand s (hperm.mem_iff.2 hs)

end Lowers

/-- A statement takes the next number, unless it is not found in the source. -/
def ownStatement (l : Locator) (next : Nat) (extent : Extent) (mentions : List Mention) :
    List Statement × Nat :=
  match l.locate? extent with
  | some (origin, text) =>
    ([{ id := next, origin, text, expressions := mentions.filterMap (·.expression? l) }], next + 1)
  | none => ([], next)

theorem lowers_ownStatement (source : String) (next : Nat) (extent : Extent)
    (mentions : List Mention) :
    Lowers source next (ownStatement (.ofSource source) next extent mentions).2
      (ownStatement (.ofSource source) next extent mentions).1 := by
  unfold ownStatement
  split
  · next origin text hlocate =>
    refine ⟨Nat.le_succ next, by simp, ?_⟩
    rw [List.forall_mem_singleton]
    rcases Locator.marks_of_locate? hlocate with ⟨hmarks, htext⟩
    refine ⟨hmarks, htext, ?_⟩
    intro e he
    rcases List.mem_filterMap.1 he with ⟨m, -, hm⟩
    rcases Option.map_eq_some_iff.1 hm with ⟨⟨o, t⟩, ho, rfl⟩
    exact Locator.marks_of_locate? ho
  · exact .nil source next

/-- The statements of placed blocks. -/
def placedStatements (blocks : List PlacedBlock) : List Statement := blocks.flatMap (·.statements)

theorem lowerStatements_cons (l : Locator) (id block next : Nat) (extent : Extent)
    (mentions : List Mention) (blocks : List (List Outline)) (rest : List Outline) :
    lowerStatements l id block next (.mk extent mentions blocks :: rest) =
      let own := ownStatement l next extent mentions
      let inner := lowerBlocks l id block own.2 blocks
      let more := lowerStatements l id (block + inner.1.length) inner.2 rest
      (own.1 ++ more.1, inner.1 ++ more.2.1, more.2.2) := by
  rw [lowerStatements]
  rfl

theorem lowerBlocks_cons (l : Locator) (parent block next : Nat) (outline : List Outline)
    (rest : List (List Outline)) :
    lowerBlocks l parent block next (outline :: rest) =
      let body := lowerStatements l block (block + 1) next outline
      let placed := ⟨some parent, body.1⟩ :: body.2.1
      let after := lowerBlocks l parent (block + placed.length) body.2.2 rest
      (placed ++ after.1, after.2) := by
  rw [lowerBlocks]

mutual

theorem lowers_lowerStatements (source : String) (id block next : Nat) (outlines : List Outline) :
    Lowers source next (lowerStatements (.ofSource source) id block next outlines).2.2
      ((lowerStatements (.ofSource source) id block next outlines).1 ++
        placedStatements (lowerStatements (.ofSource source) id block next outlines).2.1) := by
  match outlines with
  | [] =>
    rw [lowerStatements]
    exact .nil source next
  | .mk extent mentions blocks :: rest =>
    rw [lowerStatements_cons]
    dsimp only
    have hown := lowers_ownStatement source next extent mentions
    generalize ownStatement (.ofSource source) next extent mentions = own at hown ⊢
    have hinner := lowers_lowerBlocks source id block own.2 blocks
    generalize lowerBlocks (.ofSource source) id block own.2 blocks = inner at hinner ⊢
    have hmore := lowers_lowerStatements source id (block + inner.1.length) inner.2 rest
    generalize lowerStatements (.ofSource source) id (block + inner.1.length) inner.2 rest = more
      at hmore ⊢
    refine ((hown.append hinner).append hmore).perm ?_
    rw [placedStatements, placedStatements, placedStatements, List.flatMap_append,
      List.append_assoc, List.append_assoc]
    exact (List.perm_append_comm_assoc _ _ _).append_left own.1

theorem lowers_lowerBlocks (source : String) (parent block next : Nat)
    (outlines : List (List Outline)) :
    Lowers source next (lowerBlocks (.ofSource source) parent block next outlines).2
      (placedStatements (lowerBlocks (.ofSource source) parent block next outlines).1) := by
  match outlines with
  | [] =>
    rw [lowerBlocks]
    exact .nil source next
  | outline :: rest =>
    rw [lowerBlocks_cons]
    dsimp only
    have hbody := lowers_lowerStatements source block (block + 1) next outline
    generalize lowerStatements (.ofSource source) block (block + 1) next outline = body at hbody ⊢
    have hafter := lowers_lowerBlocks source parent
      (block + (PlacedBlock.mk (some parent) body.1 :: body.2.1).length) body.2.2 rest
    generalize lowerBlocks (.ofSource source) parent
      (block + (PlacedBlock.mk (some parent) body.1 :: body.2.1).length) body.2.2 rest = after
      at hafter ⊢
    refine (hbody.append hafter).perm (List.Perm.of_eq ?_)
    simp only [placedStatements, List.cons_append, List.flatMap_cons, List.flatMap_append,
      List.append_assoc]

end

theorem stored_graphOf (placed : List PlacedBlock) :
    (graphOf placed).stored = placedStatements placed := by
  have hfst : placedStatements placed = (placed.zipIdx.map Prod.fst).flatMap (·.statements) := by
    rw [List.zipIdx_map_fst]
    rfl
  rw [hfst, FlowGraph.stored, graphOf, List.flatMap_map, List.flatMap_map]

theorem lowers_lowerBody (source : String) (next : Nat) (body : List Outline) :
    Lowers source next (lowerBody (.ofSource source) next body).2
      (lowerBody (.ofSource source) next body).1.stored := by
  have hbody := lowers_lowerStatements source 0 1 next body
  unfold lowerBody
  rw [stored_graphOf]
  exact hbody

/-! ## Methods and classes -/

/-- The statements of methods, in order. -/
def statementsOf (methods : List Method) : List Statement := methods.flatMap (·.graph.stored)

/-- The methods stand in the source, and their statements are numbered from `first` to `next`. -/
structure LowersMethods (source : String) (first next : Nat) (methods : List Method) : Prop where
  lowers : Lowers source first next (statementsOf methods)
  stand : ∀ m ∈ methods, ∀ o ∈ m.origin, o.Marks source

theorem LowersMethods.append {source : String} {first next last : Nat} {ms ns : List Method}
    (h : LowersMethods source first next ms) (h' : LowersMethods source next last ns) :
    LowersMethods source first last (ms ++ ns) where
  lowers := by
    rw [statementsOf, List.flatMap_append]
    exact h.lowers.append h'.lowers
  stand := List.forall_mem_append.2 ⟨h.stand, h'.stand⟩

theorem lowersMethods_lowerFunction (source : String) (next : Nat) (name : String)
    (synthetic : Bool) (extent : Extent) (children : List Node) :
    LowersMethods source next
      (lowerFunction (.ofSource source) next name synthetic extent children).2
      [(lowerFunction (.ofSource source) next name synthetic extent children).1] where
  lowers := by
    rw [statementsOf, List.flatMap_singleton]
    exact lowers_lowerBody source next _
  stand := by
    rw [List.forall_mem_singleton]
    intro o ho
    simp only [lowerFunction] at ho
    split at ho
    · simp at ho
    · exact Locator.marks_of_origin? ho

theorem lowersMethods_lowerMembers (source : String) (derived : Bool) (next : Nat)
    (members : List Node) :
    LowersMethods source next (lowerMembers (.ofSource source) derived next members).2
      (lowerMembers (.ofSource source) derived next members).1 := by
  fun_induction lowerMembers (.ofSource source) derived next members with
  | case1 next => exact ⟨.nil source next, by simp⟩
  | case2 next name isDerived extent children rest method next' hmethod methods next'' hrest ih =>
    have hfunction := lowersMethods_lowerFunction source next name (derived || isDerived) extent
      children
    rw [hmethod] at hfunction
    rw [hrest] at ih
    exact hfunction.append ih
  | case3 next node rest _ ih => exact ih

/-- The class and its methods stand in the source. -/
structure ClassStands (source : String) (c : Class) : Prop where
  origin : ∀ o ∈ c.origin, o.Marks source
  methods : ∀ m ∈ c.methods, ∀ o ∈ m.origin, o.Marks source

/-- Functions and classes so far stand in the source, and all statements of both are numbered. -/
structure Lowered.Sound (source : String) (done : Lowered) : Prop where
  lowers : Lowers source 0 done.next
    (statementsOf done.functions ++ done.classes.flatMap fun c => statementsOf c.methods)
  functions : ∀ m ∈ done.functions, ∀ o ∈ m.origin, o.Marks source
  classes : ∀ c ∈ done.classes, ClassStands source c

namespace Lowered.Sound

variable {source : String} {done : Lowered}

theorem addFunction (h : done.Sound source) {method : Method} {next : Nat}
    (hmethod : LowersMethods source done.next next [method]) :
    Lowered.Sound source { done with functions := done.functions ++ [method], next } where
  lowers := by
    refine (h.lowers.append hmethod.lowers).perm ?_
    simp only [statementsOf, List.flatMap_append, List.append_assoc]
    exact List.perm_append_comm.append_left _
  functions := List.forall_mem_append.2 ⟨h.functions, hmethod.stand⟩
  classes := h.classes

theorem addClass (h : done.Sound source) {name : String} {origin : Option Origin}
    {methods : List Method} {next : Nat} (horigin : ∀ o ∈ origin, o.Marks source)
    (hmethods : LowersMethods source done.next next methods) :
    Lowered.Sound source { done with classes := done.classes ++ [⟨name, origin, methods⟩], next } where
  lowers := by
    rw [List.flatMap_append, List.flatMap_singleton, ← List.append_assoc]
    exact h.lowers.append hmethods.lowers
  functions := h.functions
  classes := by
    rw [List.forall_mem_append, List.forall_mem_singleton]
    exact ⟨h.classes, horigin, hmethods.stand⟩

end Lowered.Sound

mutual

theorem sound_lowerItem {source : String} {done : Lowered} (h : done.Sound source)
    (modules : String) (item : Node) : (lowerItem (.ofSource source) modules done item).Sound source := by
  match item with
  | .mk form extent children =>
    cases form with
    | function name derived =>
      rw [lowerItem]
      exact h.addFunction
        (lowersMethods_lowerFunction source done.next name derived extent children)
    | implementation owner derived =>
      rw [lowerItem]
      apply h.addClass _ (lowersMethods_lowerMembers source derived done.next children)
      intro o ho
      split at ho
      · simp at ho
      · exact Locator.marks_of_origin? ho
    | traitMembers name =>
      rw [lowerItem]
      apply h.addClass _ (lowersMethods_lowerMembers source false done.next children)
      intro o ho
      exact Locator.marks_of_origin? ho
    | module name =>
      rw [lowerItem]
      exact sound_lowerItems h (modules ++ name ++ "::") children
    | _ =>
      simp only [lowerItem]
      exact h

theorem sound_lowerItems {source : String} {done : Lowered} (h : done.Sound source)
    (modules : String) (items : List Node) :
    (lowerItems (.ofSource source) modules done items).Sound source := by
  match items with
  | [] =>
    rw [lowerItems]
    exact h
  | n :: ns =>
    rw [lowerItems]
    exact sound_lowerItems (sound_lowerItem h modules n) modules ns

end

theorem sound_empty (source : String) : Lowered.Sound source {} where
  lowers := .nil source 0
  functions := by simp
  classes := by simp

/-- All classes of a source text stand in it, and no two of their statements have the same id. -/
theorem lower_sound (source : String) (items : List Node) :
    (∀ c ∈ lower source items, ClassStands source c) ∧
      ∃ next, Lowers source 0 next
        ((lower source items).flatMap fun c => statementsOf c.methods) := by
  have h := sound_lowerItems (sound_empty source) "" items
  unfold lower
  generalize lowerItems (.ofSource source) "" {} items = lowered at h ⊢
  dsimp only
  split
  · next hempty =>
    have hlowers := h.lowers
    rw [List.isEmpty_iff.1 hempty] at hlowers
    exact ⟨h.classes, lowered.next, hlowers⟩
  · refine ⟨?_, lowered.next, h.lowers⟩
    rw [List.forall_mem_cons]
    exact ⟨⟨by simp, h.functions⟩, h.classes⟩

/-- The unit of the items of a source text. -/
def unitOf (name path source : String) (items : List Node) : ProgramUnit :=
  ⟨name, path, source, lower source items⟩

theorem stands_of_mem_statements {name path source : String} {items : List Node} {s : Statement}
    (h : s ∈ (unitOf name path source items).statements) : Stands source s := by
  rcases (lower_sound source items).2 with ⟨next, hlowers⟩
  exact hlowers.stand s h

theorem marks_of_mem_origins {name path source : String} {items : List Node}
    {part : String × Origin} (h : part ∈ (unitOf name path source items).origins) :
    part.2.Marks source := by
  rcases List.mem_flatMap.1 h with ⟨c, hc, hpart⟩
  have hclass := (lower_sound source items).1 c hc
  rcases List.mem_append.1 hpart with hpart | hpart
  · rcases List.mem_map.1 hpart with ⟨o, ho, rfl⟩
    exact hclass.origin o (Option.mem_toList.1 ho)
  · rcases List.mem_flatMap.1 hpart with ⟨m, hm, hpart⟩
    rcases List.mem_append.1 hpart with hpart | hpart
    · rcases List.mem_map.1 hpart with ⟨o, ho, rfl⟩
      exact hclass.methods m hm o (Option.mem_toList.1 ho)
    · rcases List.mem_flatMap.1 hpart with ⟨s, hs, hpart⟩
      have hstands : Stands source s := by
        have hmem : s ∈ (unitOf name path source items).statements :=
          List.mem_flatMap.2 ⟨c, hc, List.mem_flatMap.2 ⟨m, hm, hs⟩⟩
        exact stands_of_mem_statements hmem
      rcases List.mem_cons.1 hpart with rfl | hpart
      · exact hstands.origin
      · rcases List.mem_map.1 hpart with ⟨e, he, rfl⟩
        exact (hstands.expressions e he).1

theorem fault?_unitOf (name path source : String) (items : List Node) :
    (unitOf name path source items).fault? = none := by
  apply List.findSome?_eq_none_iff.2
  intro part hpart
  have hmarks := marks_of_mem_origins hpart
  change ProgramUnit.originFault? _ part.1 part.2 = none
  rw [ProgramUnit.originFault?, if_neg, if_neg]
  · simpa using hmarks.line_ne_zero
  · simpa [unitOf] using hmarks.fits

theorem ids_unitOf_perm (name path source : String) (items : List Node) :
    ((unitOf name path source items).statements.map (·.id)).Perm
      (List.range (unitOf name path source items).statements.length) := by
  rcases (lower_sound source items).2 with ⟨next, hlowers⟩
  have hnumbered : ((unitOf name path source items).statements.map (·.id)).Perm
      (List.range next) := by
    rw [List.range_eq_range']
    exact hlowers.numbered
  have hlength := hnumbered.length_eq
  rw [List.length_map, List.length_range] at hlength
  rw [hlength]
  exact hnumbered

/-- Lowering is safe, whatever places the tree gives to its nodes. No extent makes it cut where there
is nothing to cut, the unit has no fault, statements and expressions have the texts of their spans,
lines and columns are those of the starts of the spans, and the statements are numbered from zero
on. -/
theorem lowered_unit_sound (name path source : String) (items : List Node) :
    let u := unitOf name path source items
    (∀ e span, (Locator.ofSource source).span? e = some span →
        ∃ text, span.text? source = some text) ∧
      u.fault? = none ∧
      (∀ s ∈ u.statements, s.origin.span.text? source = some s.text ∧
        ∀ e ∈ s.expressions, e.origin.span.text? source = some e.text) ∧
      (∀ part ∈ u.origins,
        ⟨part.2.line, part.2.column⟩ = (LineIndex.ofText source).position part.2.span.start) ∧
      (u.statements.map (·.id)).Perm (List.range u.statements.length) := by
  refine ⟨?_, fault?_unitOf name path source items, ?_, ?_, ids_unitOf_perm name path source items⟩
  · intro e span hspan
    exact Span.text?_of_fits (Locator.fits_of_span? hspan)
  · intro s hs
    have hstands := stands_of_mem_statements hs
    exact ⟨hstands.text, fun e he => (hstands.expressions e he).2⟩
  · intro part hpart
    exact (marks_of_mem_origins hpart).position

end Rust

end LintMend
