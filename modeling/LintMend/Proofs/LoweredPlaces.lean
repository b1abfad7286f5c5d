import LintMend.Proofs.LoweredFunctions
import LintMend.Proofs.TokenSpans
import LintMend.Proofs.TreePlaces

/-!
# Lowered bodies, place by place

The control-flow graph of a function is laid out like the tree of its body. Blocks of the graph are
blocks of the body, their statements are those of the block, and the expressions of a statement are
those of which it is the innermost statement. Nothing is left out and nothing comes twice, as far as
the tree is entered: attributes in front of a literal are not.
-/

namespace LintMend.Rust

/-! ## What is lowered from a place -/

/-- The expression is that of the node at the place. -/
def ExpressionAt (l : Locator) (tree : Place → Option Node) (p : Place) (e : Expression) : Prop :=
  ∃ n m, tree p = some n ∧ n.mention? = some m ∧ m.expression? l = some e

/-- The statement is that of the node at the place, with the expressions at their places. -/
structure StatementAt (l : Locator) (tree : Place → Option Node) (s : StatementPlace)
    (statement : Statement) : Prop where
  located : ∃ n, tree s.place = some n ∧ l.locate? n.extent = some (statement.origin, statement.text)
  expressions : List.Forall₂ (ExpressionAt l tree) s.expressions statement.expressions

/-- The block has the statements at their places. -/
def BlockAt (l : Locator) (tree : Place → Option Node) (b : BlockPlace) (placed : PlacedBlock) : Prop :=
  List.Forall₂ (StatementAt l tree) b.statements placed.statements

section Shift

variable {l : Locator} {enters : Form → Bool} {n c : Node} {i : Nat}

theorem ExpressionAt.shift {p : Place} {e : Expression} (h : ExpressionAt l (c.reach? enters) p e)
    (henters : enters n.form = true) (hc : n.children[i]? = some c) :
    ExpressionAt l (n.reach? enters) (i :: p) e := by
  obtain ⟨m, mention, hm, hmention⟩ := h
  exact ⟨m, mention, by rw [Node.reach?_cons henters hc, hm], hmention⟩

theorem StatementAt.shift {s : StatementPlace} {statement : Statement}
    (h : StatementAt l (c.reach? enters) s statement) (henters : enters n.form = true)
    (hc : n.children[i]? = some c) : StatementAt l (n.reach? enters) (s.shift i) statement where
  located := by
    obtain ⟨m, hm, hlocate⟩ := h.located
    exact ⟨m, by rw [StatementPlace.shift, Node.reach?_cons henters hc, hm], hlocate⟩
  expressions := List.forall₂_map_left_iff.2 (h.expressions.imp fun _ _ he => he.shift henters hc)

theorem BlockAt.shift {b : BlockPlace} {placed : PlacedBlock} (h : BlockAt l (c.reach? enters) b placed)
    (henters : enters n.form = true) (hc : n.children[i]? = some c) :
    BlockAt l (n.reach? enters) (b.shift i) placed :=
  List.forall₂_map_left_iff.2 (List.Forall₂.imp (fun _ _ hs => hs.shift henters hc) h)

end Shift

/-! ## Lowering along the children -/

theorem lowerBlocks_append (l : Locator) (parent block next : Nat) (xs ys : List (List Outline)) :
    lowerBlocks l parent block next (xs ++ ys) =
      let first := lowerBlocks l parent block next xs
      let after := lowerBlocks l parent (block + first.1.length) first.2 ys
      (first.1 ++ after.1, after.2) := by
  induction xs generalizing block next with
  | nil => simp [lowerBlocks]
  | cons x xs ih =>
    rw [List.cons_append, lowerBlocks_cons, lowerBlocks_cons]
    dsimp only
    rw [ih]
    dsimp only
    rw [List.length_append, List.append_assoc, Nat.add_assoc]

/-- The node is found in the source, and so is the expression that it is. -/
structure Node.Located (l : Locator) (n : Node) : Prop where
  extent : ∃ found, l.locate? n.extent = some found
  mention : ∀ m, n.mention? = some m → ∃ e, m.expression? l = some e

/-- The expressions and blocks that are gathered from the node are lowered from their places. -/
structure Node.IsLowered (l : Locator) (n : Node) : Prop where
  expressions : List.Forall₂ (ExpressionAt l (n.reach? Form.isEntered)) n.mentionPlaces
    (n.gather.1.filterMap (·.expression? l))
  blocks : ∀ parent block next, List.Forall₂ (BlockAt l (n.reach? Form.isEntered)) n.layout
    (lowerBlocks l parent block next n.gather.2).1

section Children

variable {l : Locator} {n root : Node} {i : Nat} {ns : List Node}

/-- The first of the children from the `i`-th on, and those after it. -/
theorem child_of_drop (h : root.children.drop i = n :: ns) :
    root.children[i]? = some n ∧ root.children.drop (i + 1) = ns := by
  have hget : (root.children.drop i)[0]? = root.children[i]? := by rw [List.getElem?_drop, Nat.add_zero]
  have htail : root.children.drop (i + 1) = (root.children.drop i).tail := by rw [List.tail_drop]
  rw [h] at hget htail
  exact ⟨hget.symm, htail⟩

theorem expressions_gatherAll (henters : root.form.isEntered = true) (hdrop : root.children.drop i = ns)
    (h : ∀ n ∈ ns, n.IsLowered l) :
    List.Forall₂ (ExpressionAt l (root.reach? Form.isEntered)) (Node.mentionPlacesFrom i ns)
      ((Node.gatherAll ns).1.filterMap (·.expression? l)) := by
  induction ns generalizing i with
  | nil =>
    rw [Node.mentionPlacesFrom, Node.gatherAll]
    exact .nil
  | cons n ns ih =>
    obtain ⟨hn, hns⟩ := List.forall_mem_cons.1 h
    obtain ⟨hc, hrest⟩ := child_of_drop hdrop
    rw [Node.mentionPlacesFrom, Node.gatherAll, List.filterMap_append]
    apply List.rel_append
    · exact List.forall₂_map_left_iff.2 (hn.expressions.imp fun _ _ he => he.shift henters hc)
    · exact ih hrest hns

theorem blocks_gatherAll (henters : root.form.isEntered = true) (hdrop : root.children.drop i = ns)
    (h : ∀ n ∈ ns, n.IsLowered l) (parent block next : Nat) :
    List.Forall₂ (BlockAt l (root.reach? Form.isEntered)) (Node.layoutFrom i ns)
      (lowerBlocks l parent block next (Node.gatherAll ns).2).1 := by
  induction ns generalizing i block next with
  | nil =>
    rw [Node.layoutFrom, Node.gatherAll, lowerBlocks]
    exact .nil
  | cons n ns ih =>
    obtain ⟨hn, hns⟩ := List.forall_mem_cons.1 h
    obtain ⟨hc, hrest⟩ := child_of_drop hdrop
    rw [Node.layoutFrom, Node.gatherAll, lowerBlocks_append]
    apply List.rel_append
    · exact List.forall₂_map_left_iff.2
        ((hn.blocks parent block next).imp fun _ _ hb => hb.shift henters hc)
    · exact ih hrest hns _ _

/-- A statement has the expressions that are gathered from what it is made of. -/
theorem statementAt_ownStatement {extent : Extent} (hfound : ∃ found, l.locate? extent = some found)
    (h : ∀ c ∈ ns, c.IsLowered l) (next : Nat) :
    List.Forall₂ (StatementAt l ((Node.mk .statement extent ns).reach? Form.isEntered))
      (Node.mk .statement extent ns).statementPlaces
      (ownStatement l next extent (Node.gatherAll ns).1).1 := by
  obtain ⟨⟨origin, text⟩, hlocate⟩ := hfound
  have hplaces : (Node.mk .statement extent ns).statementPlaces =
      [⟨[], Node.mentionPlacesFrom 0 ns⟩] := if_pos rfl
  have hentered : (Node.mk .statement extent ns).form.isEntered = true := rfl
  rw [hplaces, ownStatement, hlocate]
  exact .cons ⟨⟨_, Node.reach?_nil, hlocate⟩, expressions_gatherAll hentered rfl h⟩ .nil

/-- The statements of a block and the blocks inside them are lowered from their places. -/
theorem statements_outlines (henters : root.form.isEntered = true) (hdrop : root.children.drop i = ns)
    (hlocated : ∀ n ∈ ns, n.Located l) (h : ∀ n ∈ ns, ∀ c ∈ n.children, c.IsLowered l)
    (id block next : Nat) :
    List.Forall₂ (StatementAt l (root.reach? Form.isEntered))
        (along StatementPlace.shift Node.statementPlaces i ns)
        (lowerStatements l id block next (Node.outlines ns)).1 ∧
      List.Forall₂ (BlockAt l (root.reach? Form.isEntered)) (Node.innerFrom i ns)
        (lowerStatements l id block next (Node.outlines ns)).2.1 := by
  induction ns generalizing i block next with
  | nil =>
    rw [along_nil, Node.innerFrom, Node.outlines, lowerStatements]
    exact ⟨.nil, .nil⟩
  | cons n ns ih =>
    obtain ⟨hn, hns⟩ := List.forall_mem_cons.1 h
    obtain ⟨hfound, hfounds⟩ := List.forall_mem_cons.1 hlocated
    obtain ⟨hc, hrest⟩ := child_of_drop hdrop
    have hmore := ih hrest hfounds hns
    rw [along_cons, Node.innerFrom]
    cases n with
    | mk form extent children =>
      cases form with
      | statement =>
        have hentered : (Node.mk .statement extent children).form.isEntered = true := rfl
        have hown := statementAt_ownStatement hfound.extent hn next
        have hall : (Node.mk .statement extent children).children.drop 0 = children := rfl
        -- the blocks inside a statement are placed before those of the statements after it
        have hinner := blocks_gatherAll hentered hall hn id block
          (ownStatement l next extent (Node.gatherAll children).1).2
        rw [Node.outlines, Node.innerLayout, lowerStatements_cons]
        constructor
        · exact List.rel_append
            (List.forall₂_map_left_iff.2 (hown.imp fun _ _ hs => hs.shift henters hc)) (hmore _ _).1
        · exact List.rel_append
            (List.forall₂_map_left_iff.2 (hinner.imp fun _ _ hb => hb.shift henters hc)) (hmore _ _).2
      | _ =>
        rw [Node.outlines, Node.innerLayout]
        · exact hmore block next
        all_goals simp

/-- A block is lowered from its place, with the blocks inside it. -/
theorem blocks_block (extent : Extent) (hlocated : ∀ n ∈ ns, n.Located l)
    (h : ∀ n ∈ ns, ∀ c ∈ n.children, c.IsLowered l) (parent : Option Nat) (id block next : Nat) :
    List.Forall₂ (BlockAt l ((Node.mk .block extent ns).reach? Form.isEntered))
      (Node.mk .block extent ns).layout
      (⟨parent, (lowerStatements l id block next (Node.outlines ns)).1⟩ ::
        (lowerStatements l id block next (Node.outlines ns)).2.1) := by
  have hentered : (Node.mk .block extent ns).form.isEntered = true := rfl
  have hall : (Node.mk .block extent ns).children.drop 0 = ns := rfl
  have hstatements := statements_outlines hentered hall hlocated h id block next
  rw [Node.layout]
  exact .cons hstatements.1 hstatements.2

/-- The expression that a node itself is. -/
theorem expressions_own {form : Form} {extent : Extent} (h : (Node.mk form extent ns).Located l) :
    List.Forall₂ (ExpressionAt l ((Node.mk form extent ns).reach? Form.isEntered))
      (if form.mark? = some .expression then [[]] else [])
      ((Node.mk form extent []).mention?.toList.filterMap (·.expression? l)) := by
  have hsame : (Node.mk form extent []).mention? = (Node.mk form extent ns).mention? := rfl
  have hiff : (Node.mk form extent ns).form.mark? = some .expression ↔
    (Node.mk form extent ns).mention?.isSome = true := Node.mark?_eq_expression_iff
  rw [Node.form] at hiff
  rw [hsame]
  cases hmention : (Node.mk form extent ns).mention? with
  | none =>
    rw [if_neg (by simp [hiff, hmention])]
    exact .nil
  | some m =>
    obtain ⟨e, he⟩ := h.mention m hmention
    rw [if_pos (by simp [hiff, hmention]), Option.toList_some, List.filterMap_cons_some he]
    exact .cons ⟨_, m, Node.reach?_nil, hmention, he⟩ .nil

theorem isLowered_of_children {form : Form} {extent : Extent} (hentered : form.isEntered = true)
    (hblock : form ≠ .block) (hlocated : (Node.mk form extent ns).Located l)
    (h : ∀ c ∈ ns, c.IsLowered l) : (Node.mk form extent ns).IsLowered l := by
  have hall : (Node.mk form extent ns).children.drop 0 = ns := rfl
  have henters : (Node.mk form extent ns).form.isEntered = true := hentered
  have hown := expressions_own hlocated
  have hexpressions := expressions_gatherAll henters hall h
  have hblocks := blocks_gatherAll henters hall h
  cases form with
  | block => exact absurd rfl hblock
  | item | function | implementation | traitMembers | module | literal => cases hentered
  | _ =>
    constructor
    · rw [Node.mentionPlaces, Node.gather, List.filterMap_append]
      · exact List.rel_append hown hexpressions
      all_goals simp
    · rw [Node.layout, Node.gather]
      · exact hblocks
      all_goals simp

end Children

theorem Within.children {ts : List Token} {n : Node} (h : Within ts n) : AllWithin ts n.children := by
  obtain ⟨us, hinside, hcovers⟩ := h
  exact hcovers.children.inside hinside

/-- A proper tree and the trees of its children are lowered from their places, if all nodes within
the tokens are found. -/
theorem Node.Proper.isLowered {l : Locator} {tokens : List Token}
    (hlocated : ∀ n, Within tokens n → n.Located l) {n : Node} (h : n.Proper) (hn : Within tokens n) :
    n.IsLowered l ∧ ∀ c ∈ n.children, c.IsLowered l := by
  -- a block asks for the children of its statements, two levels below it, so these are carried along
  induction h with
  | @value form extent children value proper parts leftmost ih =>
    have hchildren : ∀ c ∈ children, c.IsLowered l := fun c hc => (ih c hc (hn.children c hc)).1
    refine ⟨?_, hchildren⟩
    cases form with
    | block | statement | function => cases value
    | item | implementation | traitMembers | module =>
      constructor
      · rw [Node.mentionPlaces, Node.gather]
        exact .nil
      · intro parent block next
        rw [Node.layout, Node.gather, lowerBlocks]
        exact .nil
    | literal kind =>
      constructor
      · rw [Node.mentionPlaces, Node.gather]
        exact expressions_own (hlocated _ hn)
      · intro parent block next
        rw [Node.layout, Node.gather, lowerBlocks]
        exact .nil
    | _ => exact isLowered_of_children rfl (by simp) (hlocated _ hn) hchildren
  | @statement extent children proper parts ih =>
    have hchildren : ∀ c ∈ children, c.IsLowered l := fun c hc => (ih c hc (hn.children c hc)).1
    exact ⟨isLowered_of_children rfl (by simp) (hlocated _ hn) hchildren, hchildren⟩
  | @block extent children proper pieces ih =>
    refine ⟨⟨?_, ?_⟩, fun c hc => (ih c hc (hn.children c hc)).1⟩
    · rw [Node.mentionPlaces, Node.gather]
      exact .nil
    · intro parent block next
      have hblock := blocks_block extent (fun c hc => hlocated c (hn.children c hc))
        (fun c hc => (ih c hc (hn.children c hc)).2) (some parent) block (block + 1) next
      rw [Node.gather, lowerBlocks_cons]
      dsimp only
      rw [lowerBlocks, List.append_nil]
      exact hblock
  | @function name derived extent body proper block ih =>
    have hbody := (ih (hn.children body (List.mem_singleton_self body))).1
    refine ⟨⟨?_, ?_⟩, ?_⟩
    · rw [Node.mentionPlaces, Node.gather]
      exact .nil
    · intro parent block next
      rw [Node.layout, Node.gather, lowerBlocks]
      exact .nil
    · exact List.forall_mem_singleton.2 hbody

/-! ## Graphs of functions -/

theorem located_of_within {source : String} {tokens : List Token} {i k : Nat}
    (hstand : Stand (dropMark source.toList) i tokens k) (n : Node) (h : Within tokens n) :
    n.Located (.ofSource source) := by
  obtain ⟨us, hinside, hcovers⟩ := h
  constructor
  · obtain ⟨o, text, hlocate, -⟩ := exists_shows hstand hinside hcovers.spans
    exact ⟨(o, text), hlocate⟩
  · intro m hm
    obtain ⟨vs, hshown, hspans⟩ := exists_shown hcovers hm
    have hvs : Inside vs tokens := (Inside.part hshown.isSuffix.isInfix).trans hinside
    obtain ⟨o, text, hlocate, -⟩ := exists_shows hstand hvs hspans
    exact ⟨_, by rw [Mention.expression?, hlocate, Option.map_some]⟩

/-- A control-flow graph has all that is found in a tree, each once: blocks for its blocks with their
statements, and for each of these the expressions that have it as the innermost statement around
them. The layout says where in the tree each of them is found. -/
structure Corresponds (l : Locator) (tree : Place → Option Node) (layout : List BlockPlace)
    (g : FlowGraph) : Prop where
  blocks : Enumerates (layout.map (·.place)) fun p => ∃ n, tree p = some n ∧ n.form = .block
  statements : Enumerates (layout.flatMap fun b => b.statements.map (·.place)) (IsStatementAt tree)
  expressions : Enumerates (layout.flatMap fun b => b.statements.flatMap (·.expressions))
    fun p => ∃ n, tree p = some n ∧ n.mention?.isSome = true
  nested : ∀ b ∈ layout, b.IsNested tree
  lowered : List.Forall₂ (fun b (block : FlowBlock) =>
    List.Forall₂ (StatementAt l tree) b.statements block.statements) layout g.blocks

theorem blocks_graphOf {l : Locator} {tree : Place → Option Node} {layout : List BlockPlace}
    {placed : List PlacedBlock} (h : List.Forall₂ (BlockAt l tree) layout placed) :
    List.Forall₂ (fun b (block : FlowBlock) =>
      List.Forall₂ (StatementAt l tree) b.statements block.statements) layout (graphOf placed).blocks := by
  rw [← List.zipIdx_map_fst 0 placed, List.forall₂_map_right_iff] at h
  rw [graphOf, List.forall₂_map_right_iff]
  exact h

/-- The layout of the body of a function is that of its graph. -/
theorem corresponds_lowerFunction {l : Locator} {tokens : List Token}
    (hlocated : ∀ n, Within tokens n → n.Located l) {b : Node} (hproper : b.Proper)
    (hform : b.form = .block) (hb : Within tokens b) (next : Nat) (name : String) (synthetic : Bool)
    (extent : Extent) :
    Corresponds l (b.reach? Form.isEntered) b.layout
      (lowerFunction l next name synthetic extent [b]).1.graph where
  blocks := by
    have hblocks := hproper.enumerates_layout hform .block
    simpa only [BlockPlace.places_marks, Form.mark?_eq_block_iff, ← List.map_eq_flatMap] using hblocks
  statements := by
    have hstatements := hproper.enumerates_layout hform .statement
    simp only [BlockPlace.places_marks, Form.mark?_eq_statement_iff] at hstatements
    exact hstatements
  expressions := by
    have hexpressions := hproper.enumerates_layout hform .expression
    simpa only [BlockPlace.places_marks, Node.mark?_eq_expression_iff] using hexpressions
  nested := hproper.isNested.1 (by simp [hform])
  lowered := by
    cases b with
    | mk form e children =>
      obtain rfl : form = .block := hform
      have hchildren : ∀ n ∈ children, ∀ c ∈ n.children, c.IsLowered l := by
        intro n hn
        exact ((hproper.children n hn).isLowered hlocated (hb.children n hn)).2
      have hblocks := blocks_block e (fun n hn => hlocated n (hb.children n hn)) hchildren none 0 1 next
      have hbody : [Node.mk .block e children].flatMap (fun n => if n.form == .block then
          Node.outlines n.children else []) = Node.outlines children := by
        rw [List.flatMap_singleton]
        rfl
      rw [lowerFunction, hbody]
      exact blocks_graphOf hblocks

/-- The method has the name of the function, and its graph corresponds to the body as far as that is
entered. If there are no attributes in front of literals, this is all of the body outside of nested
items. -/
def IsLoweredBody (l : Locator) (f : Node) (m : Method) : Prop :=
  ∃ derived b layout, f.form = .function m.name derived ∧ f.children = [b] ∧ b.form = .block ∧
    Corresponds l (b.reach? Form.isEntered) layout m.graph ∧
    ((∀ p n, b.reach? Form.isOutside p = some n → n.form.isLiteral = true → n.children = []) →
      Corresponds l (b.reach? Form.isOutside) layout m.graph)

theorem isLoweredBody_of_isMethodOf {l : Locator} {tokens : List Token}
    (hlocated : ∀ n, Within tokens n → n.Located l) {f : Node} {m : Method} (hmethod : IsMethodOf l f m)
    (hproper : f.Proper) (hf : Within tokens f) : IsLoweredBody l f m := by
  obtain ⟨next, name, derived, synthetic, extent, children⟩ := hmethod
  cases hproper with
  | value value => cases value
  | @function _ _ _ b proper block =>
    have hb := hf.children b (List.mem_singleton_self b)
    have hcorresponds := corresponds_lowerFunction hlocated proper block hb next name synthetic extent
    refine ⟨derived, b, b.layout, rfl, rfl, block, hcorresponds, ?_⟩
    -- without attributes the two ways to enter the body reach the same nodes
    intro hliterals
    rw [Node.reach?_isOutside_eq hliterals]
    exact hcorresponds

/-- Lowering neither loses nor duplicates anything, apart from what attributes in front of literals
hold: every function of a source file that can be read becomes one method, the blocks of its body
become the blocks of the graph, statements stay in their blocks, and each expression outside of nested
items goes to the innermost statement around it. -/
theorem bodies_lowered_one_to_one {name path source : String} {u : ProgramUnit}
    (h : Frontend.parseRust name path source = .ok u) :
    ∃ items ordered, items? source = some items ∧ ordered.Perm (u.methods.map (·.2)) ∧
      List.Forall₂ (IsLoweredBody (.ofSource source)) (Node.functionsAll items) ordered := by
  obtain ⟨items, hitems, rfl⟩ := exists_items_of_parseRust h
  obtain ⟨tokens, htokens, hwithin⟩ := allWithin_items hitems
  obtain ⟨k, hstand⟩ := stand_of_fileTokens? htokens
  obtain ⟨methods, hmethods, hperm⟩ := exists_methods_unitOf name path source items
  have hfunctions : ∀ f ∈ Node.functionsAll items, f.Proper ∧ Within tokens f :=
    Node.forall_functionsAll
      (fun n hn c hc => ⟨hn.1.children c hc, hn.2.children c hc⟩) items
      fun n hn => ⟨proper_of_mem_items hitems n hn, hwithin n hn⟩
  refine ⟨items, methods, hitems, hperm.symm, ?_⟩
  have hboth := (List.forall₂_and_left _ _).2 ⟨hfunctions, hmethods⟩
  exact hboth.imp fun f m hfm =>
    isLoweredBody_of_isMethodOf (located_of_within hstand) hfm.2 hfm.1.1 hfm.1.2

/-- What is read off an answer shows that there is one. -/
theorem exists_ok_of_toOption_map {ε α β : Type} {answer : Except ε α} {f : α → β} {b : β}
    (h : answer.toOption.map f = some b) : ∃ a, answer = .ok a ∧ f a = b := by
  cases answer with
  | error e => cases h
  | ok a => exact ⟨a, rfl, Option.some.inj h⟩

/-- A function with a block that a pattern falls through to, a closure with a block and an expansion
whose arguments are expressions. -/
def nestedSource : String :=
  "fn f(x: u8) \x7b let Some(y) = x.a(1) else \x7b return; \x7d; y.k(|z| \x7b h!(z + 2); 3 \x7d); \x7d"

theorem bodies_lowered_one_to_one_nested : ∃ u, Frontend.parseRust "a" "a.rs" nestedSource = .ok u ∧
    u.methods.map (fun found => found.2.graph.blocks.map fun block =>
        block.statements.map fun s => s.expressions.map (·.text)) =
      [[[["a(1)", "1"], ["k(|z| \x7b h!(z + 2); 3 \x7d)"]], [[]], [["h!(z + 2)", "z + 2", "2"], ["3"]]]] ∧
    ∃ items ordered, items? nestedSource = some items ∧ ordered.Perm (u.methods.map (·.2)) ∧
      List.Forall₂ (IsLoweredBody (.ofSource nestedSource)) (Node.functionsAll items) ordered := by
  have hread : (Frontend.parseRust "a" "a.rs" nestedSource).toOption.map (fun u =>
      u.methods.map fun found => found.2.graph.blocks.map fun block =>
        block.statements.map fun s => s.expressions.map (·.text)) =
      some [[[["a(1)", "1"], ["k(|z| \x7b h!(z + 2); 3 \x7d)"]], [[]],
        [["h!(z + 2)", "z + 2", "2"], ["3"]]]] := by decide +kernel
  obtain ⟨u, hparse, htexts⟩ := exists_ok_of_toOption_map hread
  exact ⟨u, hparse, htexts, bodies_lowered_one_to_one hparse⟩

/-! ## Attributes of literals -/

/-- In a graph that corresponds to a tree, every expression of the tree is one of a statement. -/
theorem Corresponds.exists_expression {l : Locator} {tree : Place → Option Node}
    {layout : List BlockPlace} {g : FlowGraph} (h : Corresponds l tree layout g) {p : Place} {n : Node}
    (hn : tree p = some n) (hmention : n.mention?.isSome = true) :
    ∃ s ∈ g.stored, ∃ e ∈ s.expressions, ExpressionAt l tree p e := by
  have hplaces := (h.expressions.2 p).2 ⟨n, hn, hmention⟩
  obtain ⟨b, hb, hplaces⟩ := List.mem_flatMap.1 hplaces
  obtain ⟨place, hplace, hp⟩ := List.mem_flatMap.1 hplaces
  obtain ⟨block, hblock, hstatements⟩ := exists_related_of_mem h.lowered hb
  obtain ⟨s, hs, hstatement⟩ := exists_related_of_mem hstatements hplace
  obtain ⟨e, he, hexpression⟩ := exists_related_of_mem hstatement.expressions hp
  exact ⟨s, List.mem_flatMap.2 ⟨block, hblock, hs⟩, e, he, hexpression⟩

/-- A number and a call, each with an attribute that holds a string. -/
def attributedSource : String := "fn f() \x7b g(#[doc = \"x\"] 5, #[doc = \"y\"] h()); \x7d"

/-- The string in an attribute in front of a literal stands in the body outside of nested items, but no
statement has it. -/
theorem literal_attribute_not_lowered : ∃ u items f b m,
    Frontend.parseRust "a" "a.rs" attributedSource = .ok u ∧ items? attributedSource = some items ∧
      Node.functionsAll items = [f] ∧ f.children = [b] ∧ u.methods.map (·.2) = [m] ∧
        ∀ layout, ¬ Corresponds (.ofSource attributedSource) (b.reach? Form.isOutside) layout m.graph := by
  have hitems : (items? attributedSource).map (fun items => (Node.functionsAll items).map fun f =>
      f.children.map fun b => ((b.reach? Form.isOutside [0, 0, 1, 0, 0]).bind Node.mention?).map
        fun m => (m.expression? (.ofSource attributedSource)).map (·.text)) =
      some [[some (some "\"x\"")]] := by decide +kernel
  have hread : (Frontend.parseRust "a" "a.rs" attributedSource).toOption.map (fun u =>
      u.methods.map fun found => found.2.graph.stored.map fun s => s.expressions.map (·.text)) =
      some [[["g(#[doc = \"x\"] 5, #[doc = \"y\"] h())", "#[doc = \"x\"] 5", "#[doc = \"y\"] h()",
        "\"y\""]]] := by decide +kernel
  obtain ⟨items, hsome, hfunctions⟩ := Option.map_eq_some_iff.1 hitems
  obtain ⟨f, hf, hchildren⟩ := List.map_eq_singleton_iff.1 hfunctions
  obtain ⟨b, hb, htext⟩ := List.map_eq_singleton_iff.1 hchildren
  obtain ⟨mention, hmention, htext⟩ := Option.map_eq_some_iff.1 htext
  obtain ⟨n, hn, hmention⟩ := Option.bind_eq_some_iff.1 hmention
  obtain ⟨u, hparse, htexts⟩ := exists_ok_of_toOption_map hread
  obtain ⟨found, hfound, hstored⟩ := List.map_eq_singleton_iff.1 htexts
  refine ⟨u, items, f, b, found.2, hparse, hsome, hf, hb, by rw [hfound, List.map_singleton], ?_⟩
  intro layout hcorresponds
  obtain ⟨s, hs, e, he, m, mention', hm, hmention', hexpression⟩ :=
    hcorresponds.exists_expression hn (by rw [hmention]; rfl)
  obtain rfl : n = m := Option.some.inj (hn.symm.trans hm)
  obtain rfl : mention = mention' := Option.some.inj (hmention.symm.trans hmention')
  rw [hexpression, Option.map_some, Option.some_inj] at htext
  have hmem : e.text ∈ (found.2.graph.stored.map fun s => s.expressions.map (·.text)).flatten :=
    List.mem_flatten.2 ⟨_, List.mem_map_of_mem hs, List.mem_map_of_mem he⟩
  rw [htext, hstored] at hmem
  exact absurd hmem (by decide)

end LintMend.Rust
