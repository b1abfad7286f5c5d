import LintMend.Proofs.LoweredUnits

/-!
# The statements of a syntax tree

Lowering goes through a tree and makes a statement of every statement node that it meets, whatever
blocks stand around it. So, apart from their numbers and their order, the statements of a unit are
read off the statement nodes of the tree one by one.
-/

namespace LintMend

/-- A statement without its number. -/
def Statement.content (s : Statement) : Origin × String × List Expression :=
  (s.origin, s.text, s.expressions)

namespace Rust

/-! ## Statement nodes -/

mutual

/-- The statement nodes of the blocks inside a node, each in front of those inside it. What attributes
in front of a literal hold is left out. -/
def Node.inner : Node → List Node
  | .mk form _ children =>
    match form with
    | .block => Node.ofBlock children
    | .item | .function _ _ | .implementation _ _ | .traitMembers _ | .module _ | .literal _ => []
    | _ => Node.innerAll children

/-- The same for a sequence of nodes. -/
def Node.innerAll : List Node → List Node
  | [] => []
  | n :: ns => n.inner ++ Node.innerAll ns

/-- The statement nodes among the nodes of a block, and those inside them. -/
def Node.ofBlock : List Node → List Node
  | [] => []
  | .mk form extent children :: ns =>
    match form with
    | .statement => .mk .statement extent children :: (Node.innerAll children ++ Node.ofBlock ns)
    | _ => Node.ofBlock ns

end

/-- The statement nodes of a function. -/
def Node.ofBody (children : List Node) : List Node :=
  children.flatMap fun n => if n.form == .block then Node.ofBlock n.children else []

/-- The statement nodes of the functions among members. -/
def Node.ofMembers (members : List Node) : List Node :=
  members.flatMap fun n =>
    match n.form with
    | .function _ _ => Node.ofBody n.children
    | _ => []

mutual

/-- The statement nodes of an item. -/
def Node.ofItem : Node → List Node
  | .mk form _ children =>
    match form with
    | .function _ _ => Node.ofBody children
    | .implementation _ _ | .traitMembers _ => Node.ofMembers children
    | .module _ => Node.ofItems children
    | _ => []

/-- The statement nodes of a sequence of items. -/
def Node.ofItems : List Node → List Node
  | [] => []
  | n :: ns => n.ofItem ++ Node.ofItems ns

end

/-- The expressions that a statement node mentions outside of inner blocks. -/
def Node.mentions (n : Node) : List Mention := (Node.gatherAll n.children).1

/-- What a statement shows, if it is found in the source. -/
def content? (l : Locator) (extent : Extent) (mentions : List Mention) :
    Option (Origin × String × List Expression) :=
  (l.locate? extent).map fun found => (found.1, found.2, mentions.filterMap (·.expression? l))

/-- What a statement node shows. -/
def Node.content? (l : Locator) (n : Node) : Option (Origin × String × List Expression) :=
  Rust.content? l n.extent n.mentions

/-! ## Outlines -/

mutual

/-- What the statements of a block show, each in front of those inside it. -/
def contents (l : Locator) : List Outline → List (Origin × String × List Expression)
  | [] => []
  | .mk extent mentions blocks :: rest =>
    (content? l extent mentions).toList ++ (blockContents l blocks ++ contents l rest)

/-- The same for a sequence of blocks. -/
def blockContents (l : Locator) : List (List Outline) → List (Origin × String × List Expression)
  | [] => []
  | outline :: rest => contents l outline ++ blockContents l rest

end

theorem contents_append (l : Locator) (os os' : List Outline) :
    contents l (os ++ os') = contents l os ++ contents l os' := by
  induction os with
  | nil => rw [List.nil_append, contents, List.nil_append]
  | cons o os ih =>
    cases o with
    | mk extent mentions blocks =>
      rw [List.cons_append, contents, contents, ih]
      simp only [List.append_assoc]

theorem blockContents_append (l : Locator) (bs bs' : List (List Outline)) :
    blockContents l (bs ++ bs') = blockContents l bs ++ blockContents l bs' := by
  induction bs with
  | nil => rw [List.nil_append, blockContents, List.nil_append]
  | cons b bs ih => rw [List.cons_append, blockContents, blockContents, ih, List.append_assoc]

mutual

theorem blockContents_gather (l : Locator) (n : Node) :
    blockContents l n.gather.2 = n.inner.filterMap (·.content? l) := by
  match n with
  | .mk form extent children =>
    have hchildren := blockContents_gatherAll l children
    cases form with
    | block =>
      rw [Node.gather, Node.inner, blockContents, blockContents, List.append_nil]
      exact contents_outlines l children
    | item | function | implementation | traitMembers | module | literal =>
      rw [Node.gather, Node.inner, blockContents, List.filterMap_nil]
    | _ =>
      rw [Node.gather, Node.inner]
      · exact hchildren
      all_goals simp

theorem blockContents_gatherAll (l : Locator) (ns : List Node) :
    blockContents l (Node.gatherAll ns).2 = (Node.innerAll ns).filterMap (·.content? l) := by
  match ns with
  | [] => rw [Node.gatherAll, Node.innerAll, blockContents, List.filterMap_nil]
  | n :: ns =>
    rw [Node.gatherAll, Node.innerAll, blockContents_append, List.filterMap_append,
      blockContents_gather l n, blockContents_gatherAll l ns]

theorem contents_outlines (l : Locator) (ns : List Node) :
    contents l (Node.outlines ns) = (Node.ofBlock ns).filterMap (·.content? l) := by
  match ns with
  | [] => rw [Node.outlines, Node.ofBlock, contents, List.filterMap_nil]
  | .mk form extent children :: ns =>
    have hrest := contents_outlines l ns
    cases form with
    | statement =>
      have hchildren := blockContents_gatherAll l children
      have hhead : (Node.mk .statement extent children).content? l =
          content? l extent (Node.gatherAll children).1 := rfl
      rw [Node.outlines, Node.ofBlock, contents, hchildren, hrest, ← List.filterMap_append, ← hhead]
      cases hown : (Node.mk .statement extent children).content? l with
      | none =>
        rw [List.filterMap_cons_none hown]
        rfl
      | some own =>
        rw [List.filterMap_cons_some hown]
        rfl
    | _ =>
      rw [Node.outlines, Node.ofBlock]
      · exact hrest
      all_goals simp

end

theorem contents_body (l : Locator) (children : List Node) :
    contents l (children.flatMap fun n => if n.form == .block then Node.outlines n.children else []) =
      (Node.ofBody children).filterMap (·.content? l) := by
  induction children with
  | nil => rw [List.flatMap_nil, contents, Node.ofBody, List.flatMap_nil, List.filterMap_nil]
  | cons n ns ih =>
    rw [Node.ofBody] at ih ⊢
    rw [List.flatMap_cons, List.flatMap_cons, contents_append, List.filterMap_append, ih]
    congr 1
    split
    · exact contents_outlines l n.children
    · rw [contents, List.filterMap_nil]

/-! ## What is lowered -/

theorem content_ownStatement (l : Locator) (next : Nat) (extent : Extent) (mentions : List Mention) :
    (ownStatement l next extent mentions).1.map Statement.content =
      (content? l extent mentions).toList := by
  unfold ownStatement content?
  cases l.locate? extent with
  | none => rfl
  | some found => rfl

mutual

theorem content_lowerStatements (l : Locator) (id block next : Nat) (outlines : List Outline) :
    (((lowerStatements l id block next outlines).1 ++
      placedStatements (lowerStatements l id block next outlines).2.1).map Statement.content).Perm
        (contents l outlines) := by
  match outlines with
  | [] =>
    rw [lowerStatements, contents]
    exact .nil
  | .mk extent mentions blocks :: rest =>
    rw [lowerStatements_cons, contents]
    dsimp only
    have hown := content_ownStatement l next extent mentions
    generalize ownStatement l next extent mentions = own at hown ⊢
    have hinner := content_lowerBlocks l id block own.2 blocks
    generalize lowerBlocks l id block own.2 blocks = inner at hinner ⊢
    have hmore := content_lowerStatements l id (block + inner.1.length) inner.2 rest
    generalize lowerStatements l id (block + inner.1.length) inner.2 rest = more at hmore ⊢
    rw [placedStatements, List.flatMap_append, List.append_assoc, List.map_append, hown]
    apply List.Perm.append_left
    refine ((List.perm_append_comm_assoc _ _ _).map _).trans ?_
    rw [List.map_append]
    exact hinner.append hmore
termination_by sizeOf outlines

theorem content_lowerBlocks (l : Locator) (parent block next : Nat) (outlines : List (List Outline)) :
    ((placedStatements (lowerBlocks l parent block next outlines).1).map Statement.content).Perm
      (blockContents l outlines) := by
  match outlines with
  | [] =>
    rw [lowerBlocks, blockContents]
    exact .nil
  | outline :: rest =>
    rw [lowerBlocks_cons, blockContents]
    dsimp only
    have hbody := content_lowerStatements l block (block + 1) next outline
    generalize lowerStatements l block (block + 1) next outline = body at hbody ⊢
    have hafter := content_lowerBlocks l parent
      (block + (PlacedBlock.mk (some parent) body.1 :: body.2.1).length) body.2.2 rest
    generalize lowerBlocks l parent (block + (PlacedBlock.mk (some parent) body.1 :: body.2.1).length)
      body.2.2 rest = after at hafter ⊢
    rw [placedStatements, List.flatMap_append, List.map_append]
    exact hbody.append hafter
termination_by sizeOf outlines

end

theorem content_lowerFunction (l : Locator) (next : Nat) (name : String) (synthetic : Bool)
    (extent : Extent) (children : List Node) :
    ((lowerFunction l next name synthetic extent children).1.graph.stored.map Statement.content).Perm
      ((Node.ofBody children).filterMap (·.content? l)) := by
  rw [← contents_body]
  unfold lowerFunction lowerBody
  dsimp only
  rw [stored_graphOf]
  exact content_lowerStatements l 0 1 next _

theorem content_lowerMembers (l : Locator) (derived : Bool) (next : Nat) (members : List Node) :
    ((statementsOf (lowerMembers l derived next members).1).map Statement.content).Perm
      ((Node.ofMembers members).filterMap (·.content? l)) := by
  fun_induction lowerMembers l derived next members with
  | case1 next => exact .nil
  | case2 next name isDerived extent children rest method next' hmethod methods next'' hrest ih =>
    have hfunction := content_lowerFunction l next name (derived || isDerived) extent children
    rw [hmethod] at hfunction
    rw [hrest] at ih
    rw [Node.ofMembers] at ih ⊢
    rw [statementsOf, List.flatMap_cons, List.flatMap_cons, List.map_append, List.filterMap_append]
    exact hfunction.append ih
  | case3 next node rest hnode ih =>
    rw [Node.ofMembers] at ih ⊢
    rw [List.flatMap_cons]
    split
    · next name isDerived hform =>
      cases node with
      | mk form extent children =>
        cases show form = .function name isDerived from hform
        exact absurd rfl (hnode name isDerived extent children)
    · exact ih

/-- The statements of what has been lowered. -/
def Lowered.statements (done : Lowered) : List Statement :=
  statementsOf done.functions ++ done.classes.flatMap fun c => statementsOf c.methods

theorem Lowered.statements_addFunction (done : Lowered) (method : Method) (next : Nat) :
    (Lowered.mk done.classes (done.functions ++ [method]) next).statements.Perm
      (done.statements ++ method.graph.stored) := by
  simp only [Lowered.statements, statementsOf, List.flatMap_append, List.flatMap_singleton,
    List.append_assoc]
  exact List.perm_append_comm.append_left _

theorem Lowered.statements_addClass (done : Lowered) (c : Class) (next : Nat) :
    (Lowered.mk (done.classes ++ [c]) done.functions next).statements =
      done.statements ++ statementsOf c.methods := by
  simp only [Lowered.statements, List.flatMap_append, List.flatMap_singleton, List.append_assoc]

mutual

theorem content_lowerItem (l : Locator) (modules : String) (done : Lowered) (item : Node) :
    ((lowerItem l modules done item).statements.map Statement.content).Perm
      (done.statements.map Statement.content ++ item.ofItem.filterMap (·.content? l)) := by
  match item with
  | .mk form extent children =>
    cases form with
    | function name derived =>
      rw [lowerItem, Node.ofItem]
      refine ((done.statements_addFunction _ _).map _).trans ?_
      rw [List.map_append]
      exact (content_lowerFunction l done.next name derived extent children).append_left _
    | implementation owner derived =>
      rw [lowerItem, Node.ofItem, Lowered.statements_addClass, List.map_append]
      exact (content_lowerMembers l derived done.next children).append_left _
    | traitMembers name =>
      rw [lowerItem, Node.ofItem, Lowered.statements_addClass, List.map_append]
      exact (content_lowerMembers l false done.next children).append_left _
    | module name =>
      rw [lowerItem, Node.ofItem]
      exact content_lowerItems l (modules ++ name ++ "::") done children
    | _ =>
      simp only [lowerItem, Node.ofItem, List.filterMap_nil, List.append_nil]
      exact .refl _

theorem content_lowerItems (l : Locator) (modules : String) (done : Lowered) (items : List Node) :
    ((lowerItems l modules done items).statements.map Statement.content).Perm
      (done.statements.map Statement.content ++ (Node.ofItems items).filterMap (·.content? l)) := by
  match items with
  | [] =>
    rw [lowerItems, Node.ofItems, List.filterMap_nil, List.append_nil]
  | n :: ns =>
    rw [lowerItems, Node.ofItems, List.filterMap_append, ← List.append_assoc]
    exact (content_lowerItems l modules (lowerItem l modules done n) ns).trans
      ((content_lowerItem l modules done n).append_right _)

end

/-- Apart from numbers and order, the statements of a unit are what its statement nodes show. -/
theorem content_unitOf (name path source : String) (items : List Node) :
    ((unitOf name path source items).statements.map Statement.content).Perm
      ((Node.ofItems items).filterMap (·.content? (.ofSource source))) := by
  have h := content_lowerItems (.ofSource source) "" {} items
  have hstatements : (unitOf name path source items).statements =
      (lowerItems (.ofSource source) "" {} items).statements := by
    unfold unitOf lower Lowered.statements
    generalize lowerItems (.ofSource source) "" {} items = lowered
    dsimp only
    split
    · next hempty =>
      rw [List.isEmpty_iff.1 hempty]
      rfl
    · rfl
  rw [hstatements]
  exact h

end Rust

end LintMend
