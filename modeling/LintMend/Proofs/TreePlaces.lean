import LintMend.Proofs.ProperTrees
import LintMend.Rust.Lowering

/-!
# Places in a syntax tree

A place is the way to a node: the numbers of the children that lead there. Blocks, statements and
expressions of a tree are found at places, apart from those inside nested items. The layout of a tree
puts them into the order in which lowering meets them: block by block, each with its statements, and
each statement with the expressions that belong to it and to no statement further inside. In a proper
tree the layout lists all of them, and each one once.
-/

namespace LintMend.Rust

/-- The numbers of the children on the way to a node. -/
abbrev Place := List Nat

/-! ## Nodes at places -/

/-- The form is that of an item. -/
def Form.isItem : Form → Bool
  | .item | .function _ _ | .implementation _ _ | .traitMembers _ | .module _ => true
  | _ => false

def Form.isLiteral : Form → Bool
  | .literal _ => true
  | _ => false

/-- The node is not an item. -/
def Form.isOutside (form : Form) : Bool := !form.isItem

/-- The node is not an item, and not a literal. All that is below a literal are attributes in front
of it. -/
def Form.isEntered (form : Form) : Bool := form.isOutside && !form.isLiteral

/-- The node at a place, if the way there goes only through nodes that may be entered. -/
def Node.reach? (enters : Form → Bool) : Node → Place → Option Node
  | n, [] => some n
  | n, i :: p => if enters n.form then n.children[i]?.bind fun c => c.reach? enters p else none

/-- What of a tree is found again in a control-flow graph. -/
inductive Mark where
  | block
  | statement
  | expression
deriving DecidableEq, Repr

def Form.mark? : Form → Option Mark
  | .block => some .block
  | .statement => some .statement
  | .call _ | .methodCall _ _ | .binary _ | .literal _ | .expansion _ => some .expression
  | _ => none

theorem Form.mark?_eq_block_iff {form : Form} : form.mark? = some .block ↔ form = .block := by
  cases form <;> simp [mark?]

theorem Form.mark?_eq_statement_iff {form : Form} :
    form.mark? = some .statement ↔ form = .statement := by
  cases form <;> simp [mark?]

theorem Node.mark?_eq_expression_iff {n : Node} :
    n.form.mark? = some .expression ↔ n.mention?.isSome = true := by
  cases n with
  | mk form extent children => cases form <;> simp [Form.mark?, Node.mention?, Node.form]

section Reach

variable {enters : Form → Bool} {n m c : Node} {p : Place} {i : Nat}

theorem Node.reach?_nil : n.reach? enters [] = some n := by rw [reach?]

theorem Node.reach?_cons (h : enters n.form = true) (hc : n.children[i]? = some c) :
    n.reach? enters (i :: p) = c.reach? enters p := by
  rw [reach?, if_pos h, hc, Option.bind_some]

theorem Node.exists_of_reach?_cons (h : n.reach? enters (i :: p) = some m) :
    enters n.form = true ∧ ∃ c, n.children[i]? = some c ∧ c.reach? enters p = some m := by
  rw [reach?] at h
  split at h
  · next henters => exact ⟨henters, Option.bind_eq_some_iff.1 h⟩
  · cases h

/-- If no attribute stands in front of a literal, literals are as good as not entered. -/
theorem Node.reach?_isOutside_eq
    (h : ∀ p m, n.reach? Form.isOutside p = some m → m.form.isLiteral = true → m.children = []) :
    n.reach? Form.isOutside = n.reach? Form.isEntered := by
  funext p
  induction p generalizing n with
  | nil => rw [reach?_nil, reach?_nil]
  | cons i p ih =>
    rw [reach?, reach?]
    by_cases hliteral : n.form.isLiteral = true
    · have hchildren := h [] n reach?_nil hliteral
      simp [hchildren, Form.isEntered, hliteral]
    · by_cases houtside : n.form.isOutside = true
      · rw [if_pos houtside, if_pos (by simp [Form.isEntered, houtside, hliteral])]
        cases hc : n.children[i]? with
        | none => rfl
        | some c =>
          refine ih fun q m hm => h (i :: q) m ?_
          rw [reach?_cons houtside hc, hm]
      · simp [Form.isEntered, houtside]

end Reach

/-! ## Along the children -/

/-- What `f` gives for each of the nodes, told by their numbers, which begin with `i`. -/
def along {α : Type} (shift : Nat → α → α) (f : Node → List α) (i : Nat) (ns : List Node) : List α :=
  (ns.zipIdx i).flatMap fun entry => (f entry.1).map (shift entry.2)

section Along

variable {α : Type} {shift : Nat → α → α} {f : Node → List α} {i : Nat} {n : Node} {ns : List Node}

theorem along_nil : along shift f i [] = [] := rfl

theorem along_cons : along shift f i (n :: ns) = (f n).map (shift i) ++ along shift f (i + 1) ns := by
  rw [along, List.zipIdx_cons, List.flatMap_cons]
  rfl

theorem mem_along {a : α} : a ∈ along shift f i ns ↔
    ∃ j n b, ns[j]? = some n ∧ b ∈ f n ∧ a = shift (i + j) b := by
  induction ns generalizing i with
  | nil => simp [along_nil]
  | cons n ns ih =>
    rw [along_cons, List.mem_append, List.mem_map, ih]
    constructor
    · rintro (⟨b, hb, rfl⟩ | ⟨j, m, b, hm, hb, rfl⟩)
      · exact ⟨0, n, b, rfl, hb, rfl⟩
      · exact ⟨j + 1, m, b, by simpa using hm, hb, by rw [Nat.add_right_comm, Nat.add_assoc]⟩
    · rintro ⟨j, m, b, hm, hb, rfl⟩
      cases j with
      | zero =>
        obtain rfl : n = m := by simpa using hm
        exact .inl ⟨b, hb, rfl⟩
      | succ j =>
        exact .inr ⟨j, m, b, by simpa using hm, hb, by rw [Nat.add_right_comm, Nat.add_assoc]⟩

end Along

/-! ## All that is marked -/

/-- The mark of a child, seen from its parent. -/
def Mark.shift (i : Nat) (mark : Mark × Place) : Mark × Place := (mark.1, i :: mark.2)

mutual

/-- The marked nodes of a tree with their places, each in front of those below it. -/
def Node.marks (enters : Form → Bool) : Node → List (Mark × Place)
  | .mk form _ children =>
    (form.mark?.toList.map fun mark => (mark, [])) ++
      if enters form then Node.marksFrom enters 0 children else []

/-- The same for children, which are numbered from `i` on. -/
def Node.marksFrom (enters : Form → Bool) (i : Nat) : List Node → List (Mark × Place)
  | [] => []
  | n :: ns => (n.marks enters).map (Mark.shift i) ++ Node.marksFrom enters (i + 1) ns

end

section Marks

variable {enters : Form → Bool} {n : Node} {ns : List Node} {i : Nat} {mark : Mark} {p : Place}

theorem Node.marksFrom_eq : Node.marksFrom enters i ns = along Mark.shift (Node.marks enters) i ns := by
  induction ns generalizing i with
  | nil => rw [Node.marksFrom, along_nil]
  | cons n ns ih => rw [Node.marksFrom, along_cons, ih]

theorem Node.mem_marks_nil : (mark, []) ∈ n.marks enters ↔ n.form.mark? = some mark := by
  cases n with
  | mk form extent children =>
    have hbelow : (mark, []) ∉ Node.marksFrom enters 0 children := by
      rw [Node.marksFrom_eq, mem_along]
      rintro ⟨j, n, b, -, -, hb⟩
      cases hb
    rw [Node.marks, List.mem_append]
    constructor
    · rintro (h | h)
      · simpa [Node.form] using h
      · split at h
        · exact absurd h hbelow
        · cases h
    · intro h
      left
      simpa [Node.form] using h

theorem Node.mem_marks_cons : (mark, i :: p) ∈ n.marks enters ↔
    enters n.form = true ∧ ∃ c, n.children[i]? = some c ∧ (mark, p) ∈ c.marks enters := by
  cases n with
  | mk form extent children =>
    have hbelow : (mark, i :: p) ∈ Node.marksFrom enters 0 children ↔
        ∃ c, children[i]? = some c ∧ (mark, p) ∈ c.marks enters := by
      rw [Node.marksFrom_eq, mem_along]
      constructor
      · rintro ⟨j, c, ⟨k, q⟩, hc, hmem, hb⟩
        obtain ⟨rfl, rfl, rfl⟩ : mark = k ∧ i = j ∧ p = q := by simpa [Mark.shift] using hb
        exact ⟨c, hc, hmem⟩
      · rintro ⟨c, hc, hmem⟩
        exact ⟨i, c, (mark, p), hc, hmem, by simp [Mark.shift]⟩
    rw [Node.marks, List.mem_append, Node.form, Node.children, ← hbelow]
    by_cases h : enters form = true
    · simp [h]
    · simp [h]

/-- The marks of a tree are those of the nodes that are reached. -/
theorem Node.mem_marks_iff :
    (mark, p) ∈ n.marks enters ↔ ∃ m, n.reach? enters p = some m ∧ m.form.mark? = some mark := by
  induction p generalizing n with
  | nil =>
    rw [Node.mem_marks_nil]
    simp [Node.reach?_nil]
  | cons i p ih =>
    rw [Node.mem_marks_cons]
    constructor
    · rintro ⟨henters, c, hc, hmem⟩
      rw [Node.reach?_cons henters hc]
      exact ih.1 hmem
    · rintro ⟨m, hm, hmark⟩
      obtain ⟨henters, c, hc, hm⟩ := Node.exists_of_reach?_cons hm
      exact ⟨henters, c, hc, ih.2 ⟨m, hm, hmark⟩⟩

theorem Mark.shift_injective (i : Nat) : Function.Injective (Mark.shift i) := by
  rintro ⟨k, p⟩ ⟨k', p'⟩ h
  simpa [Mark.shift] using h

mutual

/-- No node is listed twice. -/
theorem Node.nodup_marks (enters : Form → Bool) (n : Node) : (n.marks enters).Nodup := by
  match n with
  | .mk form extent children =>
    have hown : (form.mark?.toList.map fun mark => (mark, ([] : Place))).Nodup := by
      cases form.mark? <;> simp
    have hbelow := Node.nodup_marksFrom enters 0 children
    rw [Node.marks]
    split
    · refine hown.append hbelow ?_
      intro a hown hbelow
      rw [Node.marksFrom_eq, mem_along] at hbelow
      obtain ⟨j, c, b, -, -, rfl⟩ := hbelow
      simp [Mark.shift] at hown
    · rw [List.append_nil]
      exact hown

theorem Node.nodup_marksFrom (enters : Form → Bool) (i : Nat) (ns : List Node) :
    (Node.marksFrom enters i ns).Nodup := by
  match ns with
  | [] =>
    rw [Node.marksFrom]
    exact List.nodup_nil
  | n :: ns =>
    have hfirst := (Node.nodup_marks enters n).map (Mark.shift_injective i)
    have hrest := Node.nodup_marksFrom enters (i + 1) ns
    rw [Node.marksFrom]
    refine hfirst.append hrest ?_
    intro a hfirst hrest
    -- places of the first child begin with `i`, those of the others with greater numbers
    rw [Node.marksFrom_eq, mem_along] at hrest
    obtain ⟨j, c, b, -, -, rfl⟩ := hrest
    obtain ⟨b', -, hb'⟩ := List.mem_map.1 hfirst
    have hnumber := congrArg (fun mark => mark.2.head?) hb'
    simp [Mark.shift] at hnumber
    omega

end

end Marks

/-! ## The layout of a tree -/

/-- Where a statement is, and the expressions that belong to it. -/
structure StatementPlace where
  place : Place
  expressions : List Place
deriving DecidableEq, Repr

/-- Where a block is, and its statements. -/
structure BlockPlace where
  place : Place
  statements : List StatementPlace
deriving DecidableEq, Repr

/-- The statement of a child, seen from its parent. -/
def StatementPlace.shift (i : Nat) (s : StatementPlace) : StatementPlace :=
  ⟨i :: s.place, s.expressions.map (i :: ·)⟩

/-- The block of a child, seen from its parent. -/
def BlockPlace.shift (i : Nat) (b : BlockPlace) : BlockPlace :=
  ⟨i :: b.place, b.statements.map (StatementPlace.shift i)⟩

mutual

/-- The places of the expressions in a node outside of blocks. -/
def Node.mentionPlaces : Node → List Place
  | .mk form _ children =>
    match form with
    | .block | .item | .function _ _ | .implementation _ _ | .traitMembers _ | .module _ => []
    | .literal _ => [[]]
    | form => (if form.mark? = some .expression then [[]] else []) ++ Node.mentionPlacesFrom 0 children

/-- The same for children, which are numbered from `i` on. -/
def Node.mentionPlacesFrom (i : Nat) : List Node → List Place
  | [] => []
  | n :: ns => n.mentionPlaces.map (i :: ·) ++ Node.mentionPlacesFrom (i + 1) ns

end

/-- The statement that a node is. -/
def Node.statementPlaces (n : Node) : List StatementPlace :=
  if n.form = .statement then [⟨[], Node.mentionPlacesFrom 0 n.children⟩] else []

mutual

/-- The blocks in a node, each in front of those inside it, with their statements. -/
def Node.layout : Node → List BlockPlace
  | .mk form _ children =>
    match form with
    | .block =>
      ⟨[], along StatementPlace.shift Node.statementPlaces 0 children⟩ :: Node.innerFrom 0 children
    | .item | .function _ _ | .implementation _ _ | .traitMembers _ | .module _ | .literal _ => []
    | _ => Node.layoutFrom 0 children

/-- The same for children, which are numbered from `i` on. -/
def Node.layoutFrom (i : Nat) : List Node → List BlockPlace
  | [] => []
  | n :: ns => n.layout.map (BlockPlace.shift i) ++ Node.layoutFrom (i + 1) ns

/-- The blocks inside the statements of a block, which are numbered from `i` on. -/
def Node.innerFrom (i : Nat) : List Node → List BlockPlace
  | [] => []
  | n :: ns => n.innerLayout.map (BlockPlace.shift i) ++ Node.innerFrom (i + 1) ns

/-- The blocks inside a statement. -/
def Node.innerLayout : Node → List BlockPlace
  | .mk form _ children =>
    match form with
    | .statement => Node.layoutFrom 0 children
    | _ => []

end

section Layout

variable {n : Node} {ns : List Node} {i : Nat}

theorem Node.mentionPlacesFrom_eq :
    Node.mentionPlacesFrom i ns = along List.cons Node.mentionPlaces i ns := by
  induction ns generalizing i with
  | nil => rw [Node.mentionPlacesFrom, along_nil]
  | cons n ns ih => rw [Node.mentionPlacesFrom, along_cons, ih]

theorem Node.layoutFrom_eq : Node.layoutFrom i ns = along BlockPlace.shift Node.layout i ns := by
  induction ns generalizing i with
  | nil => rw [Node.layoutFrom, along_nil]
  | cons n ns ih => rw [Node.layoutFrom, along_cons, ih]

theorem Node.innerFrom_eq : Node.innerFrom i ns = along BlockPlace.shift Node.innerLayout i ns := by
  induction ns generalizing i with
  | nil => rw [Node.innerFrom, along_nil]
  | cons n ns ih => rw [Node.innerFrom, along_cons, ih]

end Layout

/-! ## Exactness -/

/-- The mark of an expression. -/
def Place.marks (p : Place) : List (Mark × Place) := [(.expression, p)]

/-- The marks of a statement and of its expressions. -/
def StatementPlace.marks (s : StatementPlace) : List (Mark × Place) :=
  (.statement, s.place) :: s.expressions.flatMap Place.marks

/-- The marks of a block, of its statements and of their expressions. -/
def BlockPlace.marks (b : BlockPlace) : List (Mark × Place) :=
  (.block, b.place) :: b.statements.flatMap StatementPlace.marks

theorem Place.marks_shift (i : Nat) (p : Place) :
    Place.marks (i :: p) = (Place.marks p).map (Mark.shift i) := rfl

theorem StatementPlace.marks_shift (i : Nat) (s : StatementPlace) :
    (s.shift i).marks = s.marks.map (Mark.shift i) := by
  rw [marks, marks, shift, List.map_cons, List.flatMap_map, List.map_flatMap]
  simp only [Place.marks_shift]
  rfl

theorem BlockPlace.marks_shift (i : Nat) (b : BlockPlace) :
    (b.shift i).marks = b.marks.map (Mark.shift i) := by
  rw [marks, marks, shift, List.map_cons, List.flatMap_map, List.map_flatMap]
  simp only [StatementPlace.marks_shift]
  rfl

theorem flatMap_along_cons {α : Type} {shift : Nat → α → α} {marks : α → List (Mark × Place)}
    (hshift : ∀ i a, marks (shift i a) = (marks a).map (Mark.shift i)) (f : Node → List α) (i : Nat)
    (n : Node) (ns : List Node) :
    (along shift f i (n :: ns)).flatMap marks =
      ((f n).flatMap marks).map (Mark.shift i) ++ (along shift f (i + 1) ns).flatMap marks := by
  rw [along_cons, List.flatMap_append, List.flatMap_map, List.map_flatMap]
  simp only [hshift]

/-- If two ways to take each of some nodes apart find all its marks, then the results for all of them
together do. -/
theorem perm_marksFrom {α β : Type} (enters : Form → Bool) {shift : Nat → α → α}
    {shift' : Nat → β → β} {marks : α → List (Mark × Place)} {marks' : β → List (Mark × Place)}
    (hshift : ∀ i a, marks (shift i a) = (marks a).map (Mark.shift i))
    (hshift' : ∀ i b, marks' (shift' i b) = (marks' b).map (Mark.shift i)) {f : Node → List α}
    {f' : Node → List β} {ns : List Node}
    (h : ∀ n ∈ ns, ((f n).flatMap marks ++ (f' n).flatMap marks').Perm (n.marks enters)) (i : Nat) :
    ((along shift f i ns).flatMap marks ++ (along shift' f' i ns).flatMap marks').Perm
      (Node.marksFrom enters i ns) := by
  induction ns generalizing i with
  | nil =>
    rw [Node.marksFrom, along_nil, along_nil]
    exact .nil
  | cons n ns ih =>
    rw [List.forall_mem_cons] at h
    rw [Node.marksFrom, flatMap_along_cons hshift, flatMap_along_cons hshift', List.append_assoc]
    -- what is found of `n` in the second way moves in front of what is found of `ns` in the first
    refine ((List.perm_append_comm_assoc _ _ _).append_left _).trans ?_
    rw [← List.append_assoc, ← List.map_append]
    exact (h.1.map _).append (ih h.2 (i + 1))

/-- In a proper tree, expressions outside of blocks and the layout of the blocks are all that is marked,
and for a statement or item so are the statement and the layout of the blocks inside it. -/
theorem Node.Proper.perm_marks {n : Node} (h : n.Proper) :
    (n.form ≠ .statement → (n.mentionPlaces.flatMap Place.marks ++
        n.layout.flatMap BlockPlace.marks).Perm (n.marks Form.isEntered)) ∧
      (n.form = .statement ∨ n.form = .item → (n.statementPlaces.flatMap StatementPlace.marks ++
        n.innerLayout.flatMap BlockPlace.marks).Perm (n.marks Form.isEntered)) := by
  induction h with
  | @value form extent children value proper parts leftmost ih =>
    have hchildren := perm_marksFrom Form.isEntered Place.marks_shift
      BlockPlace.marks_shift (fun n hn => (ih n hn).1 (parts n hn)) 0
    rw [← Node.mentionPlacesFrom_eq, ← Node.layoutFrom_eq] at hchildren
    constructor
    · intro _
      cases form with
      | block | statement | function => cases value
      | item | implementation | traitMembers | module =>
        rw [Node.mentionPlaces, Node.layout, Node.marks]
        exact .nil
      | literal kind =>
        rw [Node.mentionPlaces, Node.layout, Node.marks]
        exact .refl _
      | call | methodCall | binary | expansion =>
        rw [Node.mentionPlaces, Node.layout, Node.marks]
        · exact hchildren.cons _
        all_goals simp
      | _ =>
        rw [Node.mentionPlaces, Node.layout, Node.marks]
        · exact hchildren
        all_goals simp
    · rintro (rfl | rfl)
      · cases value
      · exact .refl _
  | @statement extent children proper parts ih =>
    have hchildren := perm_marksFrom Form.isEntered Place.marks_shift
      BlockPlace.marks_shift (fun n hn => (ih n hn).1 (parts n hn)) 0
    rw [← Node.mentionPlacesFrom_eq, ← Node.layoutFrom_eq] at hchildren
    refine ⟨fun hform => absurd rfl hform, fun _ => ?_⟩
    have hplaces : (Node.mk .statement extent children).statementPlaces =
        [⟨[], Node.mentionPlacesFrom 0 children⟩] := if_pos rfl
    rw [Node.marks, Node.innerLayout, hplaces, List.flatMap_singleton]
    exact hchildren.cons _
  | @block extent children proper pieces ih =>
    have hchildren := perm_marksFrom Form.isEntered StatementPlace.marks_shift
      BlockPlace.marks_shift (fun n hn => (ih n hn).2 (pieces n hn)) 0
    rw [← Node.innerFrom_eq] at hchildren
    refine ⟨fun _ => ?_, by simp [Node.form]⟩
    rw [Node.mentionPlaces, Node.layout, Node.marks]
    exact hchildren.cons _
  | function proper block =>
    refine ⟨fun _ => ?_, by simp [Node.form]⟩
    rw [Node.mentionPlaces, Node.layout, Node.marks]
    exact .nil

/-- The list holds what satisfies `P`, each once. -/
def Enumerates (ps : List Place) (P : Place → Prop) : Prop := ps.Nodup ∧ ∀ p, p ∈ ps ↔ P p

/-- The places of the nodes with a mark. -/
def Mark.places (mark : Mark) (marks : List (Mark × Place)) : List Place :=
  marks.filterMap fun entry => if entry.1 = mark then some entry.2 else none

section Enumerations

variable {enters : Form → Bool} {mark : Mark} {n : Node} {p : Place} {ps qs : List Place}
  {marks : List (Mark × Place)} {P : Place → Prop}

theorem Enumerates.of_perm (h : Enumerates ps P) (hperm : qs.Perm ps) : Enumerates qs P := by
  refine ⟨hperm.nodup_iff.2 h.1, ?_⟩
  intro p
  rw [hperm.mem_iff, h.2 p]

theorem Mark.mem_places : p ∈ mark.places marks ↔ (mark, p) ∈ marks := by
  simp [Mark.places, List.mem_filterMap]

theorem Mark.nodup_places (h : marks.Nodup) : (mark.places marks).Nodup := by
  apply h.filterMap
  rintro ⟨k, p⟩ ⟨k', p'⟩ q hq hq'
  obtain ⟨rfl, rfl⟩ : k = mark ∧ p = q := by simpa using hq
  obtain ⟨rfl, rfl⟩ : k' = k ∧ p' = p := by simpa using hq'
  rfl

theorem Node.enumerates_places : Enumerates (mark.places (n.marks enters))
    fun p => ∃ m, n.reach? enters p = some m ∧ m.form.mark? = some mark := by
  refine ⟨Mark.nodup_places (n.nodup_marks enters), ?_⟩
  intro p
  rw [Mark.mem_places, Node.mem_marks_iff]

@[simp] theorem Mark.places_nil : mark.places [] = [] := rfl

@[simp] theorem Mark.places_cons {entry : Mark × Place} : mark.places (entry :: marks) =
    if entry.1 = mark then entry.2 :: mark.places marks else mark.places marks := by
  rw [Mark.places, List.filterMap_cons]
  split <;> simp_all [Mark.places]

@[simp] theorem Mark.places_flatMap {α : Type} (f : α → List (Mark × Place)) (xs : List α) :
    mark.places (xs.flatMap f) = xs.flatMap fun x => mark.places (f x) := by
  rw [Mark.places, List.filterMap_flatMap]
  rfl

theorem BlockPlace.places_marks (b : BlockPlace) : mark.places b.marks = match mark with
    | .block => [b.place]
    | .statement => b.statements.map (·.place)
    | .expression => b.statements.flatMap (·.expressions) := by
  cases mark with
  | block | expression => simp [BlockPlace.marks, StatementPlace.marks, Place.marks]
  | statement =>
    have hnone : ∀ ps : List Place, (ps.flatMap fun _ => ([] : List Place)) = [] := by simp
    simp [BlockPlace.marks, StatementPlace.marks, Place.marks, hnone, List.map_eq_flatMap]

end Enumerations

/-! ## Innermost statements -/

/-- A statement is found at the place. -/
def IsStatementAt (tree : Place → Option Node) (p : Place) : Prop :=
  ∃ n, tree p = some n ∧ n.form = .statement

/-- Of the statements around the place `p`, the one at `s` is the innermost. -/
structure Innermost (tree : Place → Option Node) (s p : Place) : Prop where
  statement : IsStatementAt tree s
  encloses : s <+: p
  innermost : ∀ t, IsStatementAt tree t → t <+: p → t <+: s

/-- The statements are nodes of the block, and the innermost ones around their expressions. -/
def BlockPlace.IsNested (tree : Place → Option Node) (b : BlockPlace) : Prop :=
  ∀ s ∈ b.statements, (∃ i, s.place = b.place ++ [i]) ∧ ∀ p ∈ s.expressions, Innermost tree s.place p

section Innermost

variable {enters : Form → Bool} {n c : Node} {i : Nat} {s p : Place}

theorem isStatementAt_nil : IsStatementAt (n.reach? enters) [] ↔ n.form = .statement := by
  simp [IsStatementAt, Node.reach?_nil]

theorem isStatementAt_cons (henters : enters n.form = true) (hc : n.children[i]? = some c) :
    IsStatementAt (n.reach? enters) (i :: p) ↔ IsStatementAt (c.reach? enters) p := by
  rw [IsStatementAt, IsStatementAt, Node.reach?_cons henters hc]

theorem Innermost.shift (h : Innermost (c.reach? enters) s p) (henters : enters n.form = true)
    (hc : n.children[i]? = some c) : Innermost (n.reach? enters) (i :: s) (i :: p) where
  statement := (isStatementAt_cons henters hc).2 h.statement
  encloses := List.cons_prefix_cons.2 ⟨rfl, h.encloses⟩
  innermost := by
    intro t ht hle
    cases t with
    | nil => exact List.nil_prefix
    | cons j t =>
      obtain ⟨rfl, htp⟩ := List.cons_prefix_cons.1 hle
      exact List.cons_prefix_cons.2 ⟨rfl, h.innermost t ((isStatementAt_cons henters hc).1 ht) htp⟩

theorem BlockPlace.IsNested.shift {b : BlockPlace} (h : b.IsNested (c.reach? enters))
    (henters : enters n.form = true) (hc : n.children[i]? = some c) :
    (b.shift i).IsNested (n.reach? enters) := by
  intro s' hs'
  obtain ⟨s, hs, rfl⟩ := List.mem_map.1 hs'
  obtain ⟨⟨j, hj⟩, hinnermost⟩ := h s hs
  refine ⟨⟨j, by simp [StatementPlace.shift, BlockPlace.shift, hj]⟩, ?_⟩
  intro p' hp'
  obtain ⟨p, hp, rfl⟩ := List.mem_map.1 hp'
  exact (hinnermost p hp).shift henters hc

theorem Node.IsPart.child (h : n.IsPart) (hform : n.form ≠ .block) (hc : c ∈ n.children) : c.IsPart := by
  obtain ⟨hproper, hne⟩ := h
  cases hproper with
  | value _ proper parts => exact ⟨proper c hc, parts c hc⟩
  | statement => exact absurd rfl hne
  | block => exact absurd rfl hform
  | function proper block =>
    obtain rfl := List.mem_singleton.1 hc
    exact ⟨proper, by simp [block]⟩

theorem Node.mem_mentionPlacesFrom {ns : List Node} (h : p ∈ Node.mentionPlacesFrom 0 ns) :
    ∃ i c q, p = i :: q ∧ ns[i]? = some c ∧ q ∈ c.mentionPlaces := by
  rw [Node.mentionPlacesFrom_eq, mem_along] at h
  obtain ⟨i, c, q, hc, hq, rfl⟩ := h
  exact ⟨i, c, q, by rw [Nat.zero_add], hc, hq⟩

theorem Node.exists_of_mem_mentionPlaces_cons (h : i :: p ∈ n.mentionPlaces) :
    n.form ≠ .block ∧ ∃ c, n.children[i]? = some c ∧ p ∈ c.mentionPlaces := by
  cases n with
  | mk form extent children =>
    have hchildren : i :: p ∈ Node.mentionPlacesFrom 0 children →
        ∃ c, children[i]? = some c ∧ p ∈ c.mentionPlaces := by
      intro hmem
      obtain ⟨j, c, q, hplace, hc, hq⟩ := Node.mem_mentionPlacesFrom hmem
      obtain ⟨rfl, rfl⟩ := List.cons.inj hplace
      exact ⟨c, hc, hq⟩
    cases form with
    | block | item | function | implementation | traitMembers | module | literal =>
      simp [Node.mentionPlaces] at h
    | _ =>
      rw [Node.mentionPlaces] at h
      · exact ⟨by simp [Node.form], hchildren (by simpa [Form.mark?] using h)⟩
      all_goals simp

/-- On the way to an expression outside of blocks there is no statement. -/
theorem Node.IsPart.not_isStatementAt (h : n.IsPart) (hp : p ∈ n.mentionPlaces) {t : Place}
    (ht : t <+: p) : ¬ IsStatementAt (n.reach? enters) t := by
  induction p generalizing n t with
  | nil =>
    rw [List.prefix_nil.1 ht, isStatementAt_nil]
    exact h.form_ne
  | cons i p ih =>
    obtain ⟨hblock, c, hc, hpc⟩ := Node.exists_of_mem_mentionPlaces_cons hp
    -- only blocks have statements as children, and places of expressions do not lead through them
    have hpart := h.child hblock (List.mem_of_getElem? hc)
    cases t with
    | nil =>
      rw [isStatementAt_nil]
      exact h.form_ne
    | cons j t =>
      obtain ⟨rfl, htp⟩ := List.cons_prefix_cons.1 ht
      rintro ⟨m, hm, hform⟩
      obtain ⟨-, c', hc', hm⟩ := Node.exists_of_reach?_cons hm
      rw [hc, Option.some_inj] at hc'
      subst hc'
      exact ih hpart hpc htp ⟨m, hm, hform⟩

/-- A statement is the innermost one around the expressions that belong to it. -/
theorem innermost_of_mem {extent : Extent} {children : List Node}
    (h : ∀ c ∈ children, c.IsPart) (hp : p ∈ Node.mentionPlacesFrom 0 children) :
    Innermost ((Node.mk .statement extent children).reach? Form.isEntered) [] p where
  statement := isStatementAt_nil.2 rfl
  encloses := List.nil_prefix
  innermost := by
    intro t ht hle
    obtain ⟨i, c, q, rfl, hc, hq⟩ := Node.mem_mentionPlacesFrom hp
    cases t with
    | nil => exact List.nil_prefix
    | cons j t =>
      obtain ⟨rfl, htq⟩ := List.cons_prefix_cons.1 hle
      rw [isStatementAt_cons rfl hc] at ht
      exact absurd ht ((h c (List.mem_of_getElem? hc)).not_isStatementAt hq htq)

theorem isNested_of_mem_along {form : Form} {extent : Extent} {children : List Node}
    {f : Node → List BlockPlace} (henters : form.isEntered = true)
    (h : ∀ c ∈ children, ∀ b ∈ f c, b.IsNested (c.reach? Form.isEntered)) :
    ∀ b ∈ along BlockPlace.shift f 0 children,
      b.IsNested ((Node.mk form extent children).reach? Form.isEntered) := by
  intro b' hb'
  obtain ⟨j, c, b, hc, hb, rfl⟩ := mem_along.1 hb'
  rw [Nat.zero_add]
  exact (h c (List.mem_of_getElem? hc) b hb).shift henters hc

theorem isNested_block {extent : Extent} {children : List Node} (h : ∀ c ∈ children, c.Proper) :
    BlockPlace.IsNested ((Node.mk .block extent children).reach? Form.isEntered)
      ⟨[], along StatementPlace.shift Node.statementPlaces 0 children⟩ := by
  intro s' hs'
  obtain ⟨j, ⟨form, e, ns⟩, s, hc, hs, rfl⟩ := mem_along.1 hs'
  rw [Nat.zero_add]
  rw [Node.statementPlaces] at hs
  split at hs
  · next hform =>
    obtain rfl : form = .statement := hform
    obtain rfl := List.mem_singleton.1 hs
    refine ⟨⟨j, rfl⟩, ?_⟩
    intro p' hp'
    obtain ⟨p, hp, rfl⟩ := List.mem_map.1 hp'
    have hparts : ∀ c ∈ ns, c.IsPart := by
      cases h _ (List.mem_of_getElem? hc) with
      | value value => cases value
      | statement proper parts => exact fun c hc => ⟨proper c hc, parts c hc⟩
    exact (innermost_of_mem hparts hp).shift rfl hc
  · cases hs

/-- In a proper tree all statements stand in their blocks, and around their own expressions. -/
theorem Node.Proper.isNested (h : n.Proper) :
    (n.form ≠ .statement → ∀ b ∈ n.layout, b.IsNested (n.reach? Form.isEntered)) ∧
      ∀ b ∈ n.innerLayout, b.IsNested (n.reach? Form.isEntered) := by
  induction h with
  | @value form extent children value proper parts leftmost ih =>
    have hchildren : form.isEntered = true → ∀ b ∈ Node.layoutFrom 0 children,
        b.IsNested ((Node.mk form extent children).reach? Form.isEntered) := by
      intro henters
      rw [Node.layoutFrom_eq]
      exact isNested_of_mem_along henters fun c hc => (ih c hc).1 (parts c hc)
    cases form with
    | block | statement | function => cases value
    | item | implementation | traitMembers | module | literal => simp [Node.layout, Node.innerLayout]
    | _ =>
      rw [Node.layout, Node.innerLayout]
      · exact ⟨fun _ => hchildren rfl, by simp⟩
      all_goals simp
  | @statement extent children proper parts ih =>
    refine ⟨fun hform => absurd rfl hform, ?_⟩
    rw [Node.innerLayout, Node.layoutFrom_eq]
    exact isNested_of_mem_along rfl fun c hc => (ih c hc).1 (parts c hc)
  | @block extent children proper pieces ih =>
    rw [Node.layout, Node.innerLayout, Node.innerFrom_eq, List.forall_mem_cons]
    · exact ⟨fun _ => ⟨isNested_block proper, isNested_of_mem_along rfl fun c hc => (ih c hc).2⟩, by simp⟩
    · simp
  | function proper block => simp [Node.layout, Node.innerLayout]

end Innermost

/-! ## Bodies -/

/-- The layout of a proper block has all its blocks, statements and expressions, each once. -/
theorem Node.Proper.enumerates_layout {b : Node} (h : b.Proper) (hform : b.form = .block) (mark : Mark) :
    Enumerates (b.layout.flatMap fun r => mark.places r.marks)
      fun p => ∃ m, b.reach? Form.isEntered p = some m ∧ m.form.mark? = some mark := by
  have hperm := h.perm_marks.1 (by simp [hform])
  have hmentions : b.mentionPlaces = [] := by
    cases b with
    | mk form extent children =>
      obtain rfl : form = .block := hform
      rw [Node.mentionPlaces]
  rw [hmentions, List.flatMap_nil, List.nil_append] at hperm
  rw [← Mark.places_flatMap]
  exact Node.enumerates_places.of_perm (hperm.filterMap _)

end LintMend.Rust
