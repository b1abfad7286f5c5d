import LintMend.Proofs.CoveredTokens
import LintMend.Rust.File
import Mathlib

/-!
# What stands where in a syntax tree

A block holds statements and items, and statements stand nowhere else. The body of a function is a
block. The grammar gives only trees of this kind. Each rule is looked at once, for any grammar whose
goals give such trees, and the knot is tied by induction on the depth. What a rule makes of the nodes
that it reads follows its text; only the rules for statements, blocks and functions have something of
their own to say.
-/

namespace LintMend.Rust

/-! ## Proper trees -/

/-- The form is none of a statement, a block or a function. -/
@[grind] def Form.isValue : Form → Bool
  | .block | .statement | .function _ _ => false
  | _ => true

attribute [grind] Form.isChain

/-- Statements stand in blocks, beside items, and nowhere else; the body of a function is a block, and
the leftmost operand of a chain of operators is none. -/
inductive Node.Proper : Node → Prop
  | value {form : Form} {extent : Extent} {children : List Node} (value : form.isValue = true)
    (proper : ∀ n ∈ children, n.Proper) (parts : ∀ n ∈ children, n.form ≠ .statement)
    (leftmost : form.isChain = true → ∀ n ∈ children.head?, n.form.isValue = true) :
    Proper (.mk form extent children)
  | statement {extent : Extent} {children : List Node} (proper : ∀ n ∈ children, n.Proper)
    (parts : ∀ n ∈ children, n.form ≠ .statement) : Proper (.mk .statement extent children)
  | block {extent : Extent} {children : List Node} (proper : ∀ n ∈ children, n.Proper)
    (pieces : ∀ n ∈ children, n.form = .statement ∨ n.form = .item) :
    Proper (.mk .block extent children)
  | function {name : String} {derived : Bool} {extent : Extent} {body : Node} (proper : body.Proper)
    (block : body.form = .block) : Proper (.mk (.function name derived) extent [body])

/-- A proper tree that is no statement. -/
structure Node.IsPart (n : Node) : Prop where
  proper : n.Proper
  form_ne : n.form ≠ .statement

/-- A proper tree that is no statement, block or function. -/
structure Node.IsValue (n : Node) : Prop where
  proper : n.Proper
  value : n.form.isValue = true

/-- A statement or an item, as they stand in a block. -/
structure Node.IsPiece (n : Node) : Prop where
  proper : n.Proper
  form_eq : n.form = .statement ∨ n.form = .item

/-- The nodes are proper and no statements. -/
def AllParts (ns : List Node) : Prop := ∀ n ∈ ns, n.IsPart

/-- The nodes are proper and none of them is a statement, a block or a function. -/
def AllValues (ns : List Node) : Prop := ∀ n ∈ ns, n.IsValue

section Parts

variable {n left : Node} {ns ms : List Node} {form : Form}

theorem Node.Proper.children (h : n.Proper) : ∀ c ∈ n.children, c.Proper := by
  cases h with
  | value _ proper => exact proper
  | statement proper => exact proper
  | block proper => exact proper
  | function proper => exact List.forall_mem_singleton.2 proper

@[simp, grind .] theorem allParts_nil : AllParts [] := by simp [AllParts]

@[simp, grind =] theorem allParts_cons : AllParts (n :: ns) ↔ n.IsPart ∧ AllParts ns :=
  List.forall_mem_cons

@[simp, grind =] theorem allParts_append : AllParts (ns ++ ms) ↔ AllParts ns ∧ AllParts ms :=
  List.forall_mem_append

@[simp, grind =] theorem allParts_reverse : AllParts ns.reverse ↔ AllParts ns := by
  simp [AllParts]

@[grind ←] theorem allParts_flatten {nss : List (List Node)} (h : ∀ ns ∈ nss, AllParts ns) :
    AllParts nss.flatten := by
  intro n hn
  obtain ⟨ns, hns, hn⟩ := List.mem_flatten.1 hn
  exact h ns hns n hn

@[grind ←] theorem AllParts.dropLast (h : AllParts ns) : AllParts ns.dropLast :=
  fun n hn => h n (List.mem_of_mem_dropLast hn)

@[grind ←] theorem AllParts.getLast? (h : AllParts ns) : AllParts ns.getLast?.toList :=
  fun n hn => h n (List.mem_of_getLast? (Option.mem_toList.1 hn))

@[grind →] theorem Node.IsValue.isPart (h : n.IsValue) : n.IsPart := by
  refine ⟨h.proper, fun hform => ?_⟩
  have hvalue := h.value
  rw [hform] at hvalue
  cases hvalue

@[grind →] theorem Node.IsValue.allParts (h : n.IsValue) : AllParts n.children := by
  obtain ⟨hproper, hvalue⟩ := h
  cases hproper with
  | value _ proper parts => exact fun c hc => ⟨proper c hc, parts c hc⟩
  | statement | block | function => cases hvalue

theorem allValues_cons : AllValues (n :: ns) ↔ n.IsValue ∧ AllValues ns := List.forall_mem_cons

@[grind →] theorem AllValues.allParts (h : AllValues ns) : AllParts ns := fun n hn => (h n hn).isPart

theorem Node.IsValue.leftmost {e : Extent} (h : (Node.mk form e (left :: ns)).IsValue)
    (hform : form.isChain = true) : left.IsValue := by
  obtain ⟨hproper, hvalue⟩ := h
  cases hproper with
  | value _ proper _ leftmost =>
    exact ⟨proper left List.mem_cons_self, leftmost hform left rfl⟩
  | statement | block | function => cases hvalue

/-- A node of a form that says nothing more about the nodes below it. -/
@[grind ←] theorem isValue_mk (e : Extent) (hvalue : form.isValue = true) (hchain : form.isChain = false)
    (h : AllParts ns) : (Node.mk form e ns).IsValue := by
  refine ⟨.value hvalue (fun c hc => (h c hc).proper) (fun c hc => (h c hc).form_ne) ?_, hvalue⟩
  rw [hchain]
  intro hfalse
  cases hfalse

@[grind ←] theorem isPart_mk (e : Extent) (hvalue : form.isValue = true) (hchain : form.isChain = false)
    (h : AllParts ns) : (Node.mk form e ns).IsPart := (isValue_mk e hvalue hchain h).isPart

/-- A chain of operators. -/
@[grind ←] theorem isValue_chain (e : Extent) (hchain : form.isChain = true) (hleft : left.IsValue)
    (h : AllParts ns) : (Node.mk form e (left :: ns)).IsValue := by
  have hall : AllParts (left :: ns) := allParts_cons.2 ⟨hleft.isPart, h⟩
  have hvalue : form.isValue = true := by
    cases form with
    | binary | assign | cast => rfl
    | _ => cases hchain
  refine ⟨.value hvalue (fun c hc => (hall c hc).proper) (fun c hc => (hall c hc).form_ne) ?_, hvalue⟩
  rintro - _ ⟨⟩
  exact hleft.value

theorem isPiece_statement (e : Extent) (h : AllParts ns) : (Node.mk .statement e ns).IsPiece :=
  ⟨.statement (fun c hc => (h c hc).proper) fun c hc => (h c hc).form_ne, .inl rfl⟩

theorem isPiece_item (e : Extent) : (Node.mk .item e []).IsPiece :=
  ⟨(isValue_mk e rfl rfl allParts_nil).proper, .inr rfl⟩

theorem isPart_block (e : Extent) (h : ∀ n ∈ ns, n.IsPiece) : (Node.mk .block e ns).IsPart where
  proper := .block (fun c hc => (h c hc).proper) fun c hc => (h c hc).form_eq
  form_ne := by simp [Node.form]

theorem Node.IsValue.mk_children (h : n.IsValue) (e : Extent) :
    (Node.mk n.form e n.children).IsValue := by
  obtain ⟨hproper, hvalue⟩ := h
  cases hproper with
  | value _ proper parts leftmost => exact ⟨.value hvalue proper parts leftmost, hvalue⟩
  | statement | block | function => cases hvalue

theorem Node.IsValue.startingAt (h : n.IsValue) (start : Position) : (n.startingAt start).IsValue :=
  h.mk_children _

theorem Node.IsValue.withAttributes (h : n.IsValue) (hns : AllValues ns) :
    (n.withAttributes ns).IsValue := by
  cases ns with
  | nil => exact h
  | cons first rest =>
    have hparts := allParts_append.2 ⟨(allValues_cons.1 hns).2.allParts, h.allParts⟩
    cases hchain : n.form.isChain with
    | true => exact isValue_chain _ hchain (allValues_cons.1 hns).1 hparts
    | false => exact isValue_mk _ h.value hchain (allParts_cons.2 ⟨(allValues_cons.1 hns).1.isPart, hparts⟩)

/-- Attributes in front of a chain of operators stay with its leftmost operand. -/
theorem Node.IsValue.attributeLeftmost (h : n.IsValue) (hns : AllValues ns) :
    (n.attributeLeftmost ns).IsValue := by
  have hrest : ∀ {left : Node} {rest : List Node} {form : Form} {e : Extent},
      (Node.mk form e (left :: rest)).IsValue → AllParts rest :=
    fun h => (allParts_cons.1 h.allParts).2
  induction n using Node.attributeLeftmost.induct ns with
  | case1 e left rest ih => exact isValue_chain _ rfl (ih (h.leftmost rfl)) (hrest h)
  | case2 operator e left rest ih => exact isValue_chain _ rfl (ih (h.leftmost rfl)) (hrest h)
  | case3 e left rest ih => exact isValue_chain _ rfl (ih (h.leftmost rfl)) (hrest h)
  | case4 n hassign hbinary hcast =>
    rw [Node.attributeLeftmost.eq_4 ns n hassign hbinary hcast]
    exact h.withAttributes hns

end Parts

/-! ## Readers -/

open Std.Do

set_option mvcgen.warning false

namespace Reader

variable {α σ : Type} {r : Reader α} {p : α → Prop}

/-- What the reader gives, if anything, satisfies the condition. -/
abbrev Gives (r : Reader α) (p : α → Prop) : Prop := ⦃⌜True⌝⦄ r ⦃⇓? a => ⌜p a⌝⦄

theorem gives_iff : Gives r p ↔ ∀ c a c', r c = some (a, c') → p a := by
  have hrun : ∀ c, (wp⟦r⟧ (PostCond.mayThrow fun a => ⌜p a⌝) c).down ↔
      ∀ a c', r c = some (a, c') → p a := by
    intro c
    change (wp⟦r c⟧ (fun found => ⌜p found.1⌝, ExceptConds.true)).down ↔ _
    cases r c with
    | none =>
      simp only [reduceCtorEq, IsEmpty.forall_iff, implies_true, iff_true]
      trivial
    | some found =>
      constructor
      · rintro h a c' ⟨⟩
        exact h
      · intro h
        exact h found.1 found.2 rfl
  constructor
  · intro h c
    exact (hrun c).1 (h c trivial)
  · intro h c _
    exact (hrun c).2 (h c)

@[spec low] theorem gives_true (r : Reader α) : Gives r fun _ => True := by
  rw [gives_iff]
  exact fun _ _ _ _ => trivial

@[spec] theorem gives_failure : Gives (failure : Reader α) fun _ => False := by
  rw [gives_iff]
  intro c a c' h
  cases h

theorem Gives.bind {β : Type} {f : α → Reader β} {q : β → Prop} (h : Gives r p)
    (hf : ∀ a, p a → Gives (f a) q) : Gives (r >>= f) q := by
  simp only [gives_iff] at h hf ⊢
  intro c b c'' hrun
  obtain ⟨a, c', hr, hrest⟩ := exists_of_bind hrun
  exact hf a (h c a c' hr) c' b c'' hrest

theorem Gives.pure {a : α} (h : p a) : Gives (pure a) p := by
  rw [gives_iff]
  rintro c _ c' ⟨⟩
  exact h

theorem Gives.ite {c : Prop} [Decidable c] {x y : Reader α} (hx : Gives x p) (hy : Gives y p) :
    Gives (if c then x else y) p := by
  split
  · exact hx
  · exact hy

theorem Gives.mono {q : α → Prop} (h : Gives r p) (hpq : ∀ a, p a → q a) : Gives r q := by
  rw [gives_iff] at h ⊢
  exact fun c a c' hr => hpq a (h c a c' hr)

theorem gives_inside (p : α → Prop) {d : Delimiter} {r : Reader α} (h : Gives r p) :
    Gives (inside d r) p := by
  rw [gives_iff] at h ⊢
  intro c a c' hr
  unfold inside at hr
  split at hr
  · split at hr
    · split at hr
      · next hinner =>
        cases hr
        exact h _ _ _ hinner
      · cases hr
    · cases hr
  · cases hr

theorem gives_attempt (p : α → Prop) {r : Reader α} (h : Gives r p) :
    Gives (attempt r) fun o => ∀ a, o = some a → p a := by
  rw [gives_iff] at h ⊢
  intro c o c' hrun a ho
  subst ho
  unfold attempt at hrun
  split at hrun
  · next hr =>
    cases hrun
    exact h _ _ _ hr
  · cases hrun

theorem gives_loop (p : σ → Prop) {s : σ} {step : σ → Reader (σ × Bool)} (hs : p s)
    (h : ∀ s, p s → Gives (step s) fun s' => p s'.1) (fuel : Nat) : Gives (loop step fuel s) p := by
  induction fuel generalizing s with
  | zero => exact gives_failure.mono fun _ hfalse => hfalse.elim
  | succ fuel ih =>
    refine (h s hs).bind fun s' hs' => ?_
    dsimp only
    split
    · exact ih hs'
    · exact .pure hs'

theorem gives_repeated (p : σ → Prop) {s : σ} {step : σ → Reader (σ × Bool)} (hs : p s)
    (h : ∀ s, p s → Gives (step s) fun s' => p s'.1) : Gives (repeated s step) p :=
  (gives_true _).bind fun _ _ => gives_loop p hs h _

theorem gives_until (p : α → Prop) {r : Reader α} {stop : Ahead} (h : Gives r p) :
    Gives (until_ stop r) fun as => ∀ a ∈ as, p a := by
  have hloop := @gives_repeated _ fun found : List α => ∀ a ∈ found, p a
  unfold until_
  mvcgen -trivial [hloop, h]
  all_goals grind -ring -linarith -lia

theorem gives_separated (p : α → Prop) {r : Reader α} {separator : String} {stop : Ahead}
    (h : Gives r p) : Gives (separated separator stop r) fun as => ∀ a ∈ as, p a := by
  have hloop := @gives_repeated _ fun found : List α => ∀ a ∈ found, p a
  unfold separated
  mvcgen -trivial [hloop, h]
  all_goals grind -ring -linarith -lia

/-! ## Readers of nodes -/

@[spec] theorem gives_insideNodes {d : Delimiter} {r : Reader (List Node)} (h : Gives r AllParts) :
    Gives (inside d r) AllParts := gives_inside AllParts h

@[spec] theorem gives_untilNodes {r : Reader Node} {stop : Ahead} (h : Gives r Node.IsPart) :
    Gives (until_ stop r) AllParts := gives_until Node.IsPart h

@[spec] theorem gives_commaNodes {r : Reader Node} (h : Gives r Node.IsPart) :
    Gives (commaList r) AllParts := gives_separated Node.IsPart h

@[spec] theorem gives_untilLists {r : Reader (List Node)} {stop : Ahead} (h : Gives r AllParts) :
    Gives (until_ stop r) fun nss => AllParts nss.flatten :=
  (gives_until AllParts h).mono fun _ => allParts_flatten

@[spec] theorem gives_separatedLists {r : Reader (List Node)} {separator : String} {stop : Ahead}
    (h : Gives r AllParts) : Gives (separated separator stop r) fun nss => AllParts nss.flatten :=
  (gives_separated AllParts h).mono fun _ => allParts_flatten

@[spec] theorem gives_repeatedNodes {ns : List Node} {step : List Node → Reader (List Node × Bool)}
    (hns : AllParts ns) (h : ∀ ns, AllParts ns → Gives (step ns) fun found => AllParts found.1) :
    Gives (repeated ns step) AllParts := gives_repeated AllParts hns h

@[spec] theorem gives_repeatedLists {nss : List (List Node)}
    {step : List (List Node) → Reader (List (List Node) × Bool)} (hnss : ∀ ns ∈ nss, AllParts ns)
    (h : ∀ nss, (∀ ns ∈ nss, AllParts ns) → Gives (step nss) fun found => ∀ ns ∈ found.1, AllParts ns) :
    Gives (repeated nss step) fun nss => ∀ ns ∈ nss, AllParts ns := gives_repeated _ hnss h

end Reader

/-! ## The grammar -/

/-- The goals of the grammar give proper trees. -/
class Grammar.Proper (g : Grammar) : Prop where
  expression (structs : Bool) : Reader.Gives (g (.expression structs)) Node.IsValue
  operand (structs : Bool) : Reader.Gives (g (.operand structs)) Node.IsValue
  operators {left : Node} (structs : Bool) (base : Nat) (h : left.IsValue) :
    Reader.Gives (g (.operators left structs base)) Node.IsValue
  statementExpression : Reader.Gives (g .statementExpression) Node.IsValue
  block : Reader.Gives (g .block) Node.IsPart
  attributedBlock : Reader.Gives (g .attributedBlock) fun n =>
    n.IsValue ∧ ∃ b, n.children.getLast? = some b ∧ b.form = .block
  type (plus : Bool) : Reader.Gives (g (.type plus)) Node.IsValue
  arguments : Reader.Gives (g .arguments) Node.IsValue
  pattern : Reader.Gives (g .pattern) Node.IsValue
  item : Reader.Gives (g .item) Node.IsPart

attribute [spec] Grammar.Proper.expression Grammar.Proper.operand Grammar.Proper.operators
  Grammar.Proper.statementExpression Grammar.Proper.block Grammar.Proper.attributedBlock
  Grammar.Proper.type Grammar.Proper.arguments Grammar.Proper.pattern Grammar.Proper.item

namespace Reader

variable {g : Grammar} [g.Proper]

/-! ## Literals, attributes and syntactic extensions -/

@[spec] theorem gives_literal : Gives literal Node.IsValue := by
  unfold literal
  mvcgen -trivial
  all_goals grind -ring -linarith -lia

theorem allParts_expansionArguments (tokens : List Token) :
    AllParts (expansionArguments g tokens) := by
  unfold expansionArguments
  split
  · next nodes last braced hread =>
    have hexpression : Gives (g (.expression true)) Node.IsPart :=
      (Grammar.Proper.expression true).mono fun _ h => h.isPart
    exact gives_iff.1 (gives_commaNodes hexpression) _ _ _ hread
  · exact allParts_nil

@[spec] theorem gives_expansion (start : Position) (name : String) :
    Gives (expansion g start name) fun found => found.1.IsValue := by
  unfold expansion
  mvcgen -trivial
  all_goals grind -ring -linarith -lia [allParts_expansionArguments]

@[spec] theorem gives_attributeBody : Gives (attributeBody g) fun found => AllParts found.2 := by
  have hliteral : Gives (attempt (literal >>= fun value => require Ahead.none >>= fun _ => pure value))
      fun o => ∀ n, o = some n → n.IsValue := by
    apply gives_attempt
    exact gives_literal.bind fun n hn => (gives_true _).bind fun _ _ => .pure hn
  unfold attributeBody
  mvcgen -trivial [hliteral]
  all_goals grind -ring -linarith -lia

@[spec] theorem gives_outerAttribute : Gives (outerAttribute g) Node.IsValue := by
  have hbody := @gives_inside _ fun found : String × List Node => AllParts found.2
  unfold outerAttribute
  mvcgen -trivial [hbody]
  all_goals grind -ring -linarith -lia

@[spec] theorem gives_innerAttribute : Gives (innerAttribute g) Node.IsValue := by
  have hbody := @gives_inside _ fun found : String × List Node => AllParts found.2
  unfold innerAttribute
  mvcgen -trivial [hbody]
  all_goals grind -ring -linarith -lia

@[spec] theorem gives_outerAttributes : Gives (outerAttributes g) AllValues :=
  gives_until Node.IsValue gives_outerAttribute

@[spec] theorem gives_innerAttributes : Gives (innerAttributes g) AllParts :=
  gives_untilNodes (gives_innerAttribute.mono fun _ h => h.isPart)

/-! ## Paths and bounds -/

@[spec] theorem gives_quantified : Gives (quantified g) AllParts := by
  unfold quantified
  mvcgen -trivial
  all_goals grind -ring -linarith -lia

@[spec] theorem gives_optionalQuantified :
    Gives (optionalQuantified g) fun o => AllParts (o.getD []) := by
  unfold optionalQuantified
  mvcgen -trivial
  all_goals grind -ring -linarith -lia

@[spec] theorem gives_arrowType (plus : Bool) : Gives (arrowType g plus) AllParts := by
  unfold arrowType
  mvcgen -trivial
  all_goals grind -ring -linarith -lia

@[spec] theorem gives_parenthesizedArguments : Gives (parenthesizedArguments g) AllParts := by
  unfold parenthesizedArguments
  mvcgen -trivial
  all_goals grind -ring -linarith -lia

@[spec] theorem gives_constantArgument : Gives (constantArgument g) Node.IsValue := by
  unfold constantArgument
  mvcgen -trivial
  all_goals grind -ring -linarith -lia

@[spec] theorem gives_withCallArguments (p : Path) (h : AllParts p.children) :
    Gives (withCallArguments g p) fun p => AllParts p.children := by
  unfold withCallArguments
  mvcgen -trivial
  all_goals grind -ring -linarith -lia

@[spec] theorem gives_pathSegment (expressionStyle : Bool) :
    Gives (pathSegment g expressionStyle) fun segment => AllParts (segment.2.getD []) := by
  unfold pathSegment
  mvcgen -trivial
  all_goals grind -ring -linarith -lia

@[spec] theorem gives_pathSegments (expressionStyle : Bool) (goesOn : Ahead) :
    Gives (pathSegments g expressionStyle goesOn) fun segments =>
      ∀ segment ∈ segments, AllParts (segment.2.getD []) := by
  have hsegments := @gives_repeated _ fun segments : List (String × Option (List Node)) =>
    ∀ segment ∈ segments, AllParts (segment.2.getD [])
  unfold pathSegments
  mvcgen -trivial [hsegments]
  all_goals grind -ring -linarith -lia

theorem allParts_pathOf {segments : List (String × Option (List Node))} (rooted qualified : Bool)
    (h : ∀ segment ∈ segments, AllParts (segment.2.getD [])) :
    AllParts (pathOf rooted qualified segments).children := by
  intro n hn
  obtain ⟨segment, hsegment, hn⟩ := List.mem_flatMap.1 hn
  exact h segment hsegment n hn

@[spec] theorem gives_simplePath (expressionStyle : Bool) :
    Gives (simplePath g expressionStyle) fun p => AllParts p.children := by
  unfold simplePath
  mvcgen -trivial
  all_goals grind -ring -linarith -lia [allParts_pathOf]

@[spec] theorem gives_path (expressionStyle : Bool) :
    Gives (path g expressionStyle) fun p => AllParts p.children := by
  unfold path
  mvcgen -trivial
  all_goals grind -ring -linarith -lia [allParts_pathOf]

@[spec] theorem gives_traitBound (const : Bool) : Gives (traitBound g const) AllParts := by
  unfold traitBound
  mvcgen -trivial
  all_goals grind -ring -linarith -lia

@[spec] theorem gives_bound (capture const : Bool) :
    Gives (bound g capture const) fun found => AllParts found.2 := by
  unfold bound
  mvcgen -trivial
  all_goals grind -ring -linarith -lia

@[spec] theorem gives_boundsUntil (const : Bool) (stop : Ahead) :
    Gives (boundsUntil g const stop) AllParts := by
  unfold boundsUntil
  mvcgen -trivial
  all_goals grind -ring -linarith -lia

@[spec] theorem gives_boundList (plus capture const : Bool) :
    Gives (boundList g plus capture const) fun found => AllParts found.2 := by
  have hloop := @gives_repeated _ fun found : Bool × List Node => AllParts found.2
  unfold boundList
  mvcgen -trivial [hloop]
  all_goals grind -ring -linarith -lia

@[spec] theorem gives_genericArgument : Gives (genericArgument g) AllParts := by
  unfold genericArgument
  mvcgen -trivial
  all_goals grind -ring -linarith -lia

theorem gives_argumentsRule : Gives (argumentsRule g) Node.IsValue := by
  unfold argumentsRule
  mvcgen -trivial
  all_goals grind -ring -linarith -lia

/-! ## Types -/

@[spec] theorem gives_functionTypeParameter (first : Bool) :
    Gives (functionTypeParameter g first) AllParts := by
  unfold functionTypeParameter
  mvcgen -trivial
  all_goals grind -ring -linarith -lia

@[spec] theorem gives_functionTypeParameters : Gives (functionTypeParameters g) AllParts := by
  have hloop := @gives_repeated _ fun found : List (List Node) × Bool => ∀ ns ∈ found.1, AllParts ns
  unfold functionTypeParameters
  mvcgen -trivial [hloop]
  all_goals grind -ring -linarith -lia

@[spec] theorem gives_functionType : Gives (functionType g) AllParts := by
  unfold functionType
  mvcgen -trivial
  all_goals grind -ring -linarith -lia

@[spec] theorem gives_moreBounds : Gives (moreBounds g) AllParts := by
  unfold moreBounds
  mvcgen -trivial
  all_goals grind -ring -linarith -lia

@[spec] theorem gives_parenthesizedType (plus : Bool) :
    Gives (parenthesizedType g plus) Node.IsValue := by
  have hinside := @gives_inside _ fun found : Form × List Node × Bool => AllParts found.2.1
  unfold parenthesizedType
  mvcgen -trivial [hinside]
  all_goals grind -ring -linarith -lia

@[spec] theorem gives_pathType (quantifiers : Option (List Node)) (plus : Bool)
    (h : AllParts (quantifiers.getD [])) : Gives (pathType g quantifiers plus) Node.IsValue := by
  have hloop := @gives_repeated _ fun found : List Node × Bool => AllParts found.1
  unfold pathType
  mvcgen -trivial [hloop]
  all_goals grind -ring -linarith -lia

theorem gives_typeRule (plus : Bool) : Gives (typeRule g plus) Node.IsValue := by
  unfold typeRule
  refine (gives_true here).bind fun start _ => ?_
  refine gives_optionalQuantified.bind fun quantifiers hquantifiers => ?_
  extract_lets other pointer rest
  have hother : ∀ children, AllParts children → Gives (other children) Node.IsValue :=
    fun _ h => (gives_true _).bind fun e _ => .pure (isValue_mk e rfl rfl h)
  have hpointer : ∀ u, Gives (pointer u) Node.IsValue := fun _ =>
    (Grammar.Proper.type false).bind fun type h => hother _ (allParts_cons.2 ⟨h.isPart, allParts_nil⟩)
  have hrest : ∀ u, Gives (rest u) Node.IsValue := by
    clear_value other pointer
    intro u
    mvcgen -trivial [rest, hother, hpointer]
    all_goals grind -ring -linarith -lia [Node.IsValue.startingAt]
  exact .ite ((gives_true _).bind fun _ _ => hrest ()) (hrest ())

/-! ## Patterns -/

@[spec] theorem gives_alternatives : Gives (alternatives g) Node.IsValue := by
  unfold alternatives
  mvcgen -trivial
  all_goals grind -ring -linarith -lia

@[spec] theorem gives_rangeBound :
    Gives (rangeBound g) fun o => ∀ n, o = some n → n.IsValue := by
  unfold rangeBound
  mvcgen -trivial
  all_goals grind -ring -linarith -lia

@[spec] theorem gives_rangePattern (start : Position) (lower : List Node) (h : AllParts lower) :
    Gives (rangePattern g start lower) Node.IsValue := by
  unfold rangePattern
  mvcgen -trivial
  all_goals grind -ring -linarith -lia

@[spec] theorem gives_fieldPattern : Gives (fieldPattern g) AllParts := by
  unfold fieldPattern
  mvcgen -trivial
  all_goals grind -ring -linarith -lia

@[spec] theorem gives_fieldPatterns : Gives (fieldPatterns g) AllParts := by
  unfold fieldPatterns
  mvcgen -trivial
  all_goals grind -ring -linarith -lia

@[spec] theorem gives_pathPattern : Gives (pathPattern g) Node.IsValue := by
  unfold pathPattern
  mvcgen -trivial
  all_goals grind -ring -linarith -lia

theorem gives_patternRule : Gives (patternRule g) Node.IsValue := by
  unfold patternRule
  mvcgen -trivial
  all_goals grind -ring -linarith -lia

/-! ## Expressions -/

@[spec] theorem gives_rightOperand (structs : Bool) (strength : Nat) :
    Gives (rightOperand g structs strength) Node.IsValue := by
  have hloop := @gives_repeated _ Node.IsValue
  unfold rightOperand
  mvcgen -trivial [hloop]
  all_goals grind -ring -linarith -lia

@[spec] theorem gives_rangeRest (structs : Bool) : Gives (rangeRest g structs) AllParts := by
  unfold rangeRest
  mvcgen -trivial
  all_goals grind -ring -linarith -lia

@[spec] theorem gives_operatorStep (structs : Bool) (base : Nat) (left : Node) (h : left.IsValue) :
    Gives (operatorStep g structs base left) fun found => found.1.IsValue := by
  unfold operatorStep
  mvcgen -trivial
  all_goals grind -ring -linarith -lia

theorem gives_operatorsRule (left : Node) (structs : Bool) (base : Nat) (h : left.IsValue) :
    Gives (operatorsRule g left structs base) Node.IsValue :=
  gives_repeated Node.IsValue h fun left h => gives_operatorStep structs base left h

theorem gives_expressionRule (structs : Bool) : Gives (expressionRule g structs) Node.IsValue := by
  unfold expressionRule
  mvcgen -trivial
  all_goals grind -ring -linarith -lia

@[spec] theorem gives_callArguments : Gives (callArguments g) AllParts := by
  unfold callArguments
  mvcgen -trivial
  all_goals grind -ring -linarith -lia

@[spec] theorem gives_afterPoint (e : Node) (h : e.IsValue) :
    Gives (afterPoint g e) Node.IsValue := by
  unfold afterPoint
  extract_lets start field rest
  have hfield : Gives field Node.IsValue := (gives_true _).bind fun x _ => .pure
    (isValue_mk x rfl rfl (allParts_cons.2 ⟨h.isPart, allParts_nil⟩))
  have hrest : ∀ more, Gives (rest more) Node.IsValue := by
    clear_value field
    intro more
    mvcgen -trivial [rest, hfield]
    all_goals grind -ring -linarith -lia
  clear_value rest
  mvcgen -trivial [hrest]

@[spec] theorem gives_trailerStep (e : Node) (h : e.IsValue) :
    Gives (trailerStep g e) fun found => found.1.IsValue := by
  have hindex := @gives_inside _ Node.IsValue
  unfold trailerStep
  mvcgen -trivial [hindex]
  all_goals grind -ring -linarith -lia

@[spec] theorem gives_trailers (e : Node) (h : e.IsValue) : Gives (trailers g e) Node.IsValue :=
  gives_repeated Node.IsValue h fun e h => gives_trailerStep e h

@[spec] theorem gives_withBlock (form : Form) (start : Position) (children : List Node)
    (hvalue : form.isValue = true) (hchain : form.isChain = false) (h : AllParts children) :
    Gives (withBlock g form start children) Node.IsValue := by
  unfold withBlock
  mvcgen -trivial
  all_goals grind -ring -linarith -lia

@[spec] theorem gives_conditional : Gives (conditional g) Node.IsValue := by
  unfold conditional
  mvcgen -trivial
  all_goals grind -ring -linarith -lia

@[spec] theorem gives_matchArm : Gives (matchArm g) AllParts := by
  unfold matchArm
  mvcgen -trivial
  all_goals grind -ring -linarith -lia

@[spec] theorem gives_matchExpression : Gives (matchExpression g) Node.IsValue := by
  have harms := @gives_inside _ fun found : List Node × List (List Node) =>
    AllParts found.1 ∧ AllParts found.2.flatten
  unfold matchExpression
  mvcgen -trivial [harms]
  all_goals grind -ring -linarith -lia

@[spec] theorem gives_forLoop : Gives (forLoop g) Node.IsValue := by
  unfold forLoop
  mvcgen -trivial
  all_goals grind -ring -linarith -lia

@[spec] theorem gives_whileLoop : Gives (whileLoop g) Node.IsValue := by
  unfold whileLoop
  mvcgen -trivial
  all_goals grind -ring -linarith -lia

@[spec] theorem gives_keywordBlock (keyword : String) : Gives (keywordBlock g keyword) Node.IsValue := by
  unfold keywordBlock
  mvcgen -trivial
  all_goals grind -ring -linarith -lia

@[spec] theorem gives_blockExpression : Gives (blockExpression g) Node.IsValue := by
  unfold blockExpression
  mvcgen -trivial
  all_goals grind -ring -linarith -lia

@[spec] theorem gives_tryBlock : Gives (tryBlock g) Node.IsValue := by
  unfold tryBlock
  mvcgen -trivial
  all_goals grind -ring -linarith -lia

@[spec] theorem gives_labelled : Gives (labelled g) Node.IsValue := by
  unfold labelled
  mvcgen -trivial
  all_goals grind -ring -linarith -lia [Node.IsValue.startingAt]

@[spec] theorem gives_closureParameter : Gives (closureParameter g) AllParts := by
  unfold closureParameter
  mvcgen -trivial
  all_goals grind -ring -linarith -lia

@[spec] theorem gives_closure (structs : Bool) : Gives (closure g structs) Node.IsValue := by
  unfold closure
  mvcgen -trivial
  all_goals grind -ring -linarith -lia

@[spec] theorem gives_fieldValue : Gives (fieldValue g) AllParts := by
  unfold fieldValue
  mvcgen -trivial
  all_goals grind -ring -linarith -lia

@[spec] theorem gives_structFields : Gives (structFields g) AllParts := by
  unfold structFields
  mvcgen -trivial
  all_goals grind -ring -linarith -lia

@[spec] theorem gives_pathExpression (structs : Bool) :
    Gives (pathExpression g structs) Node.IsValue := by
  unfold pathExpression
  mvcgen -trivial
  all_goals grind -ring -linarith -lia

@[spec] theorem gives_arrayElements : Gives (arrayElements g) AllParts := by
  unfold arrayElements
  mvcgen -trivial
  all_goals grind -ring -linarith -lia

@[spec] theorem gives_breakExpression (structs : Bool) :
    Gives (breakExpression g structs) Node.IsValue := by
  unfold breakExpression
  mvcgen -trivial
  all_goals grind -ring -linarith -lia

@[spec] theorem gives_keywordValue (keyword : String) (structs : Bool) :
    Gives (keywordValue g keyword structs) Node.IsValue := by
  unfold keywordValue
  mvcgen -trivial
  all_goals grind -ring -linarith -lia

@[spec] theorem gives_atom (structs : Bool) : Gives (atom g structs) Node.IsValue := by
  unfold atom
  mvcgen -trivial
  all_goals grind -ring -linarith -lia

theorem gives_operandRule (structs : Bool) : Gives (operandRule g structs) Node.IsValue := by
  unfold operandRule
  mvcgen -trivial
  all_goals grind -ring -linarith -lia [Node.IsValue.withAttributes]

theorem gives_statementExpressionRule : Gives (statementExpressionRule g) Node.IsValue := by
  unfold statementExpressionRule
  refine gives_outerAttributes.bind fun attributes hattributes => (gives_true _).bind fun c _ => ?_
  extract_lets tokens block?
  have hsome : ∀ {r : Reader Node}, Gives r Node.IsValue → ∀ r' ∈ some r, Gives r' Node.IsValue := by
    rintro r hr _ ⟨⟩
    exact hr
  have hite : ∀ {c : Bool} {x y : Option (Reader Node)}, (∀ r ∈ x, Gives r Node.IsValue) →
      (∀ r ∈ y, Gives r Node.IsValue) → ∀ r ∈ (if c = true then x else y), Gives r Node.IsValue := by
    intro c x y hx hy
    split
    · exact hx
    · exact hy
  have hread : ∀ r ∈ block?, Gives r Node.IsValue := by
    refine hite (hsome gives_conditional) (hite (hsome gives_whileLoop) ?_)
    refine hite (hsome gives_forLoop) (hite (hsome (gives_keywordBlock _)) ?_)
    refine hite (hsome gives_matchExpression) (hite (hsome gives_tryBlock) ?_)
    refine hite (hsome (gives_keywordBlock _)) (hite (hsome (gives_keywordBlock _)) ?_)
    exact hite (hsome gives_blockExpression) (hite (hsome gives_labelled) (by simp))
  cases hchoice : block? with
  | none =>
    mvcgen -trivial
    all_goals grind -ring -linarith -lia [Node.IsValue.withAttributes]
  | some r =>
    have hr := hread r hchoice
    mvcgen -trivial [hr]
    all_goals grind -ring -linarith -lia [Node.IsValue.withAttributes]

/-! ## Statements -/

@[spec] theorem gives_binding : Gives (binding g) AllParts := by
  unfold binding
  mvcgen -trivial
  all_goals grind -ring -linarith -lia

@[spec] theorem gives_statement : Gives (statement g) Node.IsPiece := by
  unfold statement
  mvcgen -trivial
  all_goals grind -ring -linarith -lia [isPiece_statement, isPiece_item, Node.IsValue.attributeLeftmost]

theorem gives_statements : Gives (statements g) fun ns => ∀ n ∈ ns, n.IsPiece := by
  apply gives_until Node.IsPiece
  mvcgen -trivial
  all_goals grind -ring -linarith -lia [isPiece_statement]

theorem gives_blockRule : Gives (blockRule g) Node.IsPart := by
  unfold blockRule
  refine (gives_true here).bind fun start _ => ?_
  refine (gives_inside _ gives_statements).bind fun children hchildren => ?_
  mvcgen -trivial
  exact isPart_block _ hchildren

theorem gives_attributedBlockRule : Gives (attributedBlockRule g) fun n =>
    n.IsValue ∧ ∃ b, n.children.getLast? = some b ∧ b.form = .block := by
  have hinner : Gives (do
      let attributes ← innerAttributes g
      let children ← statements g
      pure (attributes, children)) fun found => AllParts found.1 ∧ ∀ n ∈ found.2, n.IsPiece :=
    gives_innerAttributes.bind fun attributes hattributes =>
      gives_statements.bind fun children hchildren => .pure ⟨hattributes, hchildren⟩
  unfold attributedBlockRule
  refine (gives_true here).bind fun start _ => ?_
  refine (gives_inside _ hinner).bind fun found hfound => ?_
  mvcgen -trivial
  next extent _ _ =>
    have hblock := isPart_block extent hfound.2
    have hchildren := allParts_append.2 ⟨hfound.1, allParts_cons.2 ⟨hblock, allParts_nil⟩⟩
    exact ⟨isValue_mk extent rfl rfl hchildren, _, List.getLast?_concat, rfl⟩

/-! ## Items -/

@[spec] theorem gives_function (attributes : List Node) : Gives (function g attributes) Node.IsPart := by
  unfold function
  mvcgen -trivial
  · grind
  · next body _ hbody extent _ _ =>
    obtain ⟨hvalue, b, hlast, hb⟩ := hbody
    have hmem : b ∈ body.children := List.mem_of_getLast? hlast
    rw [hlast]
    exact ⟨.function (hvalue.allParts b hmem).proper hb, by simp [Node.form]⟩

@[spec] theorem gives_typeMember : Gives (typeMember g) Node.IsPart := by
  unfold typeMember
  mvcgen -trivial
  all_goals grind -ring -linarith -lia

@[spec] theorem gives_traitMember : Gives (traitMember g) Node.IsPart := by
  unfold traitMember
  mvcgen -trivial
  all_goals grind -ring -linarith -lia

@[spec] theorem gives_implementation (attributes : List Node) :
    Gives (implementation g attributes) Node.IsPart := by
  have hmembers : Gives (do
      let inner ← innerAttributes g
      let members ← until_ Ahead.none (typeMember g)
      pure (inner, members)) fun found => AllParts found.2 :=
    (gives_true _).bind fun inner _ => (gives_untilNodes gives_typeMember).bind fun members h => .pure h
  unfold implementation
  refine (gives_true visibility).bind fun visible _ => (gives_true _).bind fun _ _ => ?_
  refine (gives_true _).bind fun _ _ => (gives_true here).bind fun start _ => ?_
  refine (gives_true _).bind fun _ _ => (gives_true _).bind fun _ _ => ?_
  extract_lets rest
  have hrest : ∀ u, Gives (rest u) Node.IsPart := by
    intro u
    refine (gives_true _).bind fun isConst _ => ?_
    extract_lets body types
    have hbody : ∀ owner, Gives (body owner) Node.IsPart := by
      intro owner
      refine (gives_true _).bind fun _ _ => (gives_inside _ hmembers).bind fun found hfound => ?_
      mvcgen -trivial
      all_goals grind -ring -linarith -lia
    have htypes : ∀ u, Gives (types u) Node.IsPart := by
      intro u
      refine (gives_true _).bind fun first _ => (gives_true _).bind fun isFor _ => ?_
      refine .ite ((gives_true _).bind fun _ _ => (gives_true _).bind fun owner _ => hbody owner) ?_
      exact .ite ((gives_true _).bind fun owner _ => hbody owner)
        ((gives_true _).bind fun owner _ => hbody owner)
    exact .ite ((gives_true _).bind fun _ _ => (gives_true _).bind fun _ _ => htypes ()) (htypes ())
  exact .ite ((gives_true _).bind fun _ _ => hrest ()) (hrest ())

@[spec] theorem gives_traitItem : Gives (traitItem g) Node.IsPart := by
  unfold traitItem
  mvcgen -trivial
  all_goals grind -ring -linarith -lia

@[spec] theorem gives_moduleItem : Gives (moduleItem g) Node.IsPart := by
  unfold moduleItem
  mvcgen -trivial
  all_goals grind -ring -linarith -lia

theorem gives_itemRule : Gives (itemRule g) Node.IsPart := by
  unfold itemRule
  mvcgen -trivial
  all_goals grind -ring -linarith -lia

end Reader

/-- Rules for goals that give proper trees give proper trees. -/
instance (g : Grammar) [g.Proper] : (rules g).Proper where
  expression := Reader.gives_expressionRule
  operand := Reader.gives_operandRule
  operators structs base h := Reader.gives_operatorsRule _ structs base h
  statementExpression := Reader.gives_statementExpressionRule
  block := Reader.gives_blockRule
  attributedBlock := Reader.gives_attributedBlockRule
  type := Reader.gives_typeRule
  arguments := Reader.gives_argumentsRule
  pattern := Reader.gives_patternRule
  item := Reader.gives_itemRule

instance (depth : Nat) : (grammar depth).Proper := by
  induction depth with
  | zero =>
    constructor
    all_goals
      intros
      exact Reader.gives_failure.mono fun _ hfalse => hfalse.elim
  | succ depth ih => exact inferInstanceAs (rules (grammar depth)).Proper

/-- The items of a source file are proper trees. -/
theorem proper_of_mem_items {source : String} {items : List Node} (h : items? source = some items) :
    ∀ n ∈ items, n.Proper := by
  unfold items? at h
  obtain ⟨tokens, -, h⟩ := Option.bind_eq_some_iff.1 h
  obtain ⟨⟨found, c⟩, hread, h⟩ := Option.bind_eq_some_iff.1 h
  cases h
  have hfile : Reader.Gives (do
      let _ ← Reader.innerAttributes (grammar (nestingBound tokens))
      Reader.until_ Ahead.none (grammar (nestingBound tokens) .item)) AllParts :=
    (Reader.gives_true _).bind fun _ _ => Reader.gives_untilNodes Grammar.Proper.item
  have hparts := Reader.gives_iff.1 hfile _ _ _ hread
  intro n hn
  exact (hparts n hn).proper

end LintMend.Rust
