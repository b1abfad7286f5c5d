import Mathlib.Data.List.Forall2
import LintMend.Proofs.LoweredUnits

/-!
# The functions of a syntax tree and the methods of a unit

Lowering makes one method of every function node that it meets, and no others. So a law of all
methods of a unit is a law of `lowerFunction`, and what is said of a method can be said of the tree
of its function.
-/

namespace LintMend.Rust

/-- The node is a function with a body. -/
def Node.isFunction (n : Node) : Bool :=
  match n.form with
  | .function _ _ => true
  | _ => false

mutual

/-- The functions of an item: the item itself, members of it, or functions of items in it. -/
def Node.functions : Node → List Node
  | .mk form extent children =>
    match form with
    | .function name derived => [.mk (.function name derived) extent children]
    | .implementation _ _ | .traitMembers _ => children.filter Node.isFunction
    | .module _ => Node.functionsAll children
    | _ => []

/-- The functions of a sequence of items. -/
def Node.functionsAll : List Node → List Node
  | [] => []
  | n :: ns => n.functions ++ Node.functionsAll ns

end

mutual

/-- What holds of a node and passes on to children holds of its functions. -/
theorem Node.forall_functions {P : Node → Prop} (hchildren : ∀ n, P n → ∀ c ∈ n.children, P c)
    (n : Node) (h : P n) : ∀ f ∈ n.functions, P f := by
  match n with
  | .mk form extent children =>
    have hall : ∀ c ∈ children, P c := hchildren _ h
    cases form with
    | function name derived =>
      rw [Node.functions, List.forall_mem_singleton]
      exact h
    | implementation | traitMembers =>
      rw [Node.functions]
      exact fun f hf => hall f (List.mem_of_mem_filter hf)
    | module name =>
      rw [Node.functions]
      exact Node.forall_functionsAll hchildren children hall
    | _ => simp [Node.functions]

theorem Node.forall_functionsAll {P : Node → Prop} (hchildren : ∀ n, P n → ∀ c ∈ n.children, P c)
    (ns : List Node) (h : ∀ n ∈ ns, P n) : ∀ f ∈ Node.functionsAll ns, P f := by
  match ns with
  | [] =>
    rw [Node.functionsAll]
    simp
  | n :: ns =>
    rw [List.forall_mem_cons] at h
    rw [Node.functionsAll, List.forall_mem_append]
    exact ⟨Node.forall_functions hchildren n h.1, Node.forall_functionsAll hchildren ns h.2⟩

end

/-- The method is what the function node is lowered to, for some first statement number. -/
inductive IsMethodOf (l : Locator) : Node → Method → Prop where
  | lowered (next : Nat) (name : String) (derived synthetic : Bool) (extent : Extent)
      (children : List Node) :
    IsMethodOf l (.mk (.function name derived) extent children)
      (lowerFunction l next name synthetic extent children).1

/-- The methods of what has been lowered. -/
def Lowered.methods (done : Lowered) : List Method :=
  done.functions ++ done.classes.flatMap (·.methods)

theorem Lowered.methods_addFunction (done : Lowered) (method : Method) (next : Nat) :
    (Lowered.mk done.classes (done.functions ++ [method]) next).methods.Perm
      (done.methods ++ [method]) := by
  simp only [Lowered.methods, List.append_assoc]
  exact List.perm_append_comm.append_left _

theorem Lowered.methods_addClass (done : Lowered) (c : Class) (next : Nat) :
    (Lowered.mk (done.classes ++ [c]) done.functions next).methods = done.methods ++ c.methods := by
  simp only [Lowered.methods, List.flatMap_append, List.flatMap_singleton, List.append_assoc]

theorem isMethodOf_lowerMembers (l : Locator) (derived : Bool) (next : Nat) (members : List Node) :
    List.Forall₂ (IsMethodOf l) (members.filter Node.isFunction)
      (lowerMembers l derived next members).1 := by
  fun_induction lowerMembers l derived next members with
  | case1 next => exact .nil
  | case2 next name isDerived extent children rest method next' hmethod methods next'' hrest ih =>
    rw [hrest] at ih
    have hfunction : method =
        (lowerFunction l next name (derived || isDerived) extent children).1 := by rw [hmethod]
    rw [List.filter_cons_of_pos rfl, hfunction]
    exact .cons (.lowered next name isDerived (derived || isDerived) extent children) ih
  | case3 next node rest hnode ih =>
    have hform : ¬node.isFunction = true := by
      cases node with
      | mk form extent children =>
        cases form with
        | function name isDerived => exact absurd rfl (hnode name isDerived extent children)
        | _ => exact Bool.false_ne_true
    rw [List.filter_cons_of_neg hform]
    exact ih

mutual

theorem exists_methods_lowerItem (l : Locator) (modules : String) (done : Lowered) (item : Node) :
    ∃ added, List.Forall₂ (IsMethodOf l) item.functions added ∧
      (lowerItem l modules done item).methods.Perm (done.methods ++ added) := by
  match item with
  | .mk form extent children =>
    cases form with
    | function name derived =>
      rw [lowerItem, Node.functions]
      exact ⟨_, .cons (.lowered done.next name derived derived extent children) .nil,
        done.methods_addFunction _ _⟩
    | implementation owner derived =>
      rw [lowerItem, Node.functions, Lowered.methods_addClass]
      exact ⟨_, isMethodOf_lowerMembers l derived done.next children, .refl _⟩
    | traitMembers name =>
      rw [lowerItem, Node.functions, Lowered.methods_addClass]
      exact ⟨_, isMethodOf_lowerMembers l false done.next children, .refl _⟩
    | module name =>
      rw [lowerItem, Node.functions]
      exact exists_methods_lowerItems l (modules ++ name ++ "::") done children
    | _ =>
      simp only [lowerItem, Node.functions]
      exact ⟨[], .nil, by rw [List.append_nil]⟩

theorem exists_methods_lowerItems (l : Locator) (modules : String) (done : Lowered)
    (items : List Node) :
    ∃ added, List.Forall₂ (IsMethodOf l) (Node.functionsAll items) added ∧
      (lowerItems l modules done items).methods.Perm (done.methods ++ added) := by
  match items with
  | [] =>
    rw [lowerItems, Node.functionsAll]
    exact ⟨[], .nil, by rw [List.append_nil]⟩
  | n :: ns =>
    obtain ⟨first, hfirst, hn⟩ := exists_methods_lowerItem l modules done n
    obtain ⟨more, hmore, hns⟩ :=
      exists_methods_lowerItems l modules (lowerItem l modules done n) ns
    rw [lowerItems, Node.functionsAll]
    refine ⟨first ++ more, List.rel_append hfirst hmore, hns.trans ?_⟩
    rw [← List.append_assoc]
    exact hn.append_right more

end

/-- Apart from their order, the methods of a unit are those of the functions of the tree, one for
each. -/
theorem exists_methods_unitOf (name path source : String) (items : List Node) :
    ∃ methods, List.Forall₂ (IsMethodOf (.ofSource source)) (Node.functionsAll items) methods ∧
      ((unitOf name path source items).methods.map (·.2)).Perm methods := by
  obtain ⟨methods, hmethods, hperm⟩ :=
    exists_methods_lowerItems (.ofSource source) "" {} items
  have hunit : (unitOf name path source items).methods.map (·.2) =
      (lowerItems (.ofSource source) "" {} items).methods := by
    unfold unitOf ProgramUnit.methods lower Lowered.methods
    generalize lowerItems (.ofSource source) "" {} items = lowered
    simp only [List.map_flatMap, List.map_map, Function.comp_def, List.map_id']
    split
    · next hempty =>
      rw [List.isEmpty_iff.1 hempty, List.nil_append]
    · rfl
  rw [hunit]
  exact ⟨methods, hmethods, hperm⟩

theorem exists_related_of_mem {α β : Type} {R : α → β → Prop} {xs : List α} {ys : List β}
    (h : List.Forall₂ R xs ys) {x : α} (hx : x ∈ xs) : ∃ y ∈ ys, R x y := by
  induction h with
  | nil => cases hx
  | @cons a b xs ys hab h ih =>
    obtain rfl | hx := List.mem_cons.1 hx
    · exact ⟨b, List.mem_cons_self, hab⟩
    · obtain ⟨y, hy, hxy⟩ := ih hx
      exact ⟨y, List.mem_cons_of_mem b hy, hxy⟩

/-- Every method of a unit is that of a function of the tree. -/
theorem exists_isMethodOf {name path source : String} {items : List Node} {found : Class × Method}
    (h : found ∈ (unitOf name path source items).methods) :
    ∃ n, IsMethodOf (.ofSource source) n found.2 := by
  obtain ⟨methods, hmethods, hperm⟩ := exists_methods_unitOf name path source items
  have hmem : found.2 ∈ methods := hperm.mem_iff.1 (List.mem_map_of_mem h)
  obtain ⟨n, -, hn⟩ := exists_related_of_mem hmethods.flip hmem
  exact ⟨n, hn⟩

end LintMend.Rust
