import Mathlib.Logic.Relation
import LintMend.Proofs.LoweredFunctions

/-!
# Control-flow graphs are trees of blocks

Blocks are numbered in the order in which lowering meets them, so a block has a greater number than
the block that contains it. The edges are the links between the two, in both directions. From this
it follows that all blocks are reached from the first one, and that the number of independent paths
is the number of blocks.
-/

namespace LintMend

/-! ## Trees with links in both directions -/

/-- The blocks are numbered by their places, every block but the first has a parent in front of it,
and the edges are the links between parents and blocks. -/
structure FlowGraph.IsTwoWayTree (g : FlowGraph) (parent : Nat → Nat) : Prop where
  nonempty : 1 ≤ g.blocks.length
  numbered : g.blocks.map (·.id) = List.range g.blocks.length
  parent_lt : ∀ i, 1 ≤ i → i < g.blocks.length → parent i < i
  edges_eq : g.edges =
    (List.range' 1 (g.blocks.length - 1)).flatMap fun i => [(parent i, i), (i, parent i)]

namespace FlowGraph.IsTwoWayTree

variable {g : FlowGraph} {parent : Nat → Nat}

theorem mem_edges_iff (h : g.IsTwoWayTree parent) {a b : Nat} :
    (a, b) ∈ g.edges ↔ ∃ i, 1 ≤ i ∧ i < g.blocks.length ∧
      (a = parent i ∧ b = i ∨ a = i ∧ b = parent i) := by
  have hlength := h.nonempty
  rw [h.edges_eq, List.mem_flatMap]
  constructor
  · rintro ⟨i, hi, hedge⟩
    rw [List.mem_range'_1] at hi
    exact ⟨i, hi.1, by omega, by simpa using hedge⟩
  · rintro ⟨i, hfirst, hlast, hedge⟩
    exact ⟨i, List.mem_range'_1.2 ⟨hfirst, by omega⟩, by simpa using hedge⟩

/-- The parent of a block is the only block in front of it that has an edge to it. -/
theorem existsUnique_parent (h : g.IsTwoWayTree parent) {i : Nat} (hfirst : 1 ≤ i)
    (hlast : i < g.blocks.length) : ∃! p, p < i ∧ (p, i) ∈ g.edges := by
  refine ⟨parent i, ⟨h.parent_lt i hfirst hlast, ?_⟩, ?_⟩
  · exact h.mem_edges_iff.2 ⟨i, hfirst, hlast, .inl ⟨rfl, rfl⟩⟩
  · rintro p ⟨hlt, hedge⟩
    obtain ⟨j, hj, hj', ⟨hp, hi⟩ | ⟨hp, hi⟩⟩ := h.mem_edges_iff.1 hedge
    · rw [hp, hi]
    · -- such an edge leads to the parent of `j`, in front of `j`
      have hback := h.parent_lt j hj hj'
      omega

theorem mem_successors {a b : Nat} : b ∈ g.successors a ↔ (a, b) ∈ g.edges := by
  simp [successors]

theorem reachable (h : g.IsTwoWayTree parent) {i : Nat} (hlast : i < g.blocks.length) :
    Relation.ReflTransGen (fun a b => b ∈ g.successors a) 0 i := by
  induction i using Nat.strong_induction_on with
  | h i ih =>
    obtain rfl | hfirst := Nat.eq_zero_or_pos i
    · exact .refl
    · have hparent := h.parent_lt i hfirst hlast
      have hedge : (parent i, i) ∈ g.edges :=
        h.mem_edges_iff.2 ⟨i, hfirst, hlast, .inl ⟨rfl, rfl⟩⟩
      exact (ih (parent i) hparent (hparent.trans hlast)).tail (mem_successors.2 hedge)

theorem length_edges (h : g.IsTwoWayTree parent) :
    g.edges.length = 2 * (g.blocks.length - 1) := by
  rw [h.edges_eq, List.length_flatMap]
  simp only [List.length_cons, List.length_nil, List.map_const', List.length_range',
    List.sum_replicate_nat]
  omega

theorem complexity_eq (h : g.IsTwoWayTree parent) : g.complexity = g.blocks.length := by
  have hlength := h.nonempty
  have hblocks : g.blocks.isEmpty = false := by
    rw [List.isEmpty_eq_false_iff]
    rintro hnil
    simp [hnil] at hlength
  unfold complexity
  rw [hblocks, h.length_edges, if_neg Bool.false_ne_true]
  omega

end FlowGraph.IsTwoWayTree

namespace Rust

/-! ## Parents of placed blocks -/

/-- The blocks, numbered from `first` on, have parents with smaller numbers. -/
def Parented (first : Nat) (placed : List PlacedBlock) : Prop :=
  ∀ i b, placed[i]? = some b → ∃ p, b.parent = some p ∧ p < first + i

theorem Parented.nil (first : Nat) : Parented first [] := by
  intro i b h
  simp at h

theorem Parented.cons {first p : Nat} {statements : List Statement} {placed : List PlacedBlock}
    (hp : p < first) (h : Parented (first + 1) placed) :
    Parented first (⟨some p, statements⟩ :: placed) := by
  intro i b hb
  cases i with
  | zero =>
    obtain rfl : PlacedBlock.mk (some p) statements = b := by simpa using hb
    exact ⟨p, rfl, hp⟩
  | succ i =>
    obtain ⟨q, hq, hlt⟩ := h i b (by simpa using hb)
    exact ⟨q, hq, by omega⟩

theorem Parented.append {first : Nat} {placed after : List PlacedBlock} (h : Parented first placed)
    (h' : Parented (first + placed.length) after) : Parented first (placed ++ after) := by
  intro i b hb
  obtain hi | hi := Nat.lt_or_ge i placed.length
  · rw [List.getElem?_append_left hi] at hb
    exact h i b hb
  · rw [List.getElem?_append_right hi] at hb
    obtain ⟨q, hq, hlt⟩ := h' _ b hb
    exact ⟨q, hq, by omega⟩

mutual

theorem parented_lowerStatements (l : Locator) {id block : Nat} (next : Nat) (hid : id < block)
    (outlines : List Outline) : Parented block (lowerStatements l id block next outlines).2.1 := by
  match outlines with
  | [] =>
    rw [lowerStatements]
    exact .nil block
  | .mk extent mentions blocks :: rest =>
    rw [lowerStatements_cons]
    dsimp only
    generalize ownStatement l next extent mentions = own
    have hinner := parented_lowerBlocks l own.2 hid blocks
    generalize lowerBlocks l id block own.2 blocks = inner at hinner ⊢
    exact hinner.append (parented_lowerStatements l inner.2 (by omega) rest)

theorem parented_lowerBlocks (l : Locator) {parent block : Nat} (next : Nat) (h : parent < block)
    (outlines : List (List Outline)) : Parented block (lowerBlocks l parent block next outlines).1 := by
  match outlines with
  | [] =>
    rw [lowerBlocks]
    exact .nil block
  | outline :: rest =>
    rw [lowerBlocks_cons]
    dsimp only
    have hbody := parented_lowerStatements l next (Nat.lt_succ_self block) outline
    generalize lowerStatements l block (block + 1) next outline = body at hbody ⊢
    have hplaced : Parented block (⟨some parent, body.1⟩ :: body.2.1) := .cons h hbody
    exact hplaced.append (parented_lowerBlocks l body.2.2 (by omega) rest)

end

/-! ## Graphs of functions -/

/-- The edges between a block and its parent. -/
def links (parent : Option Nat) (id : Nat) : List (Nat × Nat) :=
  match parent with
  | some parent => [(parent, id), (id, parent)]
  | none => []

theorem edges_graphOf (placed : List PlacedBlock) :
    (graphOf placed).edges = placed.zipIdx.flatMap fun entry => links entry.1.parent entry.2 :=
  rfl

theorem length_blocks_graphOf (placed : List PlacedBlock) :
    (graphOf placed).blocks.length = placed.length := by
  simp [graphOf]

theorem flatMap_links {first : Nat} {placed : List PlacedBlock} {parent : Nat → Nat}
    (h : ∀ i b, placed[i]? = some b → b.parent = some (parent (first + i))) :
    ((placed.zipIdx first).flatMap fun entry => links entry.1.parent entry.2) =
      (List.range' first placed.length).flatMap fun i => [(parent i, i), (i, parent i)] := by
  induction placed generalizing first with
  | nil => rfl
  | cons b placed ih =>
    have hhead : links b.parent first = [(parent first, first), (first, parent first)] := by
      rw [h 0 b rfl]
      rfl
    have htail : ∀ i b, placed[i]? = some b → b.parent = some (parent (first + 1 + i)) := by
      intro i b hb
      rw [Nat.add_right_comm, Nat.add_assoc]
      exact h (i + 1) b (by simpa using hb)
    rw [List.zipIdx_cons, List.flatMap_cons, List.length_cons, List.range'_succ, List.flatMap_cons,
      ih htail, hhead]

/-- The number of the block that contains a block. -/
def parentIn (placed : List PlacedBlock) (id : Nat) : Nat := (placed[id]?.bind (·.parent)).getD 0

theorem isTwoWayTree_graphOf {statements : List Statement} {inner : List PlacedBlock}
    (h : Parented 1 inner) :
    (graphOf (⟨none, statements⟩ :: inner)).IsTwoWayTree (parentIn (⟨none, statements⟩ :: inner)) := by
  have hparent : ∀ i b, inner[i]? = some b →
      b.parent = some (parentIn (⟨none, statements⟩ :: inner) (1 + i)) := by
    intro i b hb
    obtain ⟨p, hp, -⟩ := h i b hb
    rw [parentIn, Nat.add_comm, List.getElem?_cons_succ, hb, Option.bind_some, hp, Option.getD_some]
  refine ⟨?_, ?_, ?_, ?_⟩
  · rw [length_blocks_graphOf]
    exact Nat.succ_pos _
  · rw [length_blocks_graphOf, graphOf, List.map_map, List.range_eq_range']
    exact List.zipIdx_map_snd 0 _
  · intro i hfirst hlast
    rw [length_blocks_graphOf, List.length_cons] at hlast
    obtain ⟨j, rfl⟩ := Nat.exists_eq_add_of_le hfirst
    have hj : inner[j]? = some (inner[j]) := List.getElem?_eq_getElem (by omega)
    obtain ⟨p, hp, hlt⟩ := h j _ hj
    have hsame := hparent j _ hj
    rw [hp, Option.some_inj] at hsame
    rw [← hsame]
    exact hlt
  · rw [edges_graphOf, length_blocks_graphOf, List.length_cons, Nat.add_sub_cancel,
      List.zipIdx_cons, List.flatMap_cons]
    exact flatMap_links hparent

theorem IsMethodOf.exists_isTwoWayTree {l : Locator} {n : Node} {m : Method} (h : IsMethodOf l n m) :
    ∃ parent, m.graph.IsTwoWayTree parent := by
  cases h with
  | lowered next name derived synthetic extent children =>
    exact ⟨_, isTwoWayTree_graphOf (parented_lowerStatements l next Nat.zero_lt_one _)⟩

/-- The control-flow graph of every method is a tree of blocks with links in both directions. Its
complexity is the number of its blocks. -/
theorem lowered_graph_two_way_tree {name path source : String} {items : List Node}
    {found : Class × Method} (h : found ∈ (unitOf name path source items).methods) :
    let g := found.2.graph
    (∃ parent, g.IsTwoWayTree parent) ∧
      (∀ i, 1 ≤ i → i < g.blocks.length → ∃! p, p < i ∧ (p, i) ∈ g.edges) ∧
      (∀ i < g.blocks.length, Relation.ReflTransGen (fun a b => b ∈ g.successors a) 0 i) ∧
      g.complexity = g.blocks.length := by
  obtain ⟨n, hmethod⟩ := exists_isMethodOf h
  obtain ⟨parent, htree⟩ := hmethod.exists_isTwoWayTree
  refine ⟨⟨parent, htree⟩, ?_, ?_, htree.complexity_eq⟩
  · intro i hfirst hlast
    exact htree.existsUnique_parent hfirst hlast
  · intro i hlast
    exact htree.reachable hlast

/-- A function whose second statement holds a block with a block in it, and a block after that. -/
def branching : Node :=
  let e : Extent := ⟨⟨1, 0⟩, ⟨1, 1⟩⟩
  let body (ns : List Node) : Node := .mk .block e ns
  .mk (.function "f" false) e
    [body [.mk .statement e [], .mk .statement e [body [.mk .statement e [body []]], body []]]]

theorem lowered_graph_two_way_tree_branching :
    ∃ m, ((unitOf "a.rs" "a.rs" "f" [branching]).methods.map (·.2)) = [m] ∧
      m.graph.edges = [(0, 1), (1, 0), (1, 2), (2, 1), (0, 3), (3, 0)] ∧
      m.graph.complexity = 4 ∧
      Relation.ReflTransGen (fun a b => b ∈ m.graph.successors a) 0 2 := by
  obtain ⟨found, hfound⟩ : ∃ found, (unitOf "a.rs" "a.rs" "f" [branching]).methods = [found] ∧
      found.2.graph.edges = [(0, 1), (1, 0), (1, 2), (2, 1), (0, 3), (3, 0)] ∧
      found.2.graph.blocks.length = 4 := ⟨_, rfl, by decide +kernel⟩
  obtain ⟨hmethods, hedges, hlength⟩ := hfound
  have hmem : found ∈ (unitOf "a.rs" "a.rs" "f" [branching]).methods := by simp [hmethods]
  obtain ⟨-, -, hreachable, hcomplexity⟩ := lowered_graph_two_way_tree hmem
  exact ⟨found.2, by rw [hmethods]; rfl, hedges, hcomplexity.trans hlength,
    hreachable 2 (by rw [hlength]; decide)⟩

end Rust

end LintMend
