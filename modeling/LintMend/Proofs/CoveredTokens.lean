import LintMend.Proofs.ReaderSteps
import LintMend.Rust.Grammar.Basic

/-!
# The tokens of a node

A node of a syntax tree covers tokens that stand next to each other in the source, on one level of
brackets. Its extent runs from the beginning of the first to the end of the last, the tokens have the
shape that the form of the node asks for, and the nodes below it cover pieces of them. The statements of
a block divide up the tokens between its braces.
-/

namespace LintMend.Rust

/-! ## Pieces -/

/-- The tokens stand next to each other among those given or inside one of their groups. -/
inductive Inside : List Token → List Token → Prop
  | part {us ts : List Token} (h : us <:+: ts) : Inside us ts
  | group {us inner ts : List Token} {d : Delimiter} {e : Extent} (h : Inside us inner)
    (hmem : Token.group d inner e ∈ ts) : Inside us ts

namespace Inside

theorem refl (ts : List Token) : Inside ts ts := .part (List.infix_refl ts)

theorem infix_right {us vs ts : List Token} (h : Inside us vs) (hts : vs <:+: ts) : Inside us ts := by
  cases h with
  | part h => exact .part (h.trans hts)
  | group h hmem => exact .group h (hts.subset hmem)

theorem trans {us vs ts : List Token} (h : Inside us vs) (h' : Inside vs ts) : Inside us ts := by
  induction h' with
  | part hts => exact h.infix_right hts
  | group _ hmem ih => exact .group ih hmem

theorem left {us ts : List Token} (h : Inside us ts) (vs : List Token) : Inside us (ts ++ vs) :=
  h.infix_right (List.prefix_append ts vs).isInfix

theorem right {us ts : List Token} (h : Inside us ts) (vs : List Token) : Inside us (vs ++ ts) :=
  h.infix_right (List.suffix_append vs ts).isInfix

end Inside

/-- The extent runs from the beginning of the first token to the end of the last one. -/
structure Extent.Spans (e : Extent) (ts : List Token) : Prop where
  nonempty : ts ≠ []
  start : Begin e.start ts
  stop : End e.stop ts

theorem End.append {p : Position} {us vs : List Token} (h : End p vs) (hne : vs ≠ []) :
    End p (us ++ vs) := by
  intro t ht
  apply h
  rw [List.getLast?_append] at ht
  cases hvs : vs.getLast? with
  | none => exact absurd (List.getLast?_eq_none_iff.1 hvs) hne
  | some t' =>
    rw [hvs] at ht
    exact ht

/-! ## Shapes -/

/-- Attributes in front of something, each of them a number sign and a group in brackets. -/
def AttributeTokens (ts : List Token) : Prop :=
  ∃ pieces : List (List Token), ts = pieces.flatten ∧ ∀ piece ∈ pieces, ∃ joint e inner e',
    piece = [Token.mark '#' joint e, .group .bracket inner e']

/-- A literal, a truth value, or a negative number. -/
inductive LiteralTokens : LiteralKind → List Token → Prop
  | plain (text : String) (e : Extent) : LiteralTokens (literalKind text) [.literal text e]
  | negative (joint : Bool) (e : Extent) (text : String) (e' : Extent) :
    LiteralTokens .number [.mark '-' joint e, .literal text e']
  | truth (text : String) (e : Extent) (h : text = "true" ∨ text = "false") :
    LiteralTokens .other [.word text e]

/-- What the form of a node says about its tokens. -/
def Form.Shaped (ts : List Token) : Form → Prop
  | .call _ => ∃ callee inner e, callee ≠ [] ∧ ts = callee ++ [.group .parenthesis inner e]
  | .methodCall name method => ∃ receiver e generic inner e', receiver ≠ [] ∧ method = e.start ∧
    ts = receiver ++ .word name e :: (generic ++ [.group .parenthesis inner e'])
  | .binary operator => ∃ left sign right, left ≠ [] ∧ right ≠ [] ∧ Reader.Spell operator.toList sign ∧
    ts = left ++ (sign ++ right)
  | .literal kind => ∃ attributes own, AttributeTokens attributes ∧ LiteralTokens kind own ∧
    ts = attributes ++ own
  | .expansion _ => ∃ path joint e d inner e', path ≠ [] ∧
    ts = path ++ [.mark '!' joint e, .group d inner e']
  | _ => True

/-- The node is one of those whose leftmost operand takes the attributes in front of it. -/
def Form.isChain : Form → Bool
  | .binary _ | .assign | .cast => true
  | _ => false

/-! ## Covering -/

/-- The node covers the tokens. -/
inductive Covers : List Token → Node → Prop
  | mk {ts : List Token} {form : Form} {extent : Extent} {children : List Node}
    {parts : List (List Token)} (spans : extent.Spans ts) (shaped : form.Shaped ts)
    (covered : List.Forall₂ Covers parts children) (inside : ∀ us ∈ parts, Inside us ts)
    (leftmost : form.isChain = true →
      (∀ us ∈ parts.head?, us <+: ts) ∧ ∀ left ∈ children.head?, left.form ≠ .block)
    (tiled : form = .block → ∃ inner e attributes, ts = [.group .brace inner e] ∧
      inner = attributes ++ parts.flatten) :
    Covers ts (.mk form extent children)

/-- The node covers some of the tokens. -/
def Within (ts : List Token) (n : Node) : Prop := ∃ us, Inside us ts ∧ Covers us n

/-- Each of the nodes covers some of the tokens. -/
def AllWithin (ts : List Token) (ns : List Node) : Prop := ∀ n ∈ ns, Within ts n

/-- The node covers the tokens and is no block. -/
structure IsValue (ts : List Token) (n : Node) : Prop where
  covers : Covers ts n
  form_ne : n.form ≠ .block

/-- The nodes are attributes that cover the tokens one after the other. -/
def Attributes (ts : List Token) (ns : List Node) : Prop :=
  ∃ pieces : List (List Token), ts = pieces.flatten ∧ List.Forall₂ (fun piece n => IsValue piece n ∧
    ∃ joint e inner e', piece = [Token.mark '#' joint e, .group .bracket inner e']) pieces ns

section Covering

variable {us vs ts : List Token} {n : Node} {ns ms : List Node}

theorem Covers.spans (h : Covers ts n) : n.extent.Spans ts := by
  cases h with
  | mk spans => exact spans

theorem Covers.within (h : Covers ts n) : Within ts n := ⟨ts, .refl ts, h⟩

theorem IsValue.within (h : IsValue ts n) : Within ts n := h.covers.within

theorem IsValue.nonempty (h : IsValue ts n) : ts ≠ [] := h.covers.spans.nonempty

theorem Within.inside (h : Within us n) (hinside : Inside us ts) : Within ts n := by
  rcases h with ⟨part, hpart, hcovers⟩
  exact ⟨part, hpart.trans hinside, hcovers⟩

@[grind ←] theorem Within.left (h : Within us n) (vs : List Token) : Within (us ++ vs) n :=
  h.inside ((Inside.refl us).left vs)

@[grind ←] theorem Within.right (h : Within vs n) (us : List Token) : Within (us ++ vs) n :=
  h.inside ((Inside.refl vs).right us)

theorem Within.nonempty (h : Within ts n) : ts ≠ [] := by
  rcases h with ⟨us, hinside, hcovers⟩
  have hus := hcovers.spans.nonempty
  rintro rfl
  cases hinside with
  | part h => exact hus (List.infix_nil.1 h)
  | group _ hmem => cases hmem

@[simp] theorem allWithin_nil : AllWithin ts [] := by simp [AllWithin]

@[simp] theorem allWithin_cons : AllWithin ts (n :: ns) ↔ Within ts n ∧ AllWithin ts ns :=
  List.forall_mem_cons

theorem Within.only (h : Within ts n) : AllWithin ts [n] := allWithin_cons.2 ⟨h, allWithin_nil⟩

@[simp] theorem allWithin_append : AllWithin ts (ns ++ ms) ↔ AllWithin ts ns ∧ AllWithin ts ms :=
  List.forall_mem_append

@[grind ←] theorem AllWithin.left (h : AllWithin us ns) (vs : List Token) : AllWithin (us ++ vs) ns :=
  fun n hn => (h n hn).left vs

@[grind ←] theorem AllWithin.right (h : AllWithin vs ns) (us : List Token) : AllWithin (us ++ vs) ns :=
  fun n hn => (h n hn).right us

theorem AllWithin.inside (h : AllWithin us ns) (hinside : Inside us ts) : AllWithin ts ns :=
  fun n hn => (h n hn).inside hinside

/-- What is read in a group is read among the tokens with the group. -/
theorem AllWithin.group {inner : List Token} (h : AllWithin inner ns) (d : Delimiter) (e : Extent) :
    AllWithin [.group d inner e] ns :=
  h.inside (.group (.refl inner) (List.mem_singleton_self _))

theorem Within.group {inner : List Token} (h : Within inner n) (d : Delimiter) (e : Extent) :
    Within [.group d inner e] n :=
  h.inside (.group (.refl inner) (List.mem_singleton_self _))

/-- Nodes that cover some of the tokens, with the pieces that they cover. -/
theorem AllWithin.exists_parts (h : AllWithin ts ns) :
    ∃ parts, List.Forall₂ Covers parts ns ∧ ∀ us ∈ parts, Inside us ts := by
  induction ns with
  | nil => exact ⟨[], .nil, by simp⟩
  | cons n ns ih =>
    rw [allWithin_cons] at h
    rcases h with ⟨⟨us, hus, hcovers⟩, h⟩
    rcases ih h with ⟨parts, hcovered, hparts⟩
    exact ⟨us :: parts, .cons hcovers hcovered, List.forall_mem_cons.2 ⟨hus, hparts⟩⟩

theorem allWithin_of_forall₂ {parts : List (List Token)} (h : List.Forall₂ Covers parts ns)
    (hparts : ∀ us ∈ parts, Inside us ts) : AllWithin ts ns := by
  induction h with
  | nil => simp
  | cons hcovers _ ih =>
    rw [List.forall_mem_cons] at hparts
    rw [allWithin_cons]
    exact ⟨⟨_, hparts.1, hcovers⟩, ih hparts.2⟩

/-- The nodes below a node cover some of its tokens. -/
theorem Covers.children (h : Covers ts n) : AllWithin ts n.children := by
  cases h with
  | mk _ _ covered inside => exact allWithin_of_forall₂ covered inside

/-- A node of a form that says nothing more about the nodes below it. -/
theorem IsValue.of (form : Form) {e : Extent} (hspans : e.Spans ts) (hshaped : form.Shaped ts)
    (hform : form.isChain = false ∧ form ≠ .block) (h : AllWithin ts ns) : IsValue ts
    (.mk form e ns) := by
  rcases h.exists_parts with ⟨parts, hcovered, hparts⟩
  refine ⟨.mk hspans hshaped hcovered hparts ?_ ?_, hform.2⟩
  · rw [hform.1]
    intro hchain
    cases hchain
  · intro hblock
    exact absurd hblock hform.2

theorem IsValue.other {e : Extent} (hspans : e.Spans ts) (h : AllWithin ts ns) :
    IsValue ts (.mk .other e ns) := .of _ hspans trivial ⟨rfl, by simp⟩ h

theorem IsValue.literal {kind : LiteralKind} {own : List Token} {e : Extent}
    (hown : LiteralTokens kind own) (hspans : e.Spans own) : IsValue own (.mk (.literal kind) e []) :=
  .of _ hspans ⟨[], own, ⟨[], rfl, by simp⟩, hown, rfl⟩ ⟨rfl, by simp⟩ allWithin_nil

/-- A chain of operators, of which the leftmost operand covers the first tokens. -/
theorem IsValue.chain {form : Form} {e : Extent} {left : Node} (hspans : e.Spans ts)
    (hshaped : form.Shaped ts) (hform : form ≠ .block) (hleft : IsValue us left) (hstarts : us <+: ts)
    (h : AllWithin ts ns) : IsValue ts (.mk form e (left :: ns)) := by
  rcases h.exists_parts with ⟨parts, hcovered, hparts⟩
  refine ⟨.mk hspans hshaped (.cons hleft.covers hcovered) ?_ ?_ ?_, hform⟩
  · exact List.forall_mem_cons.2 ⟨.part hstarts.isInfix, hparts⟩
  · intro _
    constructor
    · rintro _ ⟨⟩
      exact hstarts
    · rintro _ ⟨⟩
      exact hleft.form_ne
  · intro hblock
    exact absurd hblock hform

/-- A node of an expression and of what stands behind it. -/
theorem IsValue.after {form : Form} {e : Node} {stop : Position} (he : IsValue us e)
    (hstarts : us <+: ts)
    (hend : End stop ts) (hform : form ≠ .block) (hshaped : form.Shaped ts) (h : AllWithin ts ns) :
    IsValue ts (.mk form ⟨e.extent.start, stop⟩ (e :: ns)) := by
  have hstarts' := hstarts
  rcases hstarts with ⟨ws, rfl⟩
  have hspans : Extent.Spans ⟨e.extent.start, stop⟩ (us ++ ws) :=
    ⟨by simp [he.nonempty], he.covers.spans.start.append he.nonempty, hend⟩
  exact .chain hspans hshaped hform he hstarts' h

/-- A node that is taken to begin with tokens in front of it. -/
theorem IsValue.startingAt {start : Position} (h : IsValue ts n) (hform : n.form = .blockLike)
    (hbegin : Begin start (us ++ ts)) : IsValue (us ++ ts) (n.startingAt start) := by
  have hspans : Extent.Spans ⟨start, n.extent.stop⟩ (us ++ ts) :=
    ⟨by simp [h.nonempty], hbegin, h.covers.spans.stop.append h.nonempty⟩
  rw [Node.startingAt, hform]
  exact .of _ hspans trivial ⟨rfl, by simp⟩ (h.covers.children.right us)

/-! ## Attributes in front of a node -/

theorem Attributes.tokens (h : Attributes ts ns) : AttributeTokens ts := by
  rcases h with ⟨pieces, rfl, hpieces⟩
  refine ⟨pieces, rfl, ?_⟩
  induction hpieces with
  | nil => simp
  | cons hpiece _ ih => exact List.forall_mem_cons.2 ⟨hpiece.2, ih⟩

theorem AttributeTokens.append (h : AttributeTokens us) (h' : AttributeTokens vs) :
    AttributeTokens (us ++ vs) := by
  rcases h with ⟨pieces, rfl, hpieces⟩
  rcases h' with ⟨pieces', rfl, hpieces'⟩
  exact ⟨pieces ++ pieces', by simp, List.forall_mem_append.2 ⟨hpieces, hpieces'⟩⟩

theorem Attributes.allWithin (h : Attributes ts ns) : AllWithin ts ns := by
  rcases h with ⟨pieces, rfl, hpieces⟩
  apply allWithin_of_forall₂ (hpieces.imp fun _ _ h => h.1.covers)
  intro piece hpiece
  exact .part (List.infix_of_mem_flatten hpiece)

/-- Attributes in front of the tokens do not change their shape. -/
theorem Form.Shaped.attributes {form : Form} (h : form.Shaped ts) (hus : AttributeTokens us) :
    form.Shaped (us ++ ts) := by
  cases form with
  | call name =>
    rcases h with ⟨callee, inner, e, hcallee, rfl⟩
    exact ⟨us ++ callee, inner, e, by simp [hcallee], by simp⟩
  | methodCall name method =>
    rcases h with ⟨receiver, e, generic, inner, e', hreceiver, hmethod, rfl⟩
    exact ⟨us ++ receiver, e, generic, inner, e', by simp [hreceiver], hmethod, by simp⟩
  | binary operator =>
    rcases h with ⟨left, sign, right, hleft, hright, hsign, rfl⟩
    exact ⟨us ++ left, sign, right, by simp [hleft], hright, hsign, by simp⟩
  | literal kind =>
    rcases h with ⟨attributes, own, hattributes, hown, rfl⟩
    exact ⟨us ++ attributes, own, hus.append hattributes, hown, by simp⟩
  | expansion name =>
    rcases h with ⟨path, joint, e, d, inner, e', hpath, rfl⟩
    exact ⟨us ++ path, joint, e, d, inner, e', by simp [hpath], by simp⟩
  | _ => trivial

theorem Extent.Spans.after {e e' : Extent} (h : e.Spans ts) (h' : e'.Spans us) (vs : List Token) :
    Extent.Spans ⟨e'.start, e.stop⟩ (us ++ (vs ++ ts)) where
  nonempty := by simp [h.nonempty]
  start := h'.start.append h'.nonempty
  stop := by
    rw [← List.append_assoc]
    exact h.stop.append h.nonempty

/-- A node with attributes covers their tokens, too. -/
theorem IsValue.withAttributes (h : IsValue ts n) (hns : Attributes us ns) :
    IsValue (us ++ ts) (n.withAttributes ns) := by
  have htokens := hns.tokens
  have hallWithin := hns.allWithin
  rcases hns with ⟨pieces, rfl, hpieces⟩
  cases hpieces with
  | nil => exact h
  | cons hfirst hrest =>
    rename_i piece first pieces rest
    obtain ⟨hcovers, hform⟩ := h
    cases hcovers with
    | mk spans shaped covered inside leftmost tiled =>
      rename_i form e children parts
      have hspans : Extent.Spans ⟨first.extent.start, e.stop⟩ ((piece :: pieces).flatten ++ ts) := by
        rw [List.flatten_cons, List.append_assoc]
        exact spans.after hfirst.1.covers.spans pieces.flatten
      apply IsValue.chain hspans (shaped.attributes htokens) hform hfirst.1
      · rw [List.flatten_cons, List.append_assoc]
        exact List.prefix_append piece _
      · have hchildren := allWithin_of_forall₂ covered inside
        exact allWithin_append.2 ⟨(allWithin_cons.1 hallWithin).2.left ts, hchildren.right _⟩

/-- A chain of operators whose leftmost operand has got attributes in front of it. -/
theorem IsValue.attributeChain {form : Form} {e : Extent} {left left' : Node}
    (hform : form.isChain = true)
    (hus : AttributeTokens us) (hleft' : ∀ {ts}, IsValue ts left → IsValue (us ++ ts) left')
    (h : IsValue ts (.mk form e (left :: ns))) :
    IsValue (us ++ ts) (.mk form ⟨left'.extent.start, e.stop⟩ (left' :: ns)) := by
  obtain ⟨hcovers, hne⟩ := h
  cases hcovers with
  | mk spans shaped covered inside leftmost tiled =>
    cases covered with
    | cons hleft hrest =>
      rename_i part parts
      rcases leftmost hform with ⟨hpart, hleftForm⟩
      rcases hpart part rfl with ⟨after, rfl⟩
      rw [List.forall_mem_cons] at inside
      have hvalue := hleft' ⟨hleft, hleftForm left rfl⟩
      have hstart : Begin left'.extent.start (us ++ (part ++ after)) := by
        rw [← List.append_assoc]
        exact hvalue.covers.spans.start.append hvalue.nonempty
      have hspans : Extent.Spans ⟨left'.extent.start, e.stop⟩ (us ++ (part ++ after)) :=
        ⟨by simp [hleft.spans.nonempty], hstart, spans.stop.append spans.nonempty⟩
      apply IsValue.chain hspans (shaped.attributes hus) hne hvalue
      · rw [← List.append_assoc]
        exact List.prefix_append _ after
      · exact (allWithin_of_forall₂ hrest inside.2).right us

/-- Attributes in front of a chain of operators belong to its leftmost operand. -/
theorem IsValue.attributeLeftmost (h : IsValue ts n) (hns : Attributes us ns) :
    IsValue (us ++ ts) (n.attributeLeftmost ns) := by
  induction n using Node.attributeLeftmost.induct ns generalizing ts with
  | case1 e left rest ih => exact h.attributeChain rfl hns.tokens ih
  | case2 operator e left rest ih => exact h.attributeChain rfl hns.tokens ih
  | case3 e left rest ih => exact h.attributeChain rfl hns.tokens ih
  | case4 n hassign hbinary hcast =>
    rw [Node.attributeLeftmost.eq_4 ns n hassign hbinary hcast]
    exact h.withAttributes hns

end Covering

end LintMend.Rust
