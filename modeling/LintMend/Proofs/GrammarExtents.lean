import LintMend.Proofs.CoveredTokens
import LintMend.Rust.File

/-!
# Extents of what the grammar reads

Every rule of the grammar gives nodes that cover the tokens it takes. The rules call each other through
the grammar, so each of them is looked at once, for any grammar whose goals cover their tokens; the
knot is then tied by induction on the depth.
-/

namespace LintMend.Rust

/-- What each goal reads covers tokens that it takes. Expressions cover all of them. -/
class Grammar.Covering (g : Grammar) : Prop where
  expression (structs : Bool) : Reader.Reads [] (g (.expression structs)) IsValue
  operand (structs : Bool) : Reader.Reads [] (g (.operand structs)) IsValue
  operators {us : List Token} {left : Node} (structs : Bool) (base : Nat) (h : IsValue us left) :
    Reader.Reads us (g (.operators left structs base)) IsValue
  statementExpression : Reader.Reads [] (g .statementExpression) IsValue
  block : Reader.Reads [] (g .block) Covers
  attributedBlock : Reader.Reads [] (g .attributedBlock) Covers
  type (plus : Bool) : Reader.Reads [] (g (.type plus)) Within
  arguments : Reader.Reads [] (g .arguments) Covers
  pattern : Reader.Reads [] (g .pattern) Within
  item : Reader.Reads [] (g .item) Within

namespace Reader

variable {us : List Token} {g : Grammar}

/-! ## Nodes and lists of nodes -/

/-- The end of a reader that makes a node of the tokens from `start` on. -/
theorem reads_nodeThen {α : Type} {p : List Token → α → Prop} (form : Form) (f : Node → α)
    {start : Position} {children : List Node} (hne : us ≠ [])
    (hform : form.isChain = false ∧ form ≠ .block)
    (hshaped : form.Shaped us) (h : AllWithin us children) (hp : ∀ n, IsValue us n → p us (f n)) :
    Reads us (since start >>= fun e => pure (f (Node.mk form e children))) (Opened [] start p) := by
  apply Reads.since
  intro stop hend
  apply Reads.pure
  intro hbegin
  exact hp _ (.of _ ⟨hne, hbegin us rfl, hend⟩ hshaped hform h)

theorem reads_node (form : Form) {start : Position} {children : List Node} (hne : us ≠ [])
    (hform : form.isChain = false ∧ form ≠ .block) (hshaped : form.Shaped us)
    (h : AllWithin us children) :
    Reads us (since start >>= fun e => pure (Node.mk form e children)) (Opened [] start IsValue) :=
  reads_nodeThen _ id hne hform hshaped h fun _ hn => hn

theorem reads_nodeWithin (form : Form) {start : Position} {children : List Node} (hne : us ≠ [])
    (hform : form.isChain = false ∧ form ≠ .block) (hshaped : form.Shaped us)
    (h : AllWithin us children) :
    Reads us (since start >>= fun e => pure (Node.mk form e children)) (Opened [] start Within) :=
  reads_nodeThen _ id hne hform hshaped h fun _ hn => hn.within

/-- The end of a reader that makes a node of the tokens behind those that it skipped. -/
theorem reads_nodeAt (form : Form) {start : Position} {children : List Node} {ts : List Token}
    (hne : ts ≠ []) (hform : form.isChain = false ∧ form ≠ .block) (hshaped : form.Shaped ts)
    (h : AllWithin ts children) :
    Reads (us ++ ts) (since start >>= fun e => pure (Node.mk form e children))
    (Opened us start Within) := by
  refine .since fun stop hend => .pure fun hbegin => ?_
  have hspans : Extent.Spans ⟨start, stop⟩ ts := ⟨hne, hbegin ts rfl, hend.of_append⟩
  exact (IsValue.of _ hspans hshaped hform h).within.right us

theorem reads_separatedNodes {r : Reader Node} (h : Reads [] r Within) (separator : String)
    (stop : Ahead) : Reads [] (separated separator stop r) AllWithin := by
  apply (h.separated separator stop).mono
  intro ts ns hns n hn
  rcases hns n hn with ⟨us, hus, hwithin⟩
  exact hwithin.inside (.part hus)

theorem reads_commaNodes {r : Reader Node} (h : Reads [] r Within) : Reads [] (commaList r) AllWithin :=
  reads_separatedNodes h "," Ahead.none

theorem reads_separatedLists {r : Reader (List Node)} (h : Reads [] r AllWithin) (separator : String)
    (stop : Ahead) : Reads [] (separated separator stop r) fun ts nss => AllWithin ts nss.flatten := by
  apply (h.separated separator stop).mono
  intro ts nss hnss n hn
  rcases List.mem_flatten.1 hn with ⟨ns, hns, hn⟩
  rcases hnss ns hns with ⟨us, hus, hwithin⟩
  exact (hwithin n hn).inside (.part hus)

theorem reads_untilNodes {r : Reader Node} (h : Reads [] r Within) (stop : Ahead) :
    Reads [] (until_ stop r) AllWithin := by
  apply (h.until_ stop).mono
  rintro _ ns ⟨pieces, rfl, hpieces⟩
  induction hpieces with
  | nil => simp
  | cons hpiece _ ih => simpa using ⟨hpiece.left _, ih.right _⟩

theorem reads_untilLists {r : Reader (List Node)} (h : Reads [] r AllWithin) (stop : Ahead) :
    Reads [] (until_ stop r) fun ts nss => AllWithin ts nss.flatten := by
  apply (h.until_ stop).mono
  rintro _ nss ⟨pieces, rfl, hpieces⟩
  induction hpieces with
  | nil => simp
  | cons hpiece _ ih => simpa using ⟨hpiece.left _, ih.right _⟩

/-! ## Literals, paths and syntactic extensions -/

theorem exists_of_literal_mark {d : Char} {joint : Bool} {e : Extent} {rest : List Token}
    (h : Ahead.literal (.mark d joint e :: rest) = true) :
    d = '-' ∧ ∃ text e' rest', rest = .literal text e' :: rest' := by
  unfold Ahead.literal at h
  split at h
  · next heq => cases heq
  · next heq => cases heq
  · next heq =>
    cases heq
    exact ⟨rfl, _, _, _, rfl⟩
  · cases h

theorem reads_literal : Reads [] literal IsValue := by
  rintro ⟨rest, last, braced⟩ n c' _ hrun
  rcases exists_of_bind hrun with ⟨_, c₁, hrequire, hrest⟩
  have hahead : Ahead.literal rest = true := of_require hrequire
  rw [Looks.same _ _ c₁ hrequire] at hrest
  cases rest with
  | nil => cases hahead
  | cons t rest =>
    cases t with
    | literal text e =>
      cases hrest
      exact ⟨[.literal text e], ⟨rfl, rfl⟩, .literal (.plain text e)
        ⟨by simp, by simp [Begin], by simp [End]⟩⟩
    | word text e =>
      cases hrest
      have htext : text = "true" ∨ text = "false" := by simpa [Ahead.literal] using hahead
      exact ⟨[.word text e], ⟨rfl, rfl⟩, .literal (.truth text e htext)
        ⟨by simp, by simp [Begin], by simp [End]⟩⟩
    | mark d joint e =>
      rcases exists_of_literal_mark hahead with ⟨rfl, text, e', rest', rfl⟩
      cases hrest
      exact ⟨[.mark '-' joint e, .literal text e'], ⟨rfl, rfl⟩,
        .literal (.negative joint e text e') ⟨by simp, by simp [Begin], by simp [End]⟩⟩
    | _ => cases hahead

instance : Eats plainPath := by
  unfold plainPath
  infer_instance

theorem allWithin_expansionArguments [g.Covering] (tokens : List Token) :
    AllWithin tokens (expansionArguments g tokens) := by
  unfold expansionArguments
  split
  · next nodes last braced hread =>
    have hcomma := reads_commaNodes ((Grammar.Covering.expression (g := g) true).mono fun _ _ h =>
      h.within)
    rcases hcomma _ _ _ (by simp [End]) hread with ⟨ts, htakes, hnodes⟩
    obtain rfl : tokens = ts := by
      rw [← List.append_nil ts]
      exact htakes.rest
    exact hnodes
  · exact allWithin_nil

theorem spell_singleton {c : Char} {ts : List Token} (h : Spell [c] ts) :
    ∃ joint e, ts = [.mark c joint e] := by
  cases h with
  | cons hfirst hrest =>
    rcases hfirst with ⟨joint, e, rfl⟩
    cases hrest
    exact ⟨joint, e, rfl⟩

theorem reads_expansion [g.Covering] (hne : us ≠ []) (start : Position) (name : String) :
    Reads us (expansion g start name) (Opened [] start fun ws found => IsValue ws found.1) := by
  unfold expansion
  apply (reads_sign "!" us).bind
  rintro _ _ ⟨ts, rfl, hspell, -⟩
  rcases spell_singleton (c := '!') hspell with ⟨joint, e, rfl⟩
  apply (reads_anyGroup _).bind
  rintro ⟨d, inner⟩ _ ⟨e', rfl⟩
  apply Reads.since
  intro stop hend
  apply Reads.pure
  intro hbegin
  apply IsValue.of _ ⟨by simp, hbegin _ rfl, hend⟩ _ ⟨rfl, by simp⟩
  · exact ((allWithin_expansionArguments inner).group d e').right _
  · exact ⟨us, joint, e, d, inner, e', hne, by simp⟩

/-! ## Attributes -/

theorem reads_attributeBody [g.Covering] :
    Reads [] (attributeBody g) fun ts found => AllWithin ts found.2 := by
  unfold attributeBody
  apply Reads.move
  intro unsafe_ ts
  extract_lets value
  have hvalue : ∀ name ws, Reads ws (value name) fun ws found => AllWithin ws found.2 := by
    intro name ws
    refine .look fun _ => .ite (.eat fun _ _ _ => .pure allWithin_nil)
      (.whether ?_ (.pure allWithin_nil))
    intro sign _
    have hliteral : Reads (ws ++ sign)
        (literal >>= fun value => require Ahead.none >>= fun _ => pure value) fun ws n => Within ws n :=
      reads_literal.call fun n own hn => .look fun _ => .pure (hn.within.right _)
    apply hliteral.attempt.bind
    rintro o ws' ⟨hsome, hnone⟩
    cases o with
    | some n => exact .pure (by simpa using hsome n rfl)
    | none =>
      refine .look fun _ => .look fun _ => .ite .failure ?_
      refine (Grammar.Covering.expression true).call fun n own hn => .pure ?_
      simpa using hn.within.right _
  refine .ite (hvalue _ _) (.move fun path _ => ?_)
  split
  · exact hvalue _ _
  · exact hvalue _ _

theorem reads_outerAttribute [g.Covering] : Reads [] (outerAttribute g) fun piece n => IsValue piece n ∧
    ∃ joint e inner e', piece = [Token.mark '#' joint e, .group .bracket inner e'] := by
  unfold outerAttribute
  apply Reads.here
  intro start
  apply (reads_sign "#" []).bind
  rintro _ _ ⟨ts, rfl, hspell, -⟩
  rcases spell_singleton (c := '#') hspell with ⟨joint, e, rfl⟩
  apply (reads_attributeBody.inside .bracket).bind
  rintro ⟨name, children⟩ _ ⟨inner, e', rfl, hchildren⟩
  apply Reads.since
  intro stop hend
  apply Reads.pure
  intro hbegin
  refine ⟨?_, joint, e, inner, e', rfl⟩
  exact .of _ ⟨by simp, hbegin _ rfl, hend⟩ trivial ⟨rfl, by simp⟩
    ((hchildren.group .bracket e').right _)

instance [g.Covering] : Eats (outerAttribute g) := reads_outerAttribute.eats fun _ _ h => h.1.nonempty

theorem reads_innerAttribute [g.Covering] : Reads [] (innerAttribute g) IsValue := by
  unfold innerAttribute
  refine .here fun start => .eat fun _ ts hts => .eat fun _ ts' _ => ?_
  apply (reads_attributeBody.inside .bracket).bind
  rintro ⟨name, children⟩ _ ⟨inner, e', rfl, hchildren⟩
  exact reads_node _ (by simp) ⟨rfl, by simp⟩ trivial ((hchildren.group .bracket e').right _)

instance [g.Covering] : Eats (innerAttribute g) := reads_innerAttribute.eats fun _ _ h => h.nonempty

theorem reads_outerAttributes [g.Covering] : Reads [] (outerAttributes g) Attributes :=
  reads_outerAttribute.until_ _

instance [g.Covering] : Moves (outerAttributes g) := by
  unfold outerAttributes
  infer_instance

theorem reads_innerAttributes [g.Covering] : Reads [] (innerAttributes g) AllWithin :=
  reads_untilNodes (reads_innerAttribute.mono fun _ _ h => h.within) _

instance [g.Covering] : Moves (innerAttributes g) := by
  unfold innerAttributes
  infer_instance

/-! ## Goals -/

section Goals

variable [g.Covering]

instance (structs : Bool) : Eats (g (.expression structs)) :=
  (Grammar.Covering.expression structs).eats fun _ _ h => h.nonempty

instance : Eats (g .attributedBlock) :=
  Grammar.Covering.attributedBlock.eats fun _ _ h => h.spans.nonempty

instance (plus : Bool) : Eats (g (.type plus)) :=
  (Grammar.Covering.type plus).eats fun _ _ h => h.nonempty

instance : Eats (g .pattern) := Grammar.Covering.pattern.eats fun _ _ h => h.nonempty

instance : Eats (g .item) := Grammar.Covering.item.eats fun _ _ h => h.nonempty

theorem reads_expressionWithin (structs : Bool) : Reads [] (g (.expression structs)) Within :=
  (Grammar.Covering.expression structs).mono fun _ _ h => h.within

theorem reads_blockWithin : Reads [] (g .block) Within :=
  Grammar.Covering.block.mono fun _ _ h => h.within

end Goals

/-! ## Paths and bounds -/

section Paths

variable [g.Covering]

instance (stop : Ahead) : Moves (lifetimeBounds stop) := by
  unfold lifetimeBounds
  infer_instance

theorem reads_quantified : Reads [] (quantified g) AllWithin := by
  unfold quantified
  refine .eat fun _ _ _ => .eat fun _ _ _ => ?_
  refine (reads_separatedLists ?_ _ _).call fun params ts hparams => .eat fun _ _ _ => .pure ?_
  · refine reads_outerAttributes.call fun attributes as hattributes => .eat fun _ _ _ => .move
      fun _ _ => ?_
    refine .ite (.move fun _ _ => .pure ?_) (.pure ?_)
    · grind [hattributes.allWithin]
    · grind [hattributes.allWithin]
  · grind

theorem reads_optionalQuantified :
    Reads [] (optionalQuantified g) fun ts o => AllWithin ts (o.getD []) ∧ (o = none → ts = []) := by
  unfold optionalQuantified
  refine .look fun _ => .ite (.map ?_) (.pure (by simp))
  exact reads_quantified.mono fun _ _ h => ⟨h, by simp⟩

instance : Eats captures := by
  unfold captures
  infer_instance

theorem reads_arrowType (plus : Bool) : Reads [] (arrowType g plus) AllWithin := by
  unfold arrowType
  refine .whether ?_ (.pure allWithin_nil)
  intro ts _
  refine (Grammar.Covering.type plus).call fun n own hn => .pure ?_
  simpa using hn.right _

theorem reads_parenthesizedArguments : Reads [] (parenthesizedArguments g) AllWithin := by
  unfold parenthesizedArguments
  apply ((reads_commaNodes (Grammar.Covering.type true)).inside .parenthesis).bind
  rintro inputs _ ⟨inner, e, rfl, hinputs⟩
  refine (reads_arrowType false).call fun output ts houtput => .pure ?_
  rw [allWithin_append]
  exact ⟨((hinputs.group .parenthesis e).right []).left ts, houtput.right _⟩

theorem reads_constantArgument : Reads [] (constantArgument g) Within := by
  unfold constantArgument
  refine .look fun _ => .ite (reads_literal.mono fun _ _ h => h.within) (.look fun _ => .ite ?_ .failure)
  exact Grammar.Covering.attributedBlock.mono fun _ _ h => h.within

theorem reads_withCallArguments {p : Path} (h : AllWithin us p.children) :
    Reads us (withCallArguments g p) fun ws p' =>
      AllWithin ws p'.children ∧ us <+: ws := by
  unfold withCallArguments
  refine .look fun _ => .ite (.move fun _ ts => ?_) (.pure ⟨h, List.prefix_refl us⟩)
  refine reads_parenthesizedArguments.call fun arguments ts' harguments => .pure ⟨?_, ?_⟩
  · grind [allWithin_append]
  · grind

theorem reads_pathSegment (expressionStyle : Bool) :
    Reads [] (pathSegment g expressionStyle) fun ts segment =>
      AllWithin ts (segment.2.getD []) ∧ ts ≠ [] := by
  unfold pathSegment
  refine .look fun _ => .ite (.eat fun name ts hts => .pure ⟨allWithin_nil, by simpa using hts⟩) ?_
  refine .look fun _ => ?_
  extract_lets rest
  have hrest : ∀ name ws, ws ≠ [] → Reads ws (rest name) fun ts segment =>
      AllWithin ts (segment.2.getD []) ∧ ts ≠ [] := by
    intro name ws hws
    refine .look fun _ => .ite (.move fun _ ts => ?_) (.pure ⟨allWithin_nil, hws⟩)
    refine Grammar.Covering.arguments.call fun n own hn => .pure ⟨?_, by simp [hws]⟩
    exact hn.children.right _
  refine .ite (.eat fun name ts hts => ?_) (.eat fun name ts hts => ?_)
  · exact hrest name _ (by simpa using hts)
  · exact hrest name _ (by simpa using hts)

theorem reads_pathSegments (expressionStyle : Bool) (goesOn : Ahead) :
    Reads [] (pathSegments g expressionStyle goesOn) fun ts segments =>
      AllWithin ts (segments.flatMap fun s => s.2.getD []) ∧ ts ≠ [] := by
  unfold pathSegments
  refine (reads_pathSegment expressionStyle).call fun first ts hfirst => ?_
  apply Reads.bind (p := fun ws segments =>
    AllWithin ws (segments.reverse.flatMap fun s => s.2.getD []) ∧ ws ≠ [])
  · apply Reads.repeated
    · simpa using hfirst
    · rintro segments ws ⟨hsegments, hws⟩
      refine .look fun _ => .ite (.eat fun _ ts _ => ?_) (.pure ⟨hsegments, hws⟩)
      refine (reads_pathSegment expressionStyle).call fun segment own hsegment => .pure
        ⟨?_, by simp [hws]⟩
      rw [List.reverse_cons, List.flatMap_append, List.flatMap_singleton, allWithin_append]
      exact ⟨(hsegments.left ts).left own, hsegment.1.right _⟩
  · rintro segments ws hsegments
    exact .pure hsegments

theorem reads_simplePath (expressionStyle : Bool) :
    Reads [] (simplePath g expressionStyle) fun ts p => AllWithin ts p.children ∧ ts ≠ [] := by
  unfold simplePath
  refine .move fun rooted ts => ?_
  refine (reads_pathSegments expressionStyle _).call fun segments own hsegments => .pure ?_
  exact ⟨hsegments.1.right _, by simp [hsegments.2]⟩

theorem reads_path (expressionStyle : Bool) :
    Reads [] (path g expressionStyle) fun ts p => AllWithin ts p.children ∧ ts ≠ [] := by
  unfold path
  refine .whether ?_ (reads_simplePath expressionStyle)
  intro ts _
  refine (Grammar.Covering.type true).call fun type own htype => .move fun _ ts' => ?_
  have htype : Within ([] ++ ts ++ own ++ ts') type := (htype.right _).left ts'
  generalize [] ++ ts ++ own ++ ts' = ws at htype ⊢
  extract_lets rest
  have hrest : ∀ (before : Option Path) ws, AllWithin ws (type :: (before.map Path.children).getD []) →
      Reads ws (rest before) fun ts p => AllWithin ts p.children ∧ ts ≠ [] := by
    intro before ws hbefore
    refine .eat fun _ ts hts => .eat fun _ ts' _ => ?_
    refine (reads_pathSegments expressionStyle _).call fun segments own hsegments => ?_
    have hall := ((hbefore.left ts).left ts').left own
    have hsegments' := hsegments.1.right (ws ++ ts ++ ts')
    rw [allWithin_cons] at hall
    cases before with
    | some p =>
      refine .pure ⟨?_, by simp [hts]⟩
      exact allWithin_append.2 ⟨allWithin_cons.2 hall, hsegments'⟩
    | none => exact .pure ⟨allWithin_cons.2 ⟨hall.1, hsegments'⟩, by simp [hts]⟩
  refine .ite ?_ (hrest none ws (by simpa using htype))
  apply Reads.call (p := fun ts o => AllWithin ts ((o.map Path.children).getD []))
  · exact .map ((reads_simplePath false).mono fun _ _ h => h.1)
  · intro before own hbefore
    exact hrest before _ (allWithin_cons.2 ⟨htype.left own, hbefore.right ws⟩)

theorem reads_traitBound (const : Bool) :
    Reads [] (traitBound g const) fun ts ns => AllWithin ts ns ∧ ts ≠ [] := by
  unfold traitBound
  refine reads_optionalQuantified.call fun before ts hbefore => .look fun _ => ?_
  extract_lets finish rest
  have hfinish : ∀ (after : Option (List Node)) ws, AllWithin ws (before.getD [] ++ after.getD []) →
      Reads ws (finish after) fun ts ns => AllWithin ts ns ∧ ts ≠ [] := by
    intro after ws hws
    refine (reads_simplePath false).call fun p own hp => ?_
    apply (reads_withCallArguments (hp.1.right ws)).bind
    rintro p' _ ⟨hp', more, rfl⟩
    exact .pure ⟨allWithin_append.2 ⟨(hws.left own).left more, hp'⟩, by simp [hp.2]⟩
  have hrest : ∀ u ws, AllWithin ws (before.getD []) →
      Reads ws (rest u) fun ts ns => AllWithin ts ns ∧ ts ≠ [] := by
    intro u ws hws
    refine .move fun maybe ts => .ite ?_ (hfinish none _ ?_)
    · refine reads_optionalQuantified.call fun after own hafter => hfinish after _ ?_
      exact allWithin_append.2 ⟨(hws.left ts).left own, hafter.1.right _⟩
    · simpa using hws.left ts
  refine .ite (.eat fun _ ts' _ => .ite .failure (hrest () _ ?_)) (.look fun _ => .ite ?_ ?_)
  · exact hbefore.1.left ts'
  · exact .eat fun _ ts' _ => .ite .failure (hrest () _ (hbefore.1.left ts'))
  · refine .look fun _ => .look fun _ => .ite ?_ (hrest () _ hbefore.1)
    refine .eat fun _ ts₁ _ => .eat fun _ ts₂ _ => .ite .failure (hrest () _ ?_)
    exact (hbefore.1.left ts₁).left ts₂

theorem reads_bound (capture const : Bool) :
    Reads [] (bound g capture const) fun ts found => AllWithin ts found.2 ∧ ts ≠ [] := by
  unfold bound
  refine .look fun _ => .ite ?_ (.look fun _ => .ite ?_ (.look fun _ => .ite ?_ ?_))
  · exact .eat fun _ ts hts => .pure ⟨allWithin_nil, by simpa using hts⟩
  · exact .eat fun _ ts hts => .ite (.pure ⟨allWithin_nil, by simpa using hts⟩) .failure
  · apply ((reads_traitBound const).inside .parenthesis).bind
    rintro ns _ ⟨inner, e, rfl, hns, -⟩
    exact .pure ⟨(hns.group .parenthesis e).right _, by simp⟩
  · exact (reads_traitBound const).call fun ns ts hns => .pure hns

instance (capture const : Bool) : Eats (bound g capture const) :=
  (reads_bound capture const).eats fun _ _ h => h.2

theorem reads_boundsUntil (const : Bool) (stop : Ahead) : Reads []
    (boundsUntil g const stop) AllWithin := by
  unfold boundsUntil
  apply Reads.bind (p := fun ws found => AllWithin ws found.reverse.flatten)
  · apply Reads.repeated (by simp)
    intro found ws hfound
    refine .look fun _ => .ite (.pure hfound) ?_
    refine (reads_bound false const).call fun children ts hchildren => .move fun _ ts' => .pure ?_
    rw [List.reverse_cons, List.flatten_append, allWithin_append, List.flatten_singleton]
    exact ⟨(hfound.left ts).left ts', (hchildren.1.right ws).left ts'⟩
  · intro found ws hfound
    exact .pure hfound

theorem reads_boundList (plus capture const : Bool) :
    Reads [] (boundList g plus capture const) fun ts found => AllWithin ts found.2 ∧ ts ≠ [] := by
  unfold boundList
  apply Reads.repeatedFrom (q := fun ts (found : Bool × List Node) => AllWithin ts found.2) allWithin_nil
    (fun _ _ h => h.1)
  rintro ⟨isTrait, found⟩ ws hfound
  refine (reads_bound capture const).call fun children ts hchildren => .move fun _ ts' => ?_
  have hall : AllWithin (ws ++ ts ++ ts') (found ++ children.2) :=
    allWithin_append.2 ⟨(hfound.left ts).left ts', (hchildren.1.right ws).left ts'⟩
  have hne : ws ++ ts ++ ts' ≠ [] := by simp [hchildren.2]
  exact .ite (.look fun _ => .pure ⟨hall, hne⟩) (.pure ⟨hall, hne⟩)

theorem reads_genericArgument : Reads [] (genericArgument g) AllWithin := by
  unfold genericArgument
  refine .look fun _ => .look fun _ => .ite (.eat fun _ _ _ => .pure allWithin_nil)
    (.look fun _ => .ite ?_ ?_)
  · exact reads_constantArgument.call fun n ts hn => .pure (by simpa using hn)
  · refine (Grammar.Covering.type true).call fun type ts htype => ?_
    have hsingle : AllWithin ([] ++ ts) [type] := by simpa using htype
    have hpair : ∀ {ts₁ own : List Token} {ns : List Node}, AllWithin own ns →
        AllWithin ([] ++ ts ++ ts₁ ++ own) (type :: ns) := fun {ts₁ own ns} hns =>
      allWithin_cons.2 ⟨(htype.left ts₁).left own, hns.right _⟩
    split
    · refine .whether (fun ts₁ _ => .look fun _ => .ite ?_ ?_)
        (.whether (fun ts₁ _ => ?_) (.pure hsingle))
      · exact reads_constantArgument.call fun n own hn => .pure (hpair (by simpa using hn))
      · exact (Grammar.Covering.type true).call fun n own hn => .pure (hpair (by simpa using hn))
      · exact (reads_boundsUntil true _).call fun ns own hns => .pure (hpair hns)
    · exact .pure hsingle

theorem reads_argumentsRule : Reads [] (argumentsRule g) Covers := by
  unfold argumentsRule
  refine .here fun start => .eat fun _ ts hts => ?_
  refine (reads_separatedLists reads_genericArgument _ _).call fun arguments own harguments => ?_
  refine .eat fun _ ts' _ => ?_
  have harguments : AllWithin ([] ++ ts ++ own ++ ts') arguments.flatten := (harguments.right _).left ts'
  apply (reads_node .other (by simp [hts]) ⟨rfl, by simp⟩ trivial harguments).mono
  intro ws n h hbegin
  exact (h hbegin).covers

end Paths

/-! ## Types -/

section Types

variable [g.Covering]

instance : Moves optionalInterface := by
  unfold optionalInterface
  infer_instance

theorem reads_functionTypeParameter (first : Bool) :
    Reads [] (functionTypeParameter g first) AllWithin := by
  unfold functionTypeParameter
  refine reads_outerAttributes.call fun attributes ts hattributes => .look fun mutSelf => ?_
  have hattributes := hattributes.allWithin
  extract_lets rest
  have hrest : ∀ u ws, AllWithin ws attributes → Reads ws (rest u) AllWithin := by
    intro u ws hws
    refine .look fun named => ?_
    extract_lets finish
    have hfinish : ∀ u ws, AllWithin ws attributes → Reads ws (finish u) AllWithin := by
      intro u ws hws
      refine .ite (.eat fun _ ts _ => .pure (hws.left ts)) ?_
      refine (Grammar.Covering.type true).call fun n own hn => .pure ?_
      exact allWithin_append.2 ⟨hws.left own, by simpa using hn.right ws⟩
    refine .ite (.eat fun _ ts _ => .eat fun _ ts' _ => hfinish () _ ?_) (hfinish () _ hws)
    exact (hws.left ts).left ts'
  exact .ite (.eat fun _ ts' _ => hrest () _ (hattributes.left ts')) (hrest () _ hattributes)

theorem reads_functionTypeParameters : Reads [] (functionTypeParameters g) AllWithin := by
  unfold functionTypeParameters
  apply Reads.bind (p := fun ws (found : List (List Node) × Bool) =>
    AllWithin ws found.1.reverse.flatten)
  · apply Reads.repeated (by simp)
    rintro ⟨found, first⟩ ws hfound
    refine .look fun _ => .ite (.pure hfound) ?_
    refine reads_outerAttributes.call fun attributes ts hattributes => .look fun variadic => .ite ?_ ?_
    · refine .look fun _ => ?_
      extract_lets finish
      have hfinish : ∀ u ws', AllWithin ws' (attributes :: found).reverse.flatten →
          Reads ws' (finish u) fun ws found => AllWithin ws found.1.1.reverse.flatten := by
        intro u ws' hws
        exact .eat fun _ ts _ => .move fun _ ts' => .pure ((hws.left ts).left ts')
      have hall : AllWithin (ws ++ ts) (attributes :: found).reverse.flatten := by
        simpa using ⟨hfound.left ts, hattributes.allWithin.right ws⟩
      refine .ite (.eat fun _ ts₁ _ => .eat fun _ ts₂ _ => hfinish () _ ?_) (hfinish () _ hall)
      exact (hall.left ts₁).left ts₂
    · refine (reads_functionTypeParameter first).call fun parameter own hparameter => .look fun _ => ?_
      have hall : AllWithin (ws ++ ts ++ own) ((attributes ++ parameter) :: found).reverse.flatten := by
        have hattributes := hattributes.allWithin
        simp only [List.reverse_cons, List.flatten_append, List.flatten_singleton, allWithin_append]
        exact ⟨(hfound.left ts).left own, (hattributes.right ws).left own, hparameter.right _⟩
      exact .ite (.pure hall) (.eat fun _ ts' _ => .pure (hall.left ts'))
  · rintro ⟨found, first⟩ ws hfound
    exact .pure hfound

theorem reads_functionType : Reads [] (functionType g) fun ts ns => AllWithin ts ns ∧ ts ≠ [] := by
  unfold functionType
  refine reads_optionalQuantified.call fun quantifiers ts hquantifiers => ?_
  refine .move fun _ ts₁ => .move fun _ ts₂ => .eat fun _ ts₃ hts₃ => ?_
  apply (reads_functionTypeParameters.inside .parenthesis).bind
  rintro parameters _ ⟨inner, e, rfl, hparameters⟩
  refine (reads_arrowType false).call fun output own houtput => .pure ⟨?_, by simp⟩
  have hparameters := hparameters.group .parenthesis e
  grind [allWithin_append]

theorem reads_moreBounds : Reads [] (moreBounds g) AllWithin := by
  unfold moreBounds
  apply Reads.bind (p := fun ws found => AllWithin ws found.reverse.flatten)
  · apply Reads.repeated (by simp)
    intro found ws hfound
    refine .whether (fun ts _ => ?_) (.pure hfound)
    refine (reads_bound false false).call fun children own hchildren => .pure ?_
    rw [List.reverse_cons, List.flatten_append, allWithin_append, List.flatten_singleton]
    exact ⟨(hfound.left ts).left own, hchildren.1.right (ws ++ ts)⟩
  · intro found ws hfound
    exact .pure hfound

theorem reads_parenthesizedType (plus : Bool) : Reads [] (parenthesizedType g plus) IsValue := by
  unfold parenthesizedType
  apply Reads.here
  intro start
  apply (Reads.inside .parenthesis (p := fun ts (found : Form × List Node × Bool) =>
    AllWithin ts found.2.1) _).bind
  · rintro ⟨form, children, list⟩ _ ⟨inner, e, rfl, hchildren⟩
    have hchildren : AllWithin ([] ++ [Token.group .parenthesis inner e]) children :=
      hchildren.group .parenthesis e
    have hmore : Reads ([] ++ [.group .parenthesis inner e])
        (moreBounds g >>= fun more => since start >>= fun e =>
          pure (Node.mk (.bounds false) e (children ++ more))) (Opened [] start IsValue) := by
      refine reads_moreBounds.call fun more own hmore => reads_node _ (by simp) ⟨rfl, by simp⟩ trivial ?_
      exact allWithin_append.2 ⟨hchildren.left own, hmore.right _⟩
    have hother : Reads ([] ++ [.group .parenthesis inner e])
        (since start >>= fun e => pure (Node.mk .other e children)) (Opened [] start IsValue) :=
      reads_node _ (by simp) ⟨rfl, by simp⟩ trivial hchildren
    dsimp only
    split
    · exact hmore
    · exact .look fun _ => .ite hmore hother
    · exact .look fun _ => .ite hmore hother
    · exact hother
  · refine .look fun _ => .ite (.pure allWithin_nil) (.look fun _ => .ite ?_ (.look fun _ => .ite ?_ ?_))
    · refine (reads_boundList true false false).call fun found ts hfound => .ite .failure
        (.pure hfound.1)
    · exact (reads_traitBound false).call fun ns ts hns => .pure hns.1
    · refine (Grammar.Covering.type true).call fun first ts hfirst => .whether (fun ts' _ => ?_)
        (.pure ?_)
      · refine (reads_commaNodes (Grammar.Covering.type true)).call fun more own hmore => .pure ?_
        exact allWithin_cons.2 ⟨(hfirst.left ts').left own, hmore.right _⟩
      · simpa using hfirst

/-- The end of a reader that makes a node of its own tokens and gives it the tokens before them. -/
theorem reads_nodeStartingAt {start start' : Position} {form : Form} {children : List Node}
    (hne : us ≠ []) (hform : form.isChain = false ∧ form ≠ .block) (hshaped : form.Shaped us)
    (h : AllWithin us children) :
    Reads us (since start' >>= fun e => pure (Node.mk form e children))
      (Opened [] start fun ws n => IsValue ws (n.startingAt start)) := by
  apply Reads.since
  intro stop hend
  apply Reads.pure
  intro hbegin
  exact .of _ ⟨hne, hbegin us rfl, hend⟩ hshaped hform h

theorem reads_pathType {quantifiers : Option (List Node)} (h : AllWithin us (quantifiers.getD []))
    (plus : Bool) (start : Position) : Reads us (pathType g quantifiers plus)
      (Opened [] start fun ws n => IsValue ws (n.startingAt start)) := by
  unfold pathType
  refine .here fun start' => (reads_path false).call fun named ts hnamed => ?_
  apply ((reads_withCallArguments hnamed.1).frame us).bind
  rintro p _ ⟨ws, rfl, hp, hws⟩
  have hne : ws ≠ [] := by
    rintro rfl
    exact hnamed.2 (List.prefix_nil.1 hws)
  have hp' : AllWithin (us ++ ws) p.children := hp.right us
  have hnode {form : Form} {children : List Node} {vs : List Token} : vs ≠ [] →
      form.isChain = false ∧ form ≠ .block → form.Shaped vs → AllWithin vs children →
        Reads vs (since start' >>= fun e => pure (Node.mk form e children))
          (Opened us start' (Opened [] start fun ws n => IsValue ws (n.startingAt start))) := by
    intro hvs hform hshaped hchildren
    exact (reads_nodeStartingAt hvs hform hshaped hchildren).mono fun _ _ hn _ => hn
  refine .ite (hnode (by simp [hne]) ⟨rfl, by simp⟩ trivial hp')
    (.look fun _ => .look fun _ => .ite ?_ ?_)
  · apply ((reads_expansion hne start' p.name).frame us).bind
    rintro ⟨n, d⟩ _ ⟨own, rfl, hn⟩
    apply Reads.since
    intro stop hend
    apply Reads.pure
    intro hown hbegin
    have hvalue : IsValue own n := hn fun ts hts => hown ts (congrArg (us ++ ·) hts)
    have hspans : Extent.Spans ⟨start, stop⟩ (us ++ own) :=
      ⟨by simp [hvalue.nonempty], hbegin _ rfl, hend⟩
    have hwithin : AllWithin (us ++ own) [n] := by simpa using hvalue.within.right us
    exact IsValue.other hspans hwithin
  · refine .look fun _ => .ite ?_ (hnode (by simp [hne]) ⟨rfl, by simp⟩ trivial hp')
    apply Reads.bind (p := fun vs (found : List Node × Bool) => AllWithin vs found.1 ∧ vs ≠ [])
    · apply Reads.repeated
      · exact ⟨allWithin_append.2 ⟨h.left ws, hp'⟩, by simp [hne]⟩
      · rintro ⟨found, single⟩ vs ⟨hfound, hvs⟩
        refine .move fun _ ts => .ite (.look fun _ => .ite ?_ (.pure ⟨hfound.left ts, by simp [hvs]⟩)) ?_
        · refine (reads_bound false false).call fun children own hchildren => .pure ⟨?_, by simp [hvs]⟩
          exact allWithin_append.2 ⟨(hfound.left ts).left own, hchildren.1.right _⟩
        · exact .pure ⟨hfound.left ts, by simp [hvs]⟩
    · rintro ⟨children, single⟩ vs ⟨hchildren, hvs⟩
      exact hnode hvs ⟨rfl, by simp⟩ trivial hchildren

theorem reads_elementTypes : Reads [] (g (.type true) >>= fun element => optionalSign ";" >>=
    fun sized =>
    if sized = true then g (.expression true) >>= fun size => pure [element, size] else pure [element])
    AllWithin := by
  refine (Grammar.Covering.type true).call fun element ts helement => .whether (fun ts' _ => ?_)
    (.pure ?_)
  · refine (reads_expressionWithin true).call fun size own hsize => .pure ?_
    have helement : Within ([] ++ ts ++ ts' ++ own) element := (helement.left ts').left own
    exact allWithin_cons.2 ⟨helement, allWithin_cons.2 ⟨hsize.right _, allWithin_nil⟩⟩
  · simpa using helement

theorem reads_typeRule (plus : Bool) : Reads [] (typeRule g plus) Within := by
  unfold typeRule
  refine .here fun start => reads_optionalQuantified.call fun quantifiers qs hquantifiers => ?_
  extract_lets other pointer rest
  have hother : ∀ ws children, ws ≠ [] → AllWithin ws children →
      Reads ws (other children) (Opened [] start Within) := by
    intro ws children hws hchildren
    apply (reads_node .other hws ⟨rfl, by simp⟩ trivial hchildren).mono
    exact fun _ _ hn hbegin => (hn hbegin).within
  have htype : ∀ {ws}, ws ≠ [] →
      Reads ws (g (.type false) >>= fun n => other [n]) (Opened [] start Within) := by
    intro ws hws
    refine (Grammar.Covering.type false).call fun n own hn => hother _ _ (by simp [hws]) ?_
    simpa using hn.right ws
  have hrest : ∀ u, Reads ([] ++ qs) (rest u) (Opened [] start Within) := by
    intro u
    refine .look fun _ => .ite ?_ (.look fun _ => .ite ?_ (.look fun _ => .ite ?_ (.whether ?_ ?_)))
    · exact (reads_parenthesizedType plus).last fun n own hn _ => hn.within.right _
    · refine reads_functionType.call fun children own hchildren => hother _ _ (by simp [hchildren.2]) ?_
      exact allWithin_append.2 ⟨hquantifiers.1.left own, hchildren.1.right _⟩
    · apply (reads_pathType hquantifiers.1 plus start).bind
      intro n ws hn
      exact .pure fun hbegin => (hn hbegin).within
    · intro ts hts
      refine .move fun star ts' => (reads_boundList plus false false).call fun found own hfound => ?_
      refine .ite .failure (hother _ _ (by simp [hts]) ?_)
      split
      · exact allWithin_nil
      · exact hfound.1.right _
    · refine .look fun _ => .ite ?_ (.whether ?_ (.whether ?_
        (.whether ?_ (.whether ?_ (.whether ?_ ?_)))))
      · apply (reads_elementTypes.inside .bracket).bind
        rintro children _ ⟨inner, e, rfl, hchildren⟩
        exact hother _ _ (by simp) ((hchildren.group .bracket e).right _)
      · intro ts hts
        exact .move fun _ ts' => .ite (.eat fun _ ts'' _ => htype (by simp [hts]))
          (htype (by simp [hts]))
      · intro ts hts
        exact .move fun _ ts₁ => .move fun _ ts₂ => htype (by simp [hts])
      · exact fun ts hts => hother _ _ (by simp [hts]) allWithin_nil
      · intro ts hts
        refine (reads_boundList plus true true).call fun found own hfound => .ite .failure ?_
        exact hother _ _ (by simp [hts]) (hfound.1.right _)
      · exact fun ts hts => hother _ _ (by simp [hts]) allWithin_nil
      · refine .look fun _ => .ite ?_ .failure
        refine (reads_boundList true false false).call fun found own hfound => .ite .failure ?_
        apply (reads_node (.bounds false) (by simp [hfound.2]) ⟨rfl, by simp⟩ trivial
          (hfound.1.right _)).mono
        exact fun _ _ hn hbegin => (hn hbegin).within
  exact .ite (.look fun _ => hrest ()) (hrest ())

end Types

/-! ## Patterns -/

section Patterns

variable [g.Covering]

theorem reads_alternatives : Reads [] (alternatives g) Within := by
  unfold alternatives
  refine .here fun start => .move fun leading ts => Grammar.Covering.pattern.call
    fun first own hfirst => ?_
  refine .look fun _ => .ite ?_ (.pure fun _ => hfirst.right _)
  apply Reads.bind (p := fun ws cases => AllWithin ws cases ∧ ws ≠ [])
  · apply Reads.repeated
    · exact ⟨by simpa using hfirst.right _, by simp [hfirst.nonempty]⟩
    · rintro cases ws ⟨hcases, hws⟩
      refine .look fun _ => .ite (.eat fun _ ts _ => ?_) (.pure ⟨hcases, hws⟩)
      refine Grammar.Covering.pattern.call fun n own hn => .pure ⟨?_, by simp [hws]⟩
      exact allWithin_cons.2 ⟨hn.right _, (hcases.left ts).left own⟩
  · rintro cases ws ⟨hcases, hws⟩
    apply reads_nodeWithin .other hws ⟨rfl, by simp⟩ trivial
    simpa [AllWithin] using hcases

instance (old : Bool) : Eats (patternLimits old) := by
  unfold patternLimits
  dsimp only
  infer_instance

theorem reads_rangeBound : Reads [] (rangeBound g) fun ts o => ∀ n ∈ o, Within ts n := by
  unfold rangeBound
  refine .look fun _ => .ite (.pure (by simp)) (.here fun start => .look fun _ => .ite ?_ ?_)
  · refine reads_literal.call fun n ts hn => .pure fun _ => ?_
    simpa using hn.within
  · refine .look fun _ => .ite ?_ (.whether ?_ .failure)
    · refine (reads_path true).call fun p ts hp => ?_
      refine reads_nodeThen .other some hp.2 ⟨rfl, by simp⟩ trivial hp.1 fun n hn => ?_
      simpa using hn.within
    · intro ts hts
      refine Grammar.Covering.attributedBlock.call fun block own hblock => ?_
      refine reads_nodeThen .other some (by simp [hts]) ⟨rfl, by simp⟩ trivial
        (hblock.children.right _) fun n hn => ?_
      simpa using hn.within

/-- The lower bound has been read by the same reader, so it may begin where the range begins. -/
theorem reads_rangePattern {start : Position} {lower : List Node}
    (h : Begin start us → AllWithin us lower) :
    Reads us (rangePattern g start lower) (Opened [] start Within) := by
  have hrange : ∀ {form : Form} (upper : List Node) {ts : List Token},
    (form = .other ∨ form = .openRange) →
      ts ≠ [] → AllWithin ts upper → Reads (us ++ ts)
        (since start >>= fun e => pure (Node.mk form e (lower ++ upper))) (Opened [] start Within) := by
    intro form upper ts hform hts hupper
    refine .since fun stop hend => .pure fun hbegin => ?_
    have hbegin := hbegin _ rfl
    have hall : AllWithin (us ++ ts) (lower ++ upper) :=
      allWithin_append.2 ⟨(h hbegin.of_append).left ts, hupper.right us⟩
    have hspans : Extent.Spans ⟨start, stop⟩ (us ++ ts) := ⟨by simp [hts], hbegin, hend⟩
    rcases hform with rfl | rfl
    · exact (IsValue.other hspans hall).within
    · exact (IsValue.of .openRange hspans trivial ⟨rfl, by simp⟩ hall).within
  unfold rangePattern
  refine .eat fun closed ts hts => reads_rangeBound.call fun upper own hupper => ?_
  rw [List.append_assoc]
  cases upper with
  | some upper =>
    have hupper : AllWithin (ts ++ own) [upper] := by simpa using (hupper upper rfl).right ts
    exact hrange [upper] (.inl rfl) (by simp [hts]) hupper
  | none =>
    have hopen := hrange [] (.inr rfl) (List.append_ne_nil_of_left_ne_nil hts own) allWithin_nil
    rw [List.append_nil] at hopen
    exact .ite .failure hopen

instance : Eats fieldName := by
  unfold fieldName
  refine ⟨.look fun _ => .ite Eats.reads (.eat fun t ts hts => ?_)⟩
  cases t with
  | literal text e => exact .ite (.pure (by simpa using hts)) .failure
  | _ => exact .failure

theorem reads_fieldPattern : Reads [] (fieldPattern g) AllWithin := by
  unfold fieldPattern
  refine .move fun _ ts₁ => .move fun _ ts₂ => .move fun _ ts₃ => ?_
  extract_lets bare rest
  have hrest : ∀ named ws, Reads ws (rest named) AllWithin := by
    intro named ws
    refine .look fun _ => .ite (.eat fun _ ts _ => ?_) (.pure allWithin_nil)
    exact reads_alternatives.call fun n own hn => .pure (by simpa using hn.right (ws ++ ts))
  exact .ite (.eat fun named ts _ => hrest named _) (.move fun named ts => hrest named _)

theorem reads_fieldPatterns : Reads [] (fieldPatterns g) AllWithin := by
  unfold fieldPatterns
  apply Reads.bind (p := fun ws found => AllWithin ws found.reverse.flatten)
  · apply Reads.repeated (by simp)
    intro found ws hfound
    refine .look fun _ => .ite (.pure hfound) ?_
    refine reads_outerAttributes.call fun attributes ts hattributes => .whether
      (fun ts' _ => .pure ?_) ?_
    · have hattributes := (hattributes.allWithin.right ws).left ts'
      rw [List.reverse_cons, List.flatten_append, allWithin_append, List.flatten_singleton]
      exact ⟨(hfound.left ts).left ts', hattributes⟩
    · refine reads_fieldPattern.call fun field own hfield => .look fun _ => ?_
      have hall : AllWithin (ws ++ ts ++ own) ((attributes ++ field) :: found).reverse.flatten := by
        have hattributes := (hattributes.allWithin.right ws).left own
        simp only [List.reverse_cons, List.flatten_append, List.flatten_singleton, allWithin_append]
        exact ⟨(hfound.left ts).left own, hattributes, hfield.right _⟩
      exact .ite (.pure hall) (.eat fun _ ts' _ => .pure (hall.left ts'))
  · intro found ws hfound
    exact .pure hfound

theorem reads_pathPattern : Reads [] (pathPattern g) Within := by
  unfold pathPattern
  refine .here fun start => (reads_path true).call fun p ts hp => .look fun _ => .look fun _ => ?_
  have hnode : ∀ {own : List Token} {ns : List Node}, AllWithin own ns → Reads ([] ++ ts ++ own)
      (since start >>= fun e => pure (Node.mk .other e (p.children ++ ns)))
      (Opened [] start Within) := by
    intro own ns hns
    refine reads_nodeWithin _ (by simp [hp.2]) ⟨rfl, by simp⟩ trivial ?_
    exact allWithin_append.2 ⟨hp.1.left own, hns.right _⟩
  refine .ite ?_ (.look fun _ => .ite ?_ (.look fun _ => .ite ?_ (.look fun _ => .ite ?_ ?_)))
  · apply (reads_expansion hp.2 start p.name).bind
    rintro ⟨n, d⟩ ws hn
    refine .since fun stop hend => .pure fun hbegin => ?_
    have hvalue : IsValue ws n := hn hbegin
    have hspans : Extent.Spans ⟨start, stop⟩ ws := ⟨hvalue.nonempty, hbegin ws rfl, hend⟩
    exact (IsValue.other hspans (by simpa using hvalue.within)).within
  · apply (reads_fieldPatterns.inside .brace).bind
    rintro fields _ ⟨inner, e, rfl, hfields⟩
    exact hnode (hfields.group .brace e)
  · apply ((reads_commaNodes reads_alternatives).inside .parenthesis).bind
    rintro elements _ ⟨inner, e, rfl, helements⟩
    exact hnode (helements.group .parenthesis e)
  · refine .since fun stop hend => reads_rangePattern fun hbegin => ?_
    have hspans : Extent.Spans ⟨start, stop⟩ ([] ++ ts) := ⟨hp.2, hbegin, hend⟩
    simpa using (IsValue.other hspans hp.1).within
  · exact reads_nodeWithin _ hp.2 ⟨rfl, by simp⟩ trivial hp.1

theorem reads_patternRule : Reads [] (patternRule g) Within := by
  unfold patternRule
  refine .here fun start => ?_
  extract_lets other binding
  have hother : ∀ {ws children}, ws ≠ [] → AllWithin ws children →
      Reads ws (other children) (Opened [] start Within) := fun hws hchildren =>
    reads_nodeWithin .other hws ⟨rfl, by simp⟩ trivial hchildren
  have hpattern : ∀ {ws}, ws ≠ [] →
      Reads ws (g .pattern >>= fun n => other [n]) (Opened [] start Within) := by
    intro ws hws
    refine Grammar.Covering.pattern.call fun n own hn => hother (by simp [hws]) ?_
    simpa using hn.right ws
  have hbinding : ∀ {ws} u, ws ≠ [] → Reads ws (binding u) (Opened [] start Within) := by
    intro ws u hws
    exact .whether (fun ts _ => hpattern (by simp [hws])) (hother hws allWithin_nil)
  refine .look fun _ => .ite ?_ (.whether ?_ (.whether ?_
    (.look fun _ => .ite ?_ (.look fun _ => .ite ?_ ?_))))
  · exact reads_pathPattern.mono fun _ _ hn _ => hn
  · exact fun ts hts => hother hts allWithin_nil
  · exact fun ts hts => .eat fun _ ts' _ => hother (by simp [hts]) allWithin_nil
  · refine reads_rangeBound.call fun lower ts hlower => ?_
    cases lower with
    | none => exact .failure
    | some lower =>
      refine .look fun _ => .ite (reads_rangePattern fun _ => ?_) (.pure fun _ => hlower lower rfl)
      simpa using hlower lower rfl
  · refine .move fun _ ts₁ => .move fun _ ts₂ => .unless (.eat fun _ ts hts => ?_) fun ts hts => ?_
    · exact hbinding () (by simp [hts])
    · exact hbinding () (by simp [hts])
  · refine .whether ?_ (.look fun _ => .ite ?_ (.look fun _ => .ite ?_
      (.look fun _ => .look fun _ => .ite ?_ ?_)))
    · exact fun ts hts => .move fun _ ts' => hpattern (by simp [hts])
    · apply ((reads_commaNodes reads_alternatives).inside .parenthesis).bind
      rintro elements _ ⟨inner, e, rfl, helements⟩
      exact hother (by simp) (helements.group .parenthesis e)
    · apply ((reads_commaNodes reads_alternatives).inside .bracket).bind
      rintro elements _ ⟨inner, e, rfl, helements⟩
      exact .ite .failure (hother (by simp) (helements.group .bracket e))
    · refine .eat fun closed ts hts => reads_rangeBound.call fun upper own hupper => ?_
      cases upper with
      | some upper =>
        refine reads_nodeWithin .openRange (by simp [hts]) ⟨rfl, by simp⟩ trivial ?_
        simpa using (hupper upper rfl).right ts
      | none => exact .ite .failure (hother (by simp [hts]) allWithin_nil)
    · exact .failure

end Patterns

end Reader

end LintMend.Rust
