import LintMend.Proofs.GrammarExtents

/-!
# Extents of expressions and statements

An operand covers the tokens it takes, and each operator, call or selection behind it makes a node that
covers one stretch more. What stands in braces is divided up among the statements that are read there.
-/

namespace LintMend.Rust.Reader

variable {us vs : List Token} {g : Grammar} [g.Covering]

/-! ## Operators -/

/-- The end of a reader that makes a node of an expression and of what stands behind it. -/
theorem reads_nodeAfter {α : Type} {p : List Token → α → Prop} (form : Form) (f : Node → α) {e : Node}
    {ns : List Node} (he : IsValue vs e) (hstarts : vs <+: us) (hform : form ≠ .block)
    (hshaped : form.Shaped us) (h : AllWithin us ns) (hp : ∀ n, IsValue us n → p us (f n)) :
    Reads us (since e.extent.start >>= fun x => pure (f (Node.mk form x (e :: ns)))) p := by
  apply Reads.since
  intro stop hend
  apply Reads.pure
  exact hp _ (he.after hstarts hend hform hshaped h)

theorem reads_rightOperand (structs : Bool) (strength : Nat) :
    Reads [] (rightOperand g structs strength) IsValue := by
  unfold rightOperand
  apply (Grammar.Covering.operand structs).bind
  intro first ws hfirst
  apply Reads.repeated hfirst
  intro right ws hright
  refine .look fun c => .ite (.look fun c' => ?_) (.pure hright)
  apply (Grammar.Covering.operators structs _ hright).bind
  intro right' ws' hright'
  exact .look fun _ => .pure hright'

theorem reads_rangeRest (structs : Bool) :
    Reads [] (rangeRest g structs) fun ts ns => AllWithin ts ns ∧ ts ≠ [] := by
  have hright : ∀ {ts : List Token}, ts ≠ [] → Reads ts
      (rightOperand g structs Strength.range >>= fun n => pure [n])
      fun ts ns => AllWithin ts ns ∧ ts ≠ [] := by
    intro ts hts
    refine (reads_rightOperand structs Strength.range).call fun n own hn => .pure ⟨?_, by simp [hts]⟩
    simpa using hn.within.right ts
  unfold rangeRest
  refine .look fun _ => .ite (.eat fun _ ts hts => hright hts) (.look fun _ => .ite .failure ?_)
  refine .eat fun _ ts hts => .look fun _ => .ite (.pure ⟨allWithin_nil, hts⟩) (hright hts)

instance : Looks castEnds := by
  unfold castEnds
  infer_instance

/-- An operator and its operands. -/
theorem reads_operatorStep {left : Node} (h : IsValue us left) (structs : Bool) (base : Nat) :
    Reads us (operatorStep g structs base left) fun ws found => IsValue ws found.1 := by
  unfold operatorStep
  refine .ite (.pure h) (.look fun c => ?_)
  split
  · next text strength _ =>
    refine .ite (.pure h) (.ite .failure ?_)
    apply (reads_sign text us).bind
    rintro _ _ ⟨ts, rfl, hspell, hts⟩
    refine (reads_rightOperand structs strength).call fun right own hright => ?_
    refine reads_nodeAfter (.binary text) (fun n => (n, true)) h ⟨ts ++ own, by simp⟩ (by simp) ?_ ?_
      fun n hn => hn
    · exact ⟨us, ts, own, h.nonempty, hright.nonempty, hspell, by simp⟩
    · simpa using hright.within.right (us ++ ts)
  · refine .look fun _ => .ite (.eat fun _ ts _ => ?_) (.look fun _ => .ite ?_
      (.look fun _ => .ite ?_ (.pure h)))
    · refine (reads_rightOperand structs _).call fun right own hright => ?_
      refine reads_nodeAfter .assign (fun n => (n, true)) h ⟨ts ++ own, by simp⟩ (by simp) trivial ?_
        fun n hn => hn
      simpa using hright.within.right (us ++ ts)
    · refine (reads_rangeRest structs).call fun upper own hupper => ?_
      exact reads_nodeAfter .range (fun n => (n, true)) h ⟨own, rfl⟩ (by simp) trivial
        (hupper.1.right us) fun n hn => hn
    · refine .eat fun _ ts _ => (Grammar.Covering.type false).call fun type own htype => .look
        fun _ => ?_
      refine reads_nodeAfter .cast (fun n => (n, true)) h ⟨ts ++ own, by simp⟩ (by simp) trivial ?_
        fun n hn => hn
      simpa using htype.right (us ++ ts)

theorem reads_operatorsRule {left : Node} (h : IsValue us left) (structs : Bool) (base : Nat) :
    Reads us (operatorsRule g left structs base) IsValue := by
  unfold operatorsRule
  apply Reads.repeated h
  intro left ws hleft
  exact reads_operatorStep hleft structs base

theorem reads_expressionRule (structs : Bool) : Reads [] (expressionRule g structs) IsValue := by
  unfold expressionRule
  apply (Grammar.Covering.operand structs).bind
  intro left ws hleft
  exact Grammar.Covering.operators structs 0 hleft

/-! ## What follows an operand -/

theorem reads_callArguments : Reads us (callArguments g) fun ws ns =>
    ∃ inner e, ws = us ++ [.group .parenthesis inner e] ∧ AllWithin inner ns :=
  (reads_commaNodes (reads_expressionWithin true)).inside .parenthesis

theorem reads_afterPoint {e : Node} (h : IsValue vs e) (hstarts : vs <+: us) :
    Reads us (afterPoint g e) IsValue := by
  unfold afterPoint
  extract_lets start field rest
  have hfield : ∀ {ws}, us <+: ws → Reads ws field IsValue := fun hws =>
    reads_nodeAfter .other id h (hstarts.trans hws) (by simp) trivial allWithin_nil fun _ hn => hn
  have hrest : ∀ {ws} more, us <+: ws → Reads ws (rest more) IsValue := by
    intro ws more hws
    have hmore : ∀ {ts : List Token}, us <+: ws ++ ts := hws.trans (List.prefix_append ws _)
    refine .ite (hfield hws) (.whether (fun ts _ => hfield hmore)
      (.here fun method => .look fun _ => ?_))
    refine .ite ?_ (.eat fun _ ts _ => (hfield hmore).mono fun _ _ hn _ => hn)
    apply (reads_identifier ws).bind
    rintro name _ ⟨x, rfl⟩
    refine .move fun _ ts => ?_
    extract_lets call
    have hcall : ∀ (generic : Option Node) ts, AllWithin ts ((generic.map Node.children).getD []) →
        Reads (ws ++ ([.word name x] ++ ts)) (call generic) (Opened ws method IsValue) := by
      intro generic ts htypes
      refine .look fun _ => .ite ?_ ((hfield hmore).mono fun _ _ hn _ => hn)
      apply reads_callArguments.bind
      rintro arguments _ ⟨inner, y, rfl, harguments⟩
      refine .since fun stop hend => .pure fun hbegin => ?_
      rw [List.append_assoc] at hend hbegin ⊢
      have hmethod : x.start = method := hbegin _ rfl _ rfl
      have htypes := ((htypes.right [.word name x]).left [.group .parenthesis inner y]).right ws
      have harguments := ((harguments.group .parenthesis y).right ([.word name x] ++ ts)).right ws
      have hne : ws ≠ [] := by
        rintro rfl
        exact h.nonempty (List.prefix_nil.1 (hstarts.trans hws))
      exact h.after (hstarts.trans hmore) hend (by simp)
        ⟨ws, x, ts, inner, y, hne, hmethod.symm, by simp⟩
        (allWithin_append.2 ⟨htypes, harguments⟩)
    refine .ite ?_ ?_
    · apply Reads.call (p := fun ts generic => AllWithin ts ((generic.map Node.children).getD []))
      · exact .map (Grammar.Covering.arguments.mono fun _ _ hn => hn.children)
      · intro generic own hgeneric
        rw [List.append_assoc, List.append_assoc]
        exact hcall generic _ (hgeneric.right ts)
    · rw [List.append_assoc]
      exact hcall none ts allWithin_nil
  refine .look fun c => ?_
  split
  · refine .ite ?_ (hrest true (List.prefix_refl us))
    split
    · next trailing _ => exact .eat fun _ ts _ => hrest trailing (List.prefix_append us ts)
    · exact .failure
  · exact hrest true (List.prefix_refl us)

theorem reads_trailerStep {e : Node} (h : IsValue us e) :
    Reads us (trailerStep g e) fun ws found => IsValue ws found.1 := by
  unfold trailerStep
  refine .look fun _ => .ite ?_ (.look fun _ => .ite ?_
    (.look fun _ => .ite ?_ (.look fun _ => .ite ?_ (.pure h))))
  · apply reads_callArguments.bind
    rintro arguments _ ⟨inner, x, rfl, harguments⟩
    exact reads_nodeAfter _ (fun n => (n, true)) h (List.prefix_append us _) (by simp)
      ⟨us, inner, x, h.nonempty, rfl⟩ ((harguments.group .parenthesis x).right us) fun _ hn => hn
  · refine .eat fun _ ts _ => ?_
    apply (reads_afterPoint h (List.prefix_append us ts)).bind
    exact fun n ws hn => .pure hn
  · apply ((reads_expressionWithin true).inside .bracket).bind
    rintro index _ ⟨inner, x, rfl, hindex⟩
    refine reads_nodeAfter .other (fun n => (n, true)) h (List.prefix_append us _) (by simp) trivial ?_
      fun _ hn => hn
    simpa using (hindex.group .bracket x).right us
  · exact .eat fun _ ts _ => reads_nodeAfter .other (fun n => (n, true)) h
      (List.prefix_append us ts) (by simp) trivial allWithin_nil fun _ hn => hn

theorem reads_trailers {e : Node} (h : IsValue us e) : Reads us (trailers g e) IsValue := by
  unfold trailers
  apply Reads.repeated h
  exact fun e ws he => reads_trailerStep he

/-! ## Control flow -/

/-- The node covers the tokens and ends in a block. -/
def IsBlockLike (ts : List Token) (n : Node) : Prop := IsValue ts n ∧ n.form = .blockLike

theorem reads_withBlock {start : Position} {children : List Node} (h : AllWithin us children) :
    Reads us (withBlock g .blockLike start children) (Opened [] start IsBlockLike) := by
  unfold withBlock
  refine Grammar.Covering.attributedBlock.call fun body own hbody => ?_
  refine .since fun stop hend => .pure fun hbegin => ⟨?_, rfl⟩
  have hspans : Extent.Spans ⟨start, stop⟩ (us ++ own) :=
    ⟨by simp [hbody.spans.nonempty], hbegin _ rfl, hend⟩
  have hbody := hbody.children.right us
  have hattributes : AllWithin (us ++ own) body.children.dropLast := fun n hn =>
    hbody n (List.dropLast_subset _ hn)
  have hblock : AllWithin (us ++ own) body.children.getLast?.toList := fun n hn =>
    hbody n (List.mem_of_getLast? (Option.mem_toList.1 hn))
  exact .of _ hspans trivial ⟨rfl, by simp⟩
    (allWithin_append.2 ⟨allWithin_append.2 ⟨hattributes, h.left own⟩, hblock⟩)

theorem reads_conditional : Reads [] (conditional g) IsValue := by
  unfold conditional
  refine .here fun start => ?_
  apply Reads.bind (p := fun ws found => AllWithin ws found ∧ ws ≠ [])
  · apply Reads.repeatedFrom (q := AllWithin) allWithin_nil fun _ _ h => h.1
    intro found ws hfound
    refine .eat fun _ ts hts => (reads_expressionWithin false).call fun condition ts₁ hcondition => ?_
    refine reads_blockWithin.call fun block ts₂ hblock => ?_
    have hall : AllWithin (ws ++ ts ++ ts₁ ++ ts₂) (found ++ [condition, block]) := by
      have hcondition := (hcondition.right (ws ++ ts)).left ts₂
      have hfound := ((hfound.left ts).left ts₁).left ts₂
      exact allWithin_append.2 ⟨hfound, allWithin_cons.2 ⟨hcondition, (hblock.right _).only⟩⟩
    refine .whether (fun ts₃ _ => .look fun _ => .ite ?_ ?_) (.pure ⟨hall, by simp [hts]⟩)
    · exact .pure ⟨hall.left ts₃, by simp [hts]⟩
    · refine reads_blockWithin.call fun last own hlast => .pure ⟨?_, by simp [hts]⟩
      exact allWithin_append.2 ⟨(hall.left ts₃).left own, (hlast.right _).only⟩
  · rintro found ws ⟨hfound, hws⟩
    exact reads_node _ hws ⟨rfl, by simp⟩ trivial hfound

theorem reads_matchArm : Reads [] (matchArm g) AllWithin := by
  unfold matchArm
  refine reads_outerAttributes.call fun attributes ts hattributes => ?_
  refine reads_alternatives.call fun pattern ts₁ hpattern => ?_
  have hbefore : AllWithin ([] ++ ts ++ ts₁) (attributes ++ [pattern]) :=
    allWithin_append.2 ⟨hattributes.allWithin.left ts₁, (hpattern.right _).only⟩
  refine .move fun _ ts₂ => ?_
  extract_lets rest
  have hrest : ∀ guard {ws}, AllWithin ws (attributes ++ [pattern] ++ guard) →
      Reads ws (rest guard) AllWithin := by
    intro guard ws hguard
    refine .eat fun _ ts _ => Grammar.Covering.statementExpression.call fun body own hbody => .look
      fun _ => ?_
    have hall : AllWithin (ws ++ ts ++ own) (attributes ++ [pattern] ++ guard ++ [body]) :=
      allWithin_append.2 ⟨(hguard.left ts).left own, (hbody.within.right _).only⟩
    exact .ite (.eat fun _ ts' _ => .pure (hall.left ts')) (.move fun _ ts' => .pure (hall.left ts'))
  refine .ite ?_ (hrest [] ?_)
  · refine (reads_expressionWithin true).call fun n own hn => hrest [n] ?_
    exact allWithin_append.2 ⟨(hbefore.left ts₂).left own, (hn.right _).only⟩
  · simpa using hbefore.left ts₂

theorem reads_matchExpression : Reads [] (matchExpression g) IsValue := by
  unfold matchExpression
  refine .here fun start => .eat fun _ ts _ => (reads_expressionWithin false).call
    fun subject own hsubject => ?_
  have harms : Reads [] (do
      let attributes ← innerAttributes g
      let arms ← until_ Ahead.none (matchArm g)
      pure (attributes, arms)) fun ts found => AllWithin ts (found.1 ++ found.2.flatten) := by
    refine reads_innerAttributes.call fun attributes ts hattributes => ?_
    refine (reads_untilLists reads_matchArm _).call fun arms own harms => .pure ?_
    exact allWithin_append.2 ⟨hattributes.left own, harms.right _⟩
  apply (harms.inside .brace).bind
  rintro ⟨attributes, arms⟩ _ ⟨inner, x, rfl, harms⟩
  refine reads_node _ (by simp) ⟨rfl, by simp⟩ trivial ?_
  have harms := harms.group .brace x
  have hsubject := hsubject.only
  grind [allWithin_append]

theorem reads_forLoop : Reads [] (forLoop g) IsBlockLike := by
  unfold forLoop
  refine .here fun start => .eat fun _ ts _ => reads_alternatives.call fun pattern ts₁ hpattern => ?_
  refine .eat fun _ ts₂ _ => (reads_expressionWithin false).call fun subject own hsubject => ?_
  apply reads_withBlock
  have hpattern : Within ([] ++ ts ++ ts₁ ++ ts₂ ++ own) pattern :=
    ((hpattern.right _).left ts₂).left own
  exact allWithin_cons.2 ⟨hpattern, (hsubject.right _).only⟩

theorem reads_whileLoop : Reads [] (whileLoop g) IsBlockLike := by
  unfold whileLoop
  refine .here fun start => .eat fun _ ts _ => ?_
  exact (reads_expressionWithin false).call fun n own hn => reads_withBlock (hn.right _).only

theorem reads_keywordBlock (keyword : String) : Reads [] (keywordBlock g keyword) IsBlockLike := by
  unfold keywordBlock
  exact .here fun start => .eat fun _ ts _ => reads_withBlock allWithin_nil

theorem reads_blockExpression : Reads [] (blockExpression g) IsBlockLike := by
  unfold blockExpression
  exact .here fun start => reads_withBlock allWithin_nil

theorem reads_tryBlock : Reads [] (tryBlock g) IsValue := by
  unfold tryBlock
  refine .here fun start => .eat fun _ ts hts => reads_blockWithin.call fun block own hblock => ?_
  exact reads_node _ (by simp [hts]) ⟨rfl, by simp⟩ trivial (hblock.right _).only

theorem reads_labelled : Reads [] (labelled g) IsValue := by
  unfold labelled
  refine .here fun start => .eat fun _ ts _ => .eat fun _ ts' _ => ?_
  have hloop : ∀ {r : Reader Node}, Reads [] r IsBlockLike → Reads ([] ++ ts ++ ts')
      (r >>= fun e => pure (e.startingAt start)) (Opened [] start IsValue) := by
    intro r hr
    refine hr.call fun e own he => .pure fun hbegin => he.1.startingAt he.2 (hbegin _ rfl)
  refine .look fun _ => .look fun _ => .look fun _ => .look fun _ => .ite ?_
    (.ite ?_ (.ite ?_ (.ite ?_ ?_)))
  · exact hloop reads_whileLoop
  · exact hloop reads_forLoop
  · exact hloop (reads_keywordBlock "loop")
  · exact hloop reads_blockExpression
  · exact .failure

/-! ## Operands -/

theorem reads_closureParameter : Reads [] (closureParameter g) AllWithin := by
  unfold closureParameter
  refine reads_outerAttributes.call fun attributes ts hattributes => ?_
  refine Grammar.Covering.pattern.call fun pattern ts₁ hpattern => ?_
  have hattributes : AllWithin ([] ++ ts ++ ts₁) attributes := hattributes.allWithin.left ts₁
  have hpattern : Within ([] ++ ts ++ ts₁) pattern := hpattern.right _
  refine .whether (fun ts₂ _ => ?_) (.pure (allWithin_append.2 ⟨hattributes, hpattern.only⟩))
  refine (Grammar.Covering.type true).call fun type own htype => .pure ?_
  have hpattern := (hpattern.left ts₂).left own
  exact allWithin_append.2 ⟨(hattributes.left ts₂).left own, allWithin_cons.2
    ⟨hpattern, (htype.right _).only⟩⟩

theorem reads_closure (structs : Bool) : Reads [] (closure g structs) IsValue := by
  unfold closure
  refine .here fun start => reads_optionalQuantified.call fun quantifiers ts hquantifiers => ?_
  refine .move fun _ ts₁ => .move fun _ ts₂ => .move fun _ ts₃ => .move fun _ ts₄ => .eat
    fun _ ts₅ hts₅ => ?_
  refine (reads_separatedLists reads_closureParameter _ _).call fun parameters ts₆ hparameters => ?_
  refine .eat fun _ ts₇ _ => ?_
  have hbefore : AllWithin ([] ++ ts ++ ts₁ ++ ts₂ ++ ts₃ ++ ts₄ ++ ts₅ ++ ts₆ ++ ts₇)
      (quantifiers.getD [] ++ parameters.flatten) := by
    grind [allWithin_append]
  have hne : [] ++ ts ++ ts₁ ++ ts₂ ++ ts₃ ++ ts₄ ++ ts₅ ++ ts₆ ++ ts₇ ≠ [] := by simp [hts₅]
  generalize [] ++ ts ++ ts₁ ++ ts₂ ++ ts₃ ++ ts₄ ++ ts₅ ++ ts₆ ++ ts₇ = ws at hbefore hne ⊢
  refine .whether (fun ts₈ _ => ?_) ?_
  · refine (Grammar.Covering.type true).call fun type ts₉ htype => reads_blockWithin.call
      fun block own hblock => ?_
    refine reads_node .other (by simp [hne]) ⟨rfl, by simp⟩ trivial ?_
    have htype := (htype.right (ws ++ ts₈)).left own
    have hbefore := ((hbefore.left ts₈).left ts₉).left own
    exact allWithin_append.2 ⟨hbefore, allWithin_cons.2 ⟨htype, (hblock.right _).only⟩⟩
  · refine (reads_expressionWithin structs).call fun body own hbody => ?_
    refine reads_node .other (by simp [hne]) ⟨rfl, by simp⟩ trivial ?_
    exact allWithin_append.2 ⟨hbefore.left own, (hbody.right _).only⟩

theorem reads_fieldValue : Reads [] (fieldValue g) AllWithin := by
  unfold fieldValue
  refine reads_outerAttributes.call fun attributes ts hattributes => .eat fun named ts₁ _ => .look
    fun _ => ?_
  have hattributes : AllWithin ([] ++ ts ++ ts₁) attributes := hattributes.allWithin.left ts₁
  refine .ite (.eat fun _ ts₂ _ => ?_) (.pure hattributes)
  refine (reads_expressionWithin true).call fun n own hn => .pure ?_
  exact allWithin_append.2 ⟨(hattributes.left ts₂).left own, (hn.right _).only⟩

theorem reads_structFields : Reads [] (structFields g) AllWithin := by
  unfold structFields
  apply Reads.bind (p := fun ws found => AllWithin ws found.reverse.flatten)
  · apply Reads.repeated (by simp)
    intro found ws hfound
    have hmore : ∀ {ts : List Token} {ns : List Node}, AllWithin ts ns →
        AllWithin (ws ++ ts) (ns :: found).reverse.flatten := by
      intro ts ns hns
      rw [List.reverse_cons, List.flatten_append, allWithin_append, List.flatten_singleton]
      exact ⟨hfound.left ts, hns.right ws⟩
    refine .look fun _ => .ite (.pure hfound) (.whether (fun ts _ => .look fun _ => .ite ?_ ?_) ?_)
    · exact .pure (hfound.left ts)
    · refine (reads_expressionWithin true).call fun n own hn => .pure ?_
      rw [List.append_assoc]
      exact hmore (hn.right ts).only
    · refine reads_fieldValue.call fun ns own hns => .look fun _ => .ite (.pure (hmore hns)) ?_
      exact .eat fun _ ts' _ => .pure ((hmore hns).left ts')
  · intro found ws hfound
    exact .pure hfound

theorem reads_pathExpression (structs : Bool) : Reads [] (pathExpression g structs) IsValue := by
  unfold pathExpression
  refine .here fun start => (reads_path true).call fun p ts hp => .look fun _ => .look fun _ => ?_
  refine .ite ?_ (.look fun _ => .ite ?_ (reads_node (.path p.name) hp.2 ⟨rfl, by simp⟩ trivial hp.1))
  · apply (reads_expansion hp.2 start p.name).bind
    rintro ⟨n, d⟩ ws hn
    refine .since fun stop hend => .pure fun hbegin => ?_
    have hvalue : IsValue ws n := hn hbegin
    exact .of _ ⟨hvalue.nonempty, hbegin ws rfl, hend⟩ trivial ⟨rfl, by simp⟩ hvalue.within.only
  · apply (reads_structFields.inside .brace).bind
    rintro fields _ ⟨inner, x, rfl, hfields⟩
    refine reads_node .other (by simp) ⟨rfl, by simp⟩ trivial ?_
    exact allWithin_append.2 ⟨hp.1.left _, (hfields.group .brace x).right _⟩

theorem reads_arrayElements : Reads [] (arrayElements g) AllWithin := by
  unfold arrayElements
  refine .look fun _ => .ite (.pure allWithin_nil) ?_
  refine (reads_expressionWithin true).call fun first ts hfirst => ?_
  refine .whether (fun ts₁ _ => ?_) (.look fun _ => .ite (.pure hfirst.only) (.eat fun _ ts₁ _ => ?_))
  · refine (reads_expressionWithin true).call fun n own hn => .pure ?_
    exact allWithin_cons.2 ⟨(hfirst.left ts₁).left own, (hn.right _).only⟩
  · refine (reads_commaNodes (reads_expressionWithin true)).call fun ns own hns => .pure ?_
    exact allWithin_cons.2 ⟨(hfirst.left ts₁).left own, hns.right _⟩

/-- A word and a value behind it, if there is one. -/
theorem reads_valueNode {start : Position} (hne : us ≠ []) (structs : Bool) :
    Reads us (g (.expression structs) >>= fun value => since start >>= fun x =>
      pure (Node.mk .other x [value])) (Opened [] start IsValue) := by
  refine (reads_expressionWithin structs).call fun n own hn => ?_
  exact reads_node .other (by simp [hne]) ⟨rfl, by simp⟩ trivial (hn.right _).only

theorem reads_emptyNode {start : Position} (hne : us ≠ []) :
    Reads us (since start >>= fun x => pure (Node.mk .other x [])) (Opened [] start IsValue) :=
  reads_node _ hne ⟨rfl, by simp⟩ trivial allWithin_nil

theorem reads_breakExpression (structs : Bool) : Reads [] (breakExpression g structs) IsValue := by
  unfold breakExpression
  refine .here fun start => .eat fun _ ts hts => .move fun _ ts' => .look fun _ => .ite .failure ?_
  have hne : [] ++ ts ++ ts' ≠ [] := by simp [hts]
  exact .look fun _ => .ite (reads_valueNode hne structs) (reads_emptyNode hne)

theorem reads_keywordValue (keyword : String) (structs : Bool) :
    Reads [] (keywordValue g keyword structs) IsValue := by
  unfold keywordValue
  refine .here fun start => .eat fun _ ts hts => .look fun _ => ?_
  exact .ite (reads_valueNode hts structs) (reads_emptyNode hts)

theorem reads_atom (structs : Bool) : Reads [] (atom g structs) IsValue := by
  unfold atom
  refine .here fun start => ?_
  extract_lets other
  have hother : ∀ {ws children}, ws ≠ [] → AllWithin ws children →
      Reads ws (other children) (Opened [] start IsValue) := fun hws hchildren =>
    reads_node .other hws ⟨rfl, by simp⟩ trivial hchildren
  have hgroup : ∀ {d r}, Reads [] r AllWithin →
      Reads [] (inside d r >>= other) (Opened [] start IsValue) := by
    intro d r hr
    apply (hr.inside d).bind
    rintro ns _ ⟨inner, x, rfl, hns⟩
    exact hother (by simp) ((hns.group d x).right _)
  have hvalue : ∀ {r : Reader Node}, Reads [] r IsValue → Reads [] r (Opened [] start IsValue) :=
    fun hr => hr.mono fun _ _ hn _ => hn
  have hblock : ∀ {r : Reader Node}, Reads [] r IsBlockLike → Reads [] r (Opened [] start IsValue) :=
    fun hr => hr.mono fun _ _ hn _ => hn.1
  refine .look fun _ => .ite (hvalue reads_literal) (.look fun _ => .ite ?async
    (.look fun _ => .look fun _ => ?_))
  case async =>
    refine .eat fun _ ts hts => .move fun _ ts' => reads_blockWithin.call fun n own hn => ?_
    exact hother (by simp [hts]) (hn.right _).only
  refine .ite (hvalue reads_tryBlock) (.look fun _ => .ite (hvalue (reads_closure structs)) ?_)
  refine .look fun _ => .look fun _ => .ite ?builtin (.look fun _ => .ite
    (hvalue (reads_pathExpression structs)) ?_)
  case builtin =>
    refine .eat fun _ ts hts => .move fun _ _ => .move fun _ _ => .look fun _ => .move fun _ _ => ?_
    exact hother (by simp [hts]) allWithin_nil
  refine .look fun _ => .ite (hgroup (reads_commaNodes (reads_expressionWithin true))) ?_
  refine .look fun _ => .ite (hvalue (reads_breakExpression structs)) (.whether ?next ?_)
  case next => exact fun ts hts => .move fun _ ts' => hother (by simp [hts]) allWithin_nil
  refine .look fun _ => .ite (hvalue (reads_keywordValue "return" structs)) (.whether ?become ?_)
  case become => exact fun ts hts => .move fun _ ts' => hother (by simp [hts]) allWithin_nil
  refine .look fun _ => .ite (hgroup reads_arrayElements) (.whether ?condition ?_)
  case condition =>
    refine fun ts hts => reads_alternatives.call fun pattern ts₁ hpattern => .eat fun _ ts₂ _ => ?_
    refine (Grammar.Covering.operand structs).call fun left ts₃ hleft => ?_
    apply ((Grammar.Covering.operators structs Strength.compare hleft).frame _).bind
    rintro value _ ⟨own, rfl, hvalue⟩
    refine hother (by simp [hts]) (allWithin_cons.2 ⟨?_, (hvalue.within.right _).only⟩)
    exact ((hpattern.right _).left ts₂).left own
  refine .look fun _ => .ite (hvalue reads_conditional) (.look fun _ => .ite (hblock reads_whileLoop) ?_)
  refine .look fun _ => .ite (hblock reads_forLoop) ?_
  refine .look fun _ => .ite (hblock (reads_keywordBlock "loop")) ?_
  refine .look fun _ => .ite (hvalue reads_matchExpression) ?_
  refine .look fun _ => .ite (hvalue (reads_keywordValue "yield" true)) ?_
  refine .look fun _ => .ite (hblock (reads_keywordBlock "unsafe")) ?_
  refine .look fun _ => .ite (hblock (reads_keywordBlock "const")) ?_
  refine .look fun _ => .ite (hblock reads_blockExpression)
    (.look fun _ => .ite ?range (.whether ?any ?_))
  case range =>
    refine (reads_rangeRest structs).call fun upper own hupper => ?_
    exact reads_node .range hupper.2 ⟨rfl, by simp⟩ trivial hupper.1
  case any => exact fun ts hts => hother hts allWithin_nil
  exact .look fun _ => .ite (hvalue reads_labelled) .failure

theorem reads_operandRule (structs : Bool) : Reads [] (operandRule g structs) IsValue := by
  unfold operandRule
  refine reads_outerAttributes.call fun attributes as hattributes => .here fun start => ?_
  have hnode : ∀ {ts : List Token} {e : Node}, ts ≠ [] → Within ts e → Reads ([] ++ as ++ ts)
      (since start >>= fun x => pure ((Node.mk .other x [e]).withAttributes attributes))
      (Opened ([] ++ as) start IsValue) := by
    intro ts e hts he
    refine .since fun stop hend => .pure fun hbegin => ?_
    have hown : IsValue ts (.mk .other ⟨start, stop⟩ [e]) :=
      .other ⟨hts, hbegin ts rfl, hend.of_append⟩ he.only
    exact hown.withAttributes hattributes
  have hoperand : ∀ {ts : List Token}, ts ≠ [] → Reads ([] ++ as ++ ts)
      (g (.operand structs) >>= fun e => since start >>= fun x =>
        pure ((Node.mk .other x [e]).withAttributes attributes))
      (Opened ([] ++ as) start IsValue) := by
    intro ts hts
    refine (Grammar.Covering.operand structs).call fun e own he => ?_
    rw [List.append_assoc]
    exact hnode (by simp [hts]) (he.within.right ts)
  refine .whether (fun ts hts => .look fun raw => ?_) (.look fun _ => .ite ?_ ?_)
  · extract_lets operand rest
    have hrest : ∀ u {ts : List Token}, ts ≠ [] → Reads ([] ++ as ++ ts) (rest u)
        (Opened ([] ++ as) start IsValue) := by
      intro u ts hts
      refine .move fun _ ts' => .ite (.eat fun _ ts'' _ => ?_) ?_
      · rw [List.append_assoc, List.append_assoc]
        exact hoperand (by simp [hts])
      · rw [List.append_assoc]
        exact hoperand (by simp [hts])
    refine .ite (.eat fun _ ts' _ => ?_) (hrest () hts)
    rw [List.append_assoc]
    exact hrest () (by simp [hts])
  · exact .eat fun _ ts hts => hoperand hts
  · refine (reads_atom structs).call fun e own he => ?_
    apply ((reads_trailers he).frame _).bind
    rintro e _ ⟨ts, rfl, he⟩
    exact .pure fun _ => he.withAttributes hattributes

/-! ## Statements -/

theorem reads_statementExpressionRule : Reads [] (statementExpressionRule g) IsValue := by
  unfold statementExpressionRule
  refine reads_outerAttributes.call fun attributes as hattributes => .look fun c => ?_
  extract_lets tokens block?
  have hblock : ∀ {r : Reader Node}, Reads [] r IsBlockLike → Reads [] r IsValue :=
    fun hr => hr.mono fun _ _ hn => hn.1
  have hsome : ∀ {r : Reader Node}, Reads [] r IsValue → ∀ r' ∈ some r, Reads [] r' IsValue := by
    rintro r hr _ ⟨⟩
    exact hr
  have hite : ∀ {c : Bool} {x y : Option (Reader Node)}, (∀ r ∈ x, Reads [] r IsValue) →
      (∀ r ∈ y, Reads [] r IsValue) → ∀ r ∈ (if c = true then x else y), Reads [] r IsValue := by
    intro c x y hx hy
    split
    · exact hx
    · exact hy
  have hread : ∀ r ∈ block?, Reads [] r IsValue := by
    refine hite (hsome reads_conditional) (hite (hsome (hblock reads_whileLoop)) ?_)
    refine hite (hsome (hblock reads_forLoop)) (hite (hsome (hblock (reads_keywordBlock _))) ?_)
    refine hite (hsome reads_matchExpression) (hite (hsome reads_tryBlock) ?_)
    refine hite (hsome (hblock (reads_keywordBlock _))) (hite (hsome (hblock (reads_keywordBlock _))) ?_)
    exact hite (hsome (hblock reads_blockExpression)) (hite (hsome reads_labelled) (by simp))
  cases hchoice : block? with
  | none =>
    refine (Grammar.Covering.operand true).call fun left own hleft => ?_
    exact Grammar.Covering.operators true 0 (hleft.withAttributes hattributes)
  | some r =>
    refine (hread r hchoice).call fun e own he => .look fun _ => .ite ?_
      (.pure (he.withAttributes hattributes))
    apply ((reads_trailers he).frame _).bind
    rintro e _ ⟨ts, rfl, he⟩
    exact Grammar.Covering.operators true 0 (he.withAttributes hattributes)

theorem reads_binding : Reads [] (binding g) fun ts ns => AllWithin ts ns ∧ ts ≠ [] := by
  unfold binding
  refine .eat fun _ ts hts => Grammar.Covering.pattern.call fun pattern ts₁ hpattern => .move
    fun _ ts₂ => ?_
  extract_lets rest
  have hrest : ∀ (type : List Node) {ws}, ws ≠ [] → AllWithin ws (pattern :: type) →
      Reads ws (rest type) fun ts ns => AllWithin ts ns ∧ ts ≠ [] := by
    intro type ws hws htype
    refine .move fun _ ts => ?_
    extract_lets finish
    have hfinish : ∀ (value : List Node) {own : List Token}, AllWithin (ws ++ own) value →
        Reads (ws ++ own) (finish value) fun ts ns => AllWithin ts ns ∧ ts ≠ [] := by
      intro value own hvalue
      refine .eat fun _ ts' _ => .pure ⟨?_, by simp [hws]⟩
      exact AllWithin.left (allWithin_append.2 ⟨htype.left own, hvalue⟩) ts'
    refine .ite ?_ (hfinish [] allWithin_nil)
    refine (reads_expressionWithin true).call fun value ts₁ hvalue => .look fun _ => .move
      fun _ ts₂ => ?_
    have hvalue : Within (ws ++ ts ++ ts₁ ++ ts₂) value := (hvalue.right _).left ts₂
    refine .ite (reads_blockWithin.call fun block own hblock => ?_) ?_
    · have hvalues := allWithin_cons.2 ⟨hvalue.left own, (hblock.right _).only⟩
      simp only [List.append_assoc] at hvalues ⊢
      exact hfinish _ hvalues
    · have hvalues := hvalue.only
      simp only [List.append_assoc] at hvalues ⊢
      exact hfinish _ hvalues
  have hpattern : Within ([] ++ ts ++ ts₁ ++ ts₂) pattern := (hpattern.right _).left ts₂
  refine .ite ?_ (hrest [] (by simp [hts]) hpattern.only)
  refine (Grammar.Covering.type true).call fun type own htype => hrest [type] (by simp [hts]) ?_
  exact allWithin_cons.2 ⟨hpattern.left own, (htype.right _).only⟩

/-- Looking past a path takes it only if the arguments are in braces. -/
theorem reads_expansionStatement : Reads us expansionStatement fun ws found =>
    (∀ name, found = .braced name → ∃ ts, ws = us ++ ts ∧ ts ≠ []) ∧
      ((∀ name, found ≠ .braced name) → ws = us) := by
  intro c found c' _ hrun
  have hsame : ∀ {found : ExpansionStatement}, (∀ name, found ≠ .braced name) → ∃ ts, c.Takes ts c ∧
      (∀ name, found = .braced name → ∃ ts', us ++ ts = us ++ ts' ∧ ts' ≠ []) ∧
        ((∀ name, found ≠ .braced name) → us ++ ts = us) := fun hfound =>
    ⟨[], .refl c, fun name hname => absurd hname (hfound name), fun _ => List.append_nil us⟩
  unfold expansionStatement at hrun
  split at hrun
  · next names d hpath =>
    rcases Eats.reads c _ d (by simp [End]) hpath with ⟨ts, htakes, hne⟩
    dsimp only at hrun
    split at hrun
    · split at hrun
      · cases hrun
        exact hsame (by simp)
      · split at hrun
        · cases hrun
          exact ⟨ts, htakes, fun _ _ => ⟨ts, rfl, hne⟩, fun h => absurd rfl (h _)⟩
        · cases hrun
          exact hsame (by simp)
    · cases hrun
      exact hsame (by simp)
  · cases hrun
    exact hsame (by simp)

theorem reads_statement : Reads [] (statement g) Covers := by
  unfold statement
  refine .here fun begin_ => reads_outerAttributes.call fun attributes as hattributes => .here
    fun start => ?_
  have hstatement : ∀ {ts : List Token} {form : Form} {children : List Node}, ts ≠ [] →
      (form = .statement ∨ form = .item) → AllWithin (as ++ ts) children → Reads ([] ++ as ++ ts)
        (since begin_ >>= fun x => pure (Node.mk form x children))
        (Opened ([] ++ as) start (Opened [] begin_ Covers)) := by
    intro ts form children hts hform hchildren
    refine .since fun stop hend => .pure fun _ hbegin => ?_
    have hspans : Extent.Spans ⟨begin_, stop⟩ (as ++ ts) := ⟨by simp [hts], hbegin _ rfl, hend⟩
    rcases hform with rfl | rfl
    · exact (IsValue.of .statement hspans trivial ⟨rfl, by simp⟩ hchildren).covers
    · exact (IsValue.of .item hspans trivial ⟨rfl, by simp⟩ hchildren).covers
  apply reads_expansionStatement.bind
  rintro found ws ⟨hbraced, hother⟩
  split
  · next name =>
    rcases hbraced name rfl with ⟨ts, rfl, hts⟩
    apply ((reads_expansion hts start name).frame _).bind
    rintro ⟨n, d⟩ _ ⟨own, rfl, hn⟩
    refine .move fun _ ts' => .since fun stop hend => .pure fun hstart hbegin => ?_
    have hvalue : IsValue own n := by
      have hbegin : Begin start (own ++ ts') := hstart _ (List.append_assoc _ _ _)
      refine hn fun ts hts => ?_
      rw [List.nil_append] at hts
      exact hts ▸ hbegin.of_append
    have hspans : Extent.Spans ⟨begin_, stop⟩ (as ++ own ++ ts') :=
      ⟨by simp [hvalue.nonempty], hbegin _ rfl, hend⟩
    have hall : AllWithin (as ++ own ++ ts') (attributes ++ [n]) := by
      have hattributes := hattributes.allWithin.left own
      exact AllWithin.left (allWithin_append.2 ⟨hattributes, (hvalue.within.right as).only⟩) ts'
    exact (IsValue.of .statement hspans trivial ⟨rfl, by simp⟩ hall).covers
  · next hfound =>
    rw [hother hfound]
    refine .look fun _ => .ite ?_ (.look fun _ => .ite ?_ ?_)
    · refine reads_binding.call fun children own hchildren => hstatement hchildren.2 (.inl rfl) ?_
      exact allWithin_append.2 ⟨hattributes.allWithin.left own, hchildren.1.right as⟩
    · exact .eat fun _ ts hts => hstatement hts (.inr rfl) allWithin_nil
    · refine Grammar.Covering.statementExpression.call fun e own he => ?_
      extract_lets e' finish
      refine .move fun _ ts => ?_
      have hvalue : IsValue (as ++ own) e' := he.attributeLeftmost hattributes
      have hfinish : ∀ u, Reads ([] ++ as ++ own ++ ts) (finish u)
          (Opened ([] ++ as) start (Opened [] begin_ Covers)) := by
        intro u
        rw [List.append_assoc]
        refine hstatement (by simp [he.nonempty]) (.inl rfl) ?_
        rw [← List.append_assoc]
        exact (hvalue.within.left ts).only
      exact .ite (.look fun _ => hfinish ()) (hfinish ())

/-- The statements divide up the tokens. -/
theorem reads_statements : Reads [] (statements g) fun ts ns =>
    ∃ parts, ts = parts.flatten ∧ List.Forall₂ Covers parts ns := by
  unfold statements
  apply Reads.until_
  refine .here fun start => .whether (fun ts hts => ?_) (reads_statement.mono fun _ _ hn _ => hn)
  apply (reads_node .statement hts ⟨rfl, by simp⟩ trivial allWithin_nil).mono
  exact fun _ _ hn hbegin => (hn hbegin).covers

/-- A block covers the braces with all that stands between them. -/
theorem covers_block (attributes : List Token) {inner : List Token} {parts : List (List Token)}
    {children : List Node} {x : Extent} (hinner : inner = attributes ++ parts.flatten)
    (h : List.Forall₂ Covers parts children)
    {e : Extent} (hspans : e.Spans [.group .brace inner x]) :
    Covers [.group .brace inner x] (.mk .block e children) := by
  refine .mk hspans trivial h ?_ (by simp [Form.isChain]) fun _ => ⟨inner, x, attributes, rfl, hinner⟩
  intro part hpart
  have hinside : Inside part inner := by
    rw [hinner]
    exact Inside.right (.part (List.infix_of_mem_flatten hpart)) attributes
  exact .group hinside (List.mem_singleton_self _)

theorem reads_blockRule : Reads [] (blockRule g) Covers := by
  unfold blockRule
  refine .here fun start => ?_
  apply (reads_statements.inside .brace).bind
  rintro children _ ⟨inner, x, rfl, parts, hinner, hparts⟩
  refine .since fun stop hend => .pure fun hbegin => ?_
  exact covers_block [] hinner hparts ⟨by simp, hbegin _ rfl, hend⟩

theorem reads_attributedBlockRule : Reads [] (attributedBlockRule g) Covers := by
  unfold attributedBlockRule
  refine .here fun start => ?_
  have hinner : Reads [] (do
      let attributes ← innerAttributes g
      let children ← statements g
      pure (attributes, children)) fun ts found => ∃ attributes parts,
        ts = attributes ++ parts.flatten ∧ AllWithin attributes found.1 ∧
          List.Forall₂ Covers parts found.2 := by
    refine reads_innerAttributes.call fun attributes ts hattributes => ?_
    refine reads_statements.call fun children own hchildren => .pure ?_
    rcases hchildren with ⟨parts, rfl, hparts⟩
    exact ⟨ts, parts, rfl, hattributes, hparts⟩
  apply (hinner.inside .brace).bind
  rintro ⟨attributes, children⟩ _ ⟨inner, x, rfl, front, parts, hparts, hattributes, hcovered⟩
  refine .since fun stop hend => .pure fun hbegin => ?_
  have hspans : Extent.Spans ⟨start, stop⟩ [.group .brace inner x] := ⟨by simp, hbegin _ rfl, hend⟩
  have hblock := (covers_block _ hparts hcovered hspans).within.only
  have hattributes : AllWithin [.group .brace inner x] attributes := by
    rw [hparts]
    exact (hattributes.left parts.flatten).group .brace x
  have hall := allWithin_append.2 ⟨hattributes, hblock⟩
  exact (IsValue.of .blockLike hspans trivial ⟨rfl, by simp⟩ hall).covers

end LintMend.Rust.Reader
