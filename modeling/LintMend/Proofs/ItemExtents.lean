import LintMend.Proofs.ExpressionExtents

/-!
# Extents of items

Functions, members and modules cover their own tokens, other items all they were read from. With them
every rule of the grammar is looked at, so that the grammar is covering at every depth.
-/

namespace LintMend.Rust

namespace Reader

set_option synthInstance.maxSize 20000

variable {us : List Token} {α : Type}

/-! ## What is only read -/

instance : Moves visibility := by
  unfold visibility
  infer_instance

instance (r : Reader α) [Moves r] : Moves (optionalDefault r) := by
  unfold optionalDefault
  infer_instance

section

variable {g : Grammar} [g.Covering]

instance : Moves (optionalQuantified g) := ⟨reads_optionalQuantified.mono fun _ _ _ => trivial⟩

instance (const : Bool) (stop : Ahead) : Moves (boundsUntil g const stop) :=
  ⟨(reads_boundsUntil const stop).mono fun _ _ _ => trivial⟩

instance : Moves (constantArgument g) := ⟨reads_constantArgument.mono fun _ _ _ => trivial⟩

instance (plus : Bool) : Moves (arrowType g plus) := ⟨(reads_arrowType plus).mono fun _ _ _ => trivial⟩

instance : Moves (genericParameter g) := by
  unfold genericParameter
  dsimp only
  infer_instance

instance : Moves (genericParameters g) := by
  unfold genericParameters
  infer_instance

instance : Moves (condition g) := by
  unfold condition
  infer_instance

instance : Moves (conditions g) := by
  unfold conditions
  infer_instance

instance : Moves (receiver g) := by
  unfold receiver
  dsimp only
  infer_instance

instance : Moves commaOrEnd := by
  unfold commaOrEnd
  infer_instance

instance : Moves (parameters g) := by
  unfold parameters
  dsimp only
  refine ⟨.bind (.repeated (p := fun _ _ => True) trivial fun first ws _ => ?_) fun _ _ _ =>
    .pure trivial⟩
  refine .look fun _ => .ite (.pure trivial) (.move fun _ _ => .move fun _ _ => .ite ?_
    (.move fun found _ => ?_))
  · exact Moves.reads.last fun _ _ _ => trivial
  · cases found with
    | some _ => exact Moves.reads.last fun _ _ _ => trivial
    | none => exact Moves.reads.last fun _ _ _ => trivial

instance (safe : Bool) : Eats (signature g safe) := by
  unfold signature
  dsimp only
  infer_instance

instance : Eats (constant g) := by
  unfold constant
  dsimp only
  infer_instance

instance (first : Bool) : Eats (typeAlias g first) := by
  unfold typeAlias
  dsimp only
  infer_instance

instance (named : Bool) : Eats (expansionItem named) := by
  unfold expansionItem
  dsimp only
  infer_instance

instance : Moves (foreignMember g) := by
  unfold foreignMember
  dsimp only
  infer_instance

instance (r : Reader α) [Moves r] : Moves (withTokens r) := by
  unfold withTokens
  infer_instance

instance : Moves (namedField g) := by
  unfold namedField
  dsimp only
  infer_instance

instance : Moves (unnamedField g) := by
  unfold unnamedField
  infer_instance

instance : Eats (namedFields g) := by
  unfold namedFields
  infer_instance

instance : Eats (unnamedFields g) := by
  unfold unnamedFields
  infer_instance

instance : Eats (structItem g) := by
  unfold structItem
  infer_instance

instance : Moves (variant g) := by
  unfold variant
  dsimp only
  infer_instance

instance : Eats (enumItem g) := by
  unfold enumItem
  infer_instance

instance : Eats (unionItem g) := by
  unfold unionItem
  infer_instance

instance moves_importTree (root : Bool) (depth : Nat) : Moves (importTree root depth) := by
  induction depth generalizing root with
  | zero =>
    unfold importTree
    infer_instance
  | succ depth ih =>
    unfold importTree
    dsimp only
    infer_instance

instance : Eats importItem := by
  unfold importItem
  dsimp only
  infer_instance

instance : Eats externCrate := by
  unfold externCrate
  dsimp only
  infer_instance

instance : Eats (foreignItem g) := by
  unfold foreignItem
  infer_instance

instance : Eats (staticItem g) := by
  unfold staticItem
  dsimp only
  infer_instance

instance : Eats extensionItem := by
  unfold extensionItem
  dsimp only
  infer_instance

/-! ## Functions and members -/

theorem reads_function (attributes : List Node) : Reads [] (function g attributes) Within := by
  unfold function
  refine .here fun start => .eat fun name ts hts => .whether (fun ts' _ => ?_) ?_
  · exact reads_nodeWithin .item (by simp [hts]) ⟨rfl, by simp⟩ trivial allWithin_nil
  · refine Grammar.Covering.attributedBlock.call fun body own hbody => ?_
    refine reads_nodeWithin (.function name _) (by simp [hts]) ⟨rfl, by simp⟩ trivial fun n hn => ?_
    exact (hbody.children n (List.mem_of_getLast? (Option.mem_toList.1 hn))).right _

/-- An item that is only read covers all its tokens. -/
theorem reads_item {begin_ : Position} (hne : us ≠ []) :
    Reads us (since begin_ >>= fun x => pure (Node.mk .item x [])) (Opened [] begin_ Within) :=
  reads_nodeWithin _ hne ⟨rfl, by simp⟩ trivial allWithin_nil

theorem reads_readItem {begin_ : Position} {r : Reader α} [Eats r] :
    Reads us (r >>= fun _ => since begin_ >>= fun x => pure (Node.mk .item x []))
      (Opened [] begin_ Within) :=
  .eat fun _ ts hts => reads_item (by simp [hts])

theorem reads_typeMember : Reads [] (typeMember g) Within := by
  unfold typeMember
  refine .here fun begin_ => ?_
  extract_lets item
  refine .move fun attributes as => .move fun visible ts => .look fun isDefault => ?_
  extract_lets rest
  have hrest : ∀ u {ws}, Reads ws (rest u) (Opened [] begin_ Within) := by
    intro u ws
    refine .look fun _ => .ite ?_ (.look fun _ => .ite reads_readItem
      (.look fun _ => .ite reads_readItem ?_))
    · exact (reads_function attributes).last fun n own hn _ => hn.right ws
    · exact .look fun _ => .ite reads_readItem .failure
  exact .ite (.eat fun _ _ _ => hrest ()) (hrest ())

theorem reads_traitMember : Reads [] (traitMember g) Within := by
  unfold traitMember
  refine .here fun begin_ => ?_
  extract_lets item
  refine .move fun attributes as => .move fun visible ts => .move fun isDefault ts' => ?_
  refine .look fun _ => .ite ?_ (.look fun _ => .ite reads_readItem
    (.look fun _ => .ite reads_readItem ?_))
  · refine (reads_function attributes).call fun n own hn => .ite (reads_item (by simp [hn.nonempty])) ?_
    exact .pure fun _ => hn.right _
  · exact .look fun _ => .ite reads_readItem .failure

/-! ## Types, traits and modules -/

theorem reads_implementation (attributes : List Node) :
    Reads [] (implementation g attributes) Within := by
  have hmembers : Reads [] (do
      let inner ← innerAttributes g
      let members ← until_ Ahead.none (typeMember g)
      pure (inner, members)) fun ts found => AllWithin ts found.2 :=
    .move fun inner ts => (reads_untilNodes reads_typeMember _).call fun members own hown => .pure
      (hown.right _)
  unfold implementation
  refine .move fun visible ts₁ => .move fun _ ts₂ => .move fun _ ts₃ => .here fun start => ?_
  refine .eat fun _ ts hts => .look fun _ => ?_
  generalize [] ++ ts₁ ++ ts₂ ++ ts₃ = us
  extract_lets rest
  have hrest : ∀ u {ts : List Token}, ts ≠ [] → Reads (us ++ ts) (rest u) (Opened us start Within) := by
    intro u ts hts
    refine .look fun isConst => ?_
    extract_lets body types
    have hbody : ∀ owner {ts : List Token}, ts ≠ [] →
        Reads (us ++ ts) (body owner) (Opened us start Within) := by
      rintro ⟨owner, isTrait⟩ ts hts
      refine .move fun _ ts' => ?_
      apply (hmembers.inside .brace).bind
      rintro ⟨inner, members⟩ _ ⟨group, x, rfl, hmembers⟩
      rw [List.append_assoc, List.append_assoc]
      refine .ite (reads_nodeAt _ (by simp [hts]) ⟨rfl, by simp⟩ trivial allWithin_nil) ?_
      refine reads_nodeAt (.implementation owner _) (by simp [hts]) ⟨rfl, by simp⟩ trivial ?_
      exact ((hmembers.group .brace x).right ts').right ts
    have htypes : ∀ u {ts : List Token}, ts ≠ [] →
        Reads (us ++ ts) (types u) (Opened us start Within) := by
      intro u ts hts
      refine Reads.call (p := fun _ _ => True) ?_ fun first ts' _ => .move fun _ ts'' => ?_
      · dsimp only
        exact Moves.reads
      · rw [List.append_assoc, List.append_assoc]
        have hne : ts ++ (ts' ++ ts'') ≠ [] := by simp [hts]
        have hpure : ∀ owner, Reads (us ++ (ts ++ (ts' ++ ts''))) (pure owner >>= body)
            (Opened us start Within) := fun owner => .look fun owner => hbody owner hne
        refine .ite (.move fun type own => .look fun owner => ?_) (.ite (hpure _) (hpure _))
        rw [List.append_assoc]
        exact hbody owner (List.append_ne_nil_of_left_ne_nil hne own)
    refine .ite (.move fun _ ts₁ => .eat fun _ ts₂ _ => ?_) (htypes () hts)
    rw [List.append_assoc, List.append_assoc]
    exact htypes () (by simp [hts])
  refine .ite (.move fun _ ts' => ?_) (hrest () hts)
  rw [List.append_assoc]
  exact hrest () (by simp [hts])

theorem reads_traitItem : Reads [] (traitItem g) Within := by
  have hmembers : Reads [] (do
      let _ ← innerAttributes g
      until_ Ahead.none (traitMember g)) AllWithin :=
    .move fun _ ts => (reads_untilNodes reads_traitMember _).last fun members own hown => hown.right _
  unfold traitItem
  refine .move fun _ ts₁ => .move fun _ ts₂ => .move fun _ ts₃ => .here fun start => ?_
  refine .eat fun _ ts hts => .move fun name ts₄ => .move fun _ ts₅ => .move fun _ ts₆ => ?_
  generalize [] ++ ts₁ ++ ts₂ ++ ts₃ = us
  have hne : ts ++ (ts₄ ++ (ts₅ ++ ts₆)) ≠ [] := by simp [hts]
  rw [List.append_assoc, List.append_assoc, List.append_assoc]
  generalize ts ++ (ts₄ ++ (ts₅ ++ ts₆)) = ts at hne ⊢
  extract_lets aliasEnd rest boundsEnd
  have hrest : ∀ u {ts : List Token}, ts ≠ [] → Reads (us ++ ts) (rest u) (Opened us start Within) := by
    intro u ts hts
    refine .move fun _ ts' => ?_
    apply (hmembers.inside .brace).bind
    rintro members _ ⟨inner, x, rfl, hmembers⟩
    rw [List.append_assoc, List.append_assoc]
    refine reads_nodeAt (.traitMembers name) (by simp [hts]) ⟨rfl, by simp⟩ trivial ?_
    exact ((hmembers.group .brace x).right ts').right ts
  refine .ite (.move fun _ ts₁ => .move fun _ ts₂ => .eat fun _ ts₃ _ => ?_)
    (.move fun _ ts' => .ite ?_ ?_)
  · rw [List.append_assoc, List.append_assoc, List.append_assoc]
    exact reads_nodeAt _ (by simp [hne]) ⟨rfl, by simp⟩ trivial allWithin_nil
  · refine .move fun _ ts'' => ?_
    rw [List.append_assoc, List.append_assoc]
    exact hrest () (by simp [hne])
  · rw [List.append_assoc]
    exact hrest () (by simp [hne])

theorem reads_moduleItem : Reads [] (moduleItem g) Within := by
  unfold moduleItem
  refine .here fun start => .move fun _ ts₁ => .move fun _ ts₂ => .eat fun _ ts₃ hts => .look fun _ => ?_
  extract_lets rest
  have hrest : ∀ name {ws}, ws ≠ [] → Reads ws (rest name) (Opened [] start Within) := by
    intro name ws hws
    refine .whether (fun ts _ => reads_item (by simp [hws])) ?_
    have hitems : Reads [] (do
        let _ ← innerAttributes g
        until_ Ahead.none (g .item)) AllWithin :=
      .move fun _ ts => (reads_untilNodes Grammar.Covering.item _).last fun items own hown =>
        hown.right _
    apply (hitems.inside .brace).bind
    rintro items _ ⟨inner, x, rfl, hitems⟩
    exact reads_nodeWithin (.module name) (by simp) ⟨rfl, by simp⟩ trivial
      ((hitems.group .brace x).right ws)
  exact .ite (.eat fun name ts _ => hrest name (by simp [hts]))
    (.eat fun name ts _ => hrest name (by simp [hts]))

/-! ## The grammar -/

theorem reads_itemRule : Reads [] (itemRule g) Within := by
  unfold itemRule
  refine .here fun begin_ => ?_
  extract_lets only
  refine .move fun attributes as => .peek fun before visible after => ?_
  have honly : ∀ (r : Reader Unit) [Eats r], Reads ([] ++ as) (only r) (Opened [] begin_ Within) :=
    fun r _ => reads_readItem
  have hitem : ∀ {r : Reader Node}, Reads [] r Within → Reads ([] ++ as) r (Opened [] begin_ Within) :=
    fun hr => hr.last fun n own hn _ => hn.right _
  have hfunction : Reads [] (visibility >>= fun _ => function g attributes) Within :=
    .move fun _ ts => (reads_function attributes).last fun n own hn => hn.right _
  refine .ite (hitem hfunction) (.ite (.ite (honly _) (honly _)) ?_)
  refine .ite (honly _) (.ite (honly _) (.ite (honly _) (.ite ?unsafe_ ?_)))
  case unsafe_ =>
    refine .ite (hitem reads_traitItem) (.ite (hitem (reads_implementation attributes)) ?_)
    exact .ite (honly _) (.ite (hitem reads_moduleItem) .failure)
  refine .ite (hitem reads_moduleItem) (.ite (honly _) (.ite (honly _)
    (.ite (honly _) (.ite (honly _) ?_))))
  refine .ite (hitem reads_traitItem) (.ite (hitem (reads_implementation attributes)) ?_)
  exact .ite (honly _) (.ite (honly _) .failure)

end

end Reader

/-- Rules for goals that cover their tokens cover theirs. -/
instance (g : Grammar) [g.Covering] : (rules g).Covering where
  expression := Reader.reads_expressionRule
  operand := Reader.reads_operandRule
  operators structs base h := Reader.reads_operatorsRule h structs base
  statementExpression := Reader.reads_statementExpressionRule
  block := Reader.reads_blockRule
  attributedBlock := Reader.reads_attributedBlockRule
  type := Reader.reads_typeRule
  arguments := Reader.reads_argumentsRule
  pattern := Reader.reads_patternRule
  item := Reader.reads_itemRule

instance (depth : Nat) : (grammar depth).Covering := by
  induction depth with
  | zero =>
    constructor
    all_goals
      intros
      exact .failure
  | succ depth ih => exact inferInstanceAs (rules (grammar depth)).Covering

/-- The items of a source file cover tokens of the file. -/
theorem allWithin_items {source : String} {items : List Node} (h : items? source = some items) :
    ∃ tokens, fileTokens? source = some tokens ∧ AllWithin tokens items := by
  unfold items? at h
  rcases Option.bind_eq_some_iff.1 h with ⟨tokens, htokens, h⟩
  rcases Option.bind_eq_some_iff.1 h with ⟨⟨found, c⟩, hread, h⟩
  cases h
  refine ⟨tokens, htokens, ?_⟩
  have hfile : Reader.Reads [] (do
      let _ ← Reader.innerAttributes (grammar (nestingBound tokens))
      Reader.until_ Ahead.none (grammar (nestingBound tokens) .item)) AllWithin :=
    .move fun _ ts => (Reader.reads_untilNodes Grammar.Covering.item _).last fun items own hown =>
      hown.right _
  rcases hfile _ _ _ (by simp [End]) hread with ⟨ts, htakes, hitems⟩
  have hrest : tokens = ts ++ c.rest := htakes.rest
  rw [hrest]
  exact hitems.left c.rest

end LintMend.Rust
