import LintMend.Frontend
import LintMend.Proofs.ItemExtents
import LintMend.Proofs.ReportedOffsets
import LintMend.Proofs.TreeStatements
import Mathlib.Data.List.Perm.Basic

/-!
# Spans of statements and expressions

The statements of a source file divide up what stands between the braces of its blocks. The span of a
statement runs from the first byte of its first token to the last byte of its last token, and the same
holds of the expressions that it mentions. There is one exception: on the first line of a file that
begins with a byte order mark, every end of a span is a character too early.
-/

namespace LintMend.Rust

/-! ## Tokens of statements -/

/-- Nodes divide up the tokens between two braces, apart from attributes in front of them, and the
share of the node `n` is `us`. -/
def Share (tokens us : List Token) (n : Node) : Prop :=
  ∃ inner e attributes parts children, Inside [Token.group .brace inner e] tokens ∧
    inner = attributes ++ parts.flatten ∧ List.Forall₂ Covers parts children ∧
      (us, n) ∈ parts.zip children

section Shares

variable {ts us vs : List Token} {n : Node} {ns : List Node}

theorem Share.covers (h : Share ts us n) : Covers us n := by
  rcases h with ⟨inner, e, attributes, parts, children, -, -, hcovered, hmem⟩
  exact (List.forall₂_iff_zip.1 hcovered).2 hmem

theorem Share.inside_tokens (h : Share ts us n) : Inside us ts := by
  rcases h with ⟨inner, e, attributes, parts, children, hinside, rfl, -, hmem⟩
  have hpart : us <:+: attributes ++ parts.flatten :=
    (List.infix_of_mem_flatten (List.of_mem_zip hmem).1).trans (List.suffix_append _ _).isInfix
  exact (Inside.group (.part hpart) (List.mem_singleton_self _)).trans hinside

/-- The nodes of a block have their shares. -/
theorem exists_share_of_block {extent : Extent} (h : Within ts (.mk .block extent ns)) :
    ∀ n ∈ ns, ∃ us, Share ts us n := by
  rcases h with ⟨us, hinside, hcovers⟩
  cases hcovers with
  | mk spans shaped covered inside leftmost tiled =>
    rename_i parts
    rcases tiled rfl with ⟨inner, e, attributes, rfl, htiled⟩
    intro n hn
    rcases List.mem_iff_getElem.1 hn with ⟨i, hi, rfl⟩
    have hlength := covered.length_eq
    have hzip : i < (parts.zip ns).length := by
      rw [List.length_zip]
      omega
    have hmem := List.getElem_mem hzip
    rw [List.getElem_zip] at hmem
    exact ⟨parts[i], inner, e, attributes, parts, ns, hinside, htiled, covered, hmem⟩

mutual

theorem share_of_mem_inner (n : Node) (h : Within ts n) :
    ∀ s ∈ n.inner, s.form = .statement ∧ ∃ us, Share ts us s := by
  match n with
  | .mk form extent children =>
    cases form with
    | block =>
      rw [Node.inner]
      exact share_of_mem_ofBlock children (exists_share_of_block h)
    | item | function | implementation | traitMembers | module | literal =>
      rw [Node.inner]
      simp
    | _ =>
      rw [Node.inner]
      · rcases h with ⟨us, hinside, hcovers⟩
        exact share_of_mem_innerAll children (hcovers.children.inside hinside)
      all_goals simp

theorem share_of_mem_innerAll (ns : List Node) (h : AllWithin ts ns) :
    ∀ s ∈ Node.innerAll ns, s.form = .statement ∧ ∃ us, Share ts us s := by
  match ns with
  | [] =>
    rw [Node.innerAll]
    simp
  | n :: ns =>
    rw [allWithin_cons] at h
    rw [Node.innerAll, List.forall_mem_append]
    exact ⟨share_of_mem_inner n h.1, share_of_mem_innerAll ns h.2⟩

theorem share_of_mem_ofBlock (ns : List Node) (h : ∀ n ∈ ns, ∃ us, Share ts us n) :
    ∀ s ∈ Node.ofBlock ns, s.form = .statement ∧ ∃ us, Share ts us s := by
  match ns with
  | [] =>
    rw [Node.ofBlock]
    simp
  | .mk form extent children :: ns =>
    rw [List.forall_mem_cons] at h
    have hrest := share_of_mem_ofBlock ns h.2
    cases form with
    | statement =>
      rcases h.1 with ⟨us, hshare⟩
      have hchildren : AllWithin ts children := hshare.covers.children.inside hshare.inside_tokens
      rw [Node.ofBlock, List.forall_mem_cons, List.forall_mem_append]
      exact ⟨⟨rfl, us, hshare⟩, share_of_mem_innerAll children hchildren, hrest⟩
    | _ =>
      rw [Node.ofBlock]
      · exact hrest
      all_goals simp

end

theorem share_of_mem_ofBody (h : AllWithin ts ns) :
    ∀ s ∈ Node.ofBody ns, s.form = .statement ∧ ∃ us, Share ts us s := by
  intro s hs
  rcases List.mem_flatMap.1 hs with ⟨⟨form, extent, children⟩, hn, hs⟩
  have hwithin := h _ hn
  cases form with
  | block => exact share_of_mem_ofBlock children (exists_share_of_block hwithin) s hs
  | _ => cases hs

theorem share_of_mem_ofMembers (h : AllWithin ts ns) :
    ∀ s ∈ Node.ofMembers ns, s.form = .statement ∧ ∃ us, Share ts us s := by
  intro s hs
  rcases List.mem_flatMap.1 hs with ⟨⟨form, extent, children⟩, hn, hs⟩
  rcases h _ hn with ⟨us, hinside, hcovers⟩
  cases form with
  | function name derived => exact share_of_mem_ofBody (hcovers.children.inside hinside) s hs
  | _ => cases hs

mutual

theorem share_of_mem_ofItem (n : Node) (h : Within ts n) :
    ∀ s ∈ n.ofItem, s.form = .statement ∧ ∃ us, Share ts us s := by
  match n with
  | .mk form extent children =>
    rcases h with ⟨us, hinside, hcovers⟩
    have hchildren : AllWithin ts children := hcovers.children.inside hinside
    cases form with
    | function name derived =>
      rw [Node.ofItem]
      exact share_of_mem_ofBody hchildren
    | implementation | traitMembers =>
      rw [Node.ofItem]
      exact share_of_mem_ofMembers hchildren
    | module name =>
      rw [Node.ofItem]
      exact share_of_mem_ofItems children hchildren
    | _ => simp [Node.ofItem]

theorem share_of_mem_ofItems (ns : List Node) (h : AllWithin ts ns) :
    ∀ s ∈ Node.ofItems ns, s.form = .statement ∧ ∃ us, Share ts us s := by
  match ns with
  | [] =>
    rw [Node.ofItems]
    simp
  | n :: ns =>
    rw [allWithin_cons] at h
    rw [Node.ofItems, List.forall_mem_append]
    exact ⟨share_of_mem_ofItem n h.1, share_of_mem_ofItems ns h.2⟩

end

end Shares

/-! ## Tokens of expressions -/

/-- The tokens that an expression is shown with: all that its node covers, or for a call of a method
those from the name of the method on. -/
def Form.Shown (ts us : List Token) : Form → Prop
  | .methodCall name _ => ∃ receiver e rest, receiver ≠ [] ∧ ts = receiver ++ us ∧
    us = .word name e :: rest
  | _ => us = ts

/-- The expression is one that a node inside the tokens is, and is shown with `us`. -/
def MentionTokens (tokens us : List Token) (m : Mention) : Prop :=
  ∃ n ts, Inside ts tokens ∧ Covers ts n ∧ n.mention? = some m ∧ n.form.Shown ts us ∧ m.extent.Spans us

section Mentions

variable {ts us vs : List Token} {m : Mention}

theorem Form.Shown.isSuffix {form : Form} (h : form.Shown ts us) : us <:+ ts := by
  cases form with
  | methodCall name method =>
    rcases h with ⟨receiver, e, rest, -, rfl, -⟩
    exact List.suffix_append receiver us
  | _ =>
    cases h
    exact List.suffix_refl ts

theorem MentionTokens.inside_tokens (h : MentionTokens ts us m) : Inside us ts := by
  rcases h with ⟨n, part, hinside, -, -, hshown, -⟩
  exact (Inside.part hshown.isSuffix.isInfix).trans hinside

/-- A node that is mentioned is shown with tokens of its own. -/
theorem exists_shown {n : Node} (h : Covers ts n) (hm : n.mention? = some m) :
    ∃ us, n.form.Shown ts us ∧ m.extent.Spans us := by
  cases h with
  | @mk _ form extent children parts spans shaped =>
    cases form with
    | methodCall name method =>
      cases hm
      rcases shaped with ⟨receiver, e, generic, inner, e', hreceiver, rfl, rfl⟩
      refine ⟨_, ⟨receiver, e, _, hreceiver, rfl, rfl⟩, by simp, ?_, ?_⟩
      · rintro _ ⟨⟩
        rfl
      · exact spans.stop.of_append
    | call | binary | literal | expansion =>
      cases hm
      exact ⟨ts, rfl, spans⟩
    | _ => cases hm

mutual

theorem exists_mentionTokens_of_gather (n : Node) (h : Within ts n) :
    ∀ m ∈ n.gather.1, ∃ us, MentionTokens ts us m := by
  match n with
  | .mk form extent children =>
    rcases h with ⟨us, hinside, hcovers⟩
    have hown : ∀ m ∈ (Node.mk form extent []).mention?.toList, ∃ us, MentionTokens ts us m := by
      intro m hm
      have hmention : (Node.mk form extent children).mention? = some m := Option.mem_toList.1 hm
      rcases exists_shown hcovers hmention with ⟨vs, hshown, hspans⟩
      exact ⟨vs, _, us, hinside, hcovers, hmention, hshown, hspans⟩
    cases form with
    | block | item | function | implementation | traitMembers | module =>
      rw [Node.gather]
      simp
    | literal kind =>
      rw [Node.gather]
      exact hown
    | _ =>
      rw [Node.gather]
      · have hchildren : AllWithin ts children := hcovers.children.inside hinside
        exact List.forall_mem_append.2 ⟨hown, exists_mentionTokens_of_gatherAll children hchildren⟩
      all_goals simp

theorem exists_mentionTokens_of_gatherAll (ns : List Node) (h : AllWithin ts ns) :
    ∀ m ∈ (Node.gatherAll ns).1, ∃ us, MentionTokens ts us m := by
  match ns with
  | [] =>
    rw [Node.gatherAll]
    simp
  | n :: ns =>
    rw [allWithin_cons] at h
    rw [Node.gatherAll, List.forall_mem_append]
    exact ⟨exists_mentionTokens_of_gather n h.1, exists_mentionTokens_of_gatherAll ns h.2⟩

end

end Mentions

/-! ## Spans -/

/-- The bytes from one place of the text behind the byte order mark to another. -/
def placeSpan (source : String) (a b : Nat) : Span :=
  ⟨Text.bytes (byteOrderMark source ++ (dropMark source.toList).take a),
    Text.bytes (byteOrderMark source ++ (dropMark source.toList).take b)⟩

/-- The tokens are shown with a span and a text: with the bytes that they take up and what is written
there, if and only if they do not begin on a line with a byte order mark. -/
def Shows (source : String) (ts : List Token) (span : Span) (text : String) : Prop :=
  ∃ a b, Stretch (dropMark source.toList) a b ts ∧
    span = ⟨shownOffset source ((dropMark source.toList).take a),
      shownOffset source ((dropMark source.toList).take b)⟩ ∧
    span.text? source = some text ∧
    (span = placeSpan source a b ↔ ¬ OnMarkedLine source ((dropMark source.toList).take a)) ∧
    (span = placeSpan source a b → text = String.ofList (between (dropMark source.toList) a b))

theorem take_eq_append_between (cs : List Char) {a b : Nat} (h : a ≤ b) :
    cs.take b = cs.take a ++ between cs a b := by
  have hbetween : between cs 0 b = between cs 0 a ++ between cs a b := between_trans (Nat.zero_le a) h
  simpa only [between, List.drop_zero] using hbetween

/-- The ends of a stretch are found unless a byte order mark stands on the line on which it begins. -/
theorem shownSpan_eq_placeSpan_iff (source : String) {a b : Nat} (h : a ≤ b) :
    (⟨shownOffset source ((dropMark source.toList).take a),
      shownOffset source ((dropMark source.toList).take b)⟩ : Span) = placeSpan source a b ↔
      ¬ OnMarkedLine source ((dropMark source.toList).take a) := by
  constructor
  · intro heq hmarked
    exact absurd (congrArg Span.start heq) (Nat.ne_of_lt (shownOffset_lt hmarked))
  · intro hstart
    have hstop : ¬ OnMarkedLine source ((dropMark source.toList).take b) := by
      rw [take_eq_append_between _ h]
      exact fun hmarked => hstart hmarked.of_append
    rw [placeSpan, shownOffset_of_not_marked hstart, shownOffset_of_not_marked hstop]

/-- What covers tokens of a file is found in it and shown with these tokens. -/
theorem exists_shows {source : String} {tokens ts : List Token} {e : Extent} {i k : Nat}
    (h : Stand (dropMark source.toList) i tokens k) (hinside : Inside ts tokens) (hspans : e.Spans ts) :
    ∃ o text, (Locator.ofSource source).locate? e = some (o, text) ∧ Shows source ts o.span text := by
  rcases h.inside hinside with ⟨j, m, hstand⟩
  rcases hstand.exists_stretch hspans.nonempty with ⟨a, b, -, hstretch⟩
  have htake := take_eq_append_between (dropMark source.toList) hstretch.le
  have hsource : dropMark source.toList = (dropMark source.toList).take a ++
      (between (dropMark source.toList) a b ++ (dropMark source.toList).drop b) := by
    rw [← List.append_assoc, ← htake, List.take_append_drop]
  rcases locate?_reported hsource with ⟨o, text, hlocate, hspan, htext⟩
  rw [← htake] at hlocate hspan
  rw [hspans.eq_reported hstretch]
  have hiff := shownSpan_eq_placeSpan_iff source hstretch.le
  rw [← hspan] at hiff
  exact ⟨o, text, hlocate, a, b, hstretch, hspan, (Locator.marks_of_locate? hlocate).2, hiff,
    fun heq => htext (hiff.1 heq)⟩

/-! ## Statements and expressions -/

theorem forall₂_filterMap {α β : Type} {f : α → Option β} {r : α → β → Prop} {xs : List α}
    (h : ∀ x ∈ xs, ∃ y, f x = some y ∧ r x y) : List.Forall₂ r xs (xs.filterMap f) := by
  induction xs with
  | nil => exact .nil
  | cons x xs ih =>
    rw [List.forall_mem_cons] at h
    rcases h with ⟨⟨y, hy, hr⟩, h⟩
    rw [List.filterMap_cons_some hy]
    exact .cons hr (ih h)

/-- The expression is shown with tokens by which it is mentioned. -/
def ExpressionShown (source : String) (ts : List Token) (m : Mention) (e : Expression) : Prop :=
  e.kind = m.kind ∧ e.name = m.name ∧
    ∃ us, MentionTokens ts us m ∧ Shows source us e.origin.span e.text

/-- The statement is shown with its share of a block, and so are the expressions in it. -/
def StatementShown (source : String) (tokens : List Token) (n : Node)
    (content : Origin × String × List Expression) : Prop :=
  n.form = .statement ∧ ∃ ts, Share tokens ts n ∧ Shows source ts content.1.span content.2.1 ∧
    List.Forall₂ (ExpressionShown source ts) n.mentions content.2.2

section Unit

variable {source : String} {tokens ts : List Token} {i k : Nat}

theorem expressions_shown {n : Node} (h : Stand (dropMark source.toList) i tokens k)
    (hinside : Inside ts tokens) (hcovers : Covers ts n) :
    List.Forall₂ (ExpressionShown source ts) n.mentions
      (n.mentions.filterMap (·.expression? (.ofSource source))) := by
  apply forall₂_filterMap
  intro m hm
  rcases exists_mentionTokens_of_gatherAll n.children hcovers.children m hm with ⟨us, hmention⟩
  have hspans : m.extent.Spans us := by
    rcases hmention with ⟨_, _, _, _, _, _, hspans⟩
    exact hspans
  rcases exists_shows h (hmention.inside_tokens.trans hinside) hspans with ⟨o, text, hlocate, hshows⟩
  refine ⟨⟨m.kind, m.name, text, o⟩, ?_, rfl, rfl, us, hmention, hshows⟩
  rw [Mention.expression?, hlocate]
  rfl

theorem statement_shown {n : Node} (h : Stand (dropMark source.toList) i tokens k)
    (hform : n.form = .statement) (hshare : Share tokens ts n) :
    ∃ content, n.content? (.ofSource source) = some content ∧
      StatementShown source tokens n content := by
  rcases exists_shows h hshare.inside_tokens hshare.covers.spans with ⟨o, text, hlocate, hshows⟩
  have hexpressions := expressions_shown h hshare.inside_tokens hshare.covers
  refine ⟨(o, text, n.mentions.filterMap (·.expression? (.ofSource source))), ?_, hform, ts, hshare,
    hshows, hexpressions⟩
  rw [Node.content?, Rust.content?, hlocate]
  rfl

theorem exists_items_of_parseRust {name path source : String} {u : ProgramUnit}
    (h : Frontend.parseRust name path source = .ok u) :
    ∃ items, items? source = some items ∧ u = unitOf name path source items := by
  unfold Frontend.parseRust at h
  split at h
  · cases h
  · next classes hclasses =>
    rcases Option.map_eq_some_iff.1 hclasses with ⟨items, hitems, rfl⟩
    exact ⟨items, hitems, (Except.ok.inj h).symm⟩

end Unit

/-- Every statement of a source file that can be read is found again in the unit, once, and nothing
else is. The tokens that the statement is made of are its share of what stands between the braces of
a block, and they are where the lexer says. Its span runs from the first byte of the first of them to
the last byte of the last one and its text is what is written there, unless it begins on a line with a
byte order mark: then, and only then, the span is another one. The same holds of each expression that
is mentioned in the statement; the tokens of a method call are those from the name of the method
on. -/
theorem spans_are_token_spans_off_marked_line {name path source : String} {u : ProgramUnit}
    (h : Frontend.parseRust name path source = .ok u) :
    u.source = source ∧ ∃ tokens items ordered, fileTokens? source = some tokens ∧
      (∃ k, Stand (dropMark source.toList) 0 tokens k) ∧ items? source = some items ∧
        ordered.Perm u.statements ∧
          List.Forall₂ (fun n s => StatementShown source tokens n s.content) (Node.ofItems items)
            ordered := by
  rcases exists_items_of_parseRust h with ⟨items, hitems, rfl⟩
  rcases allWithin_items hitems with ⟨tokens, htokens, hwithin⟩
  rcases stand_of_fileTokens? htokens with ⟨k, hstand⟩
  have hshown : List.Forall₂ (StatementShown source tokens) (Node.ofItems items)
      ((Node.ofItems items).filterMap (·.content? (.ofSource source))) := by
    apply forall₂_filterMap
    intro n hn
    rcases share_of_mem_ofItems items hwithin n hn with ⟨hform, ts, hshare⟩
    exact statement_shown hstand hform hshare
  have hcontents : List.Forall₂ (fun content s => content = s.content)
      ((unitOf name path source items).statements.map Statement.content)
      (unitOf name path source items).statements :=
    List.forall₂_map_left_iff.2 (List.forall₂_same.2 fun _ _ => rfl)
  rcases List.perm_comp_forall₂ (content_unitOf name path source items).symm hcontents with
    ⟨ordered, hordered, hperm⟩
  rw [← List.forall₂_map_right_iff, List.forall₂_eq_eq_eq] at hordered
  rw [hordered, List.forall₂_map_right_iff] at hshown
  exact ⟨rfl, tokens, items, ordered, htokens, ⟨k, hstand⟩, hitems, hperm, hshown⟩

/-- A file with a line that names an interpreter, line ends of two characters and a letter of two
bytes. -/
def accentedSource : String := "#!/bin/x\r\nfn f() \x7b\r\n  s.g(\"é\", 1 + 2);\r\n\x7d\r\n"

theorem spans_are_token_spans_accented : ∃ u, Frontend.parseRust "a" "a.rs" accentedSource = .ok u ∧
    u.statements.map (fun s => (s.origin.span, s.text)) = [(⟨22, 39⟩, "s.g(\"é\", 1 + 2);")] ∧
    u.source = accentedSource ∧ ∃ tokens items ordered, fileTokens? accentedSource = some tokens ∧
      (∃ k, Stand (dropMark accentedSource.toList) 0 tokens k) ∧ items? accentedSource = some items ∧
        ordered.Perm u.statements ∧
          List.Forall₂ (fun n s => StatementShown accentedSource tokens n s.content) (Node.ofItems items)
            ordered := by
  have hread : (Frontend.parseRust "a" "a.rs" accentedSource).toOption.map
      (fun u => u.statements.map fun s => (s.origin.span, s.text)) =
        some [(⟨22, 39⟩, "s.g(\"é\", 1 + 2);")] := by decide +kernel
  cases hparse : Frontend.parseRust "a" "a.rs" accentedSource with
  | error e =>
    rw [hparse] at hread
    cases hread
  | ok u =>
    rw [hparse] at hread
    exact ⟨u, rfl, Option.some.inj hread, spans_are_token_spans_off_marked_line hparse⟩

/-- On the line of a byte order mark, a statement is shown with the blank in front of it and without
its last character. -/
theorem span_early_on_marked_line :
    (Frontend.parseRust "a" "a.rs" "\ufefffn f() \x7b g(); \x7d\n").toOption.map
        (fun u => u.statements.map fun s => (s.origin.span, s.text)) = some [(⟨11, 15⟩, " g()")] ∧
      (Span.mk 12 16).text? "\ufefffn f() \x7b g(); \x7d\n" = some "g();" := by
  decide +kernel

end LintMend.Rust
