import LintMend.Proofs.PatternMeaning
import LintMend.Proofs.ProposedFixes

/-!
# Arguments of queries

The rule on assembled queries looks for signs of an assembled text behind the last occurrence of the
call's name in the text of the call. If the arguments name the call again, that is not the whole of
them. Signs that stand before the last occurrence are missed. What is reported does have a sign in its
arguments.
-/

namespace LintMend

namespace SqlInjection

open Text (isBlank)

/-! ## Signs of an assembled text -/

/-- Signs of an assembled text. White space may stand between the two pieces of a sign. -/
def signs : List (String × String) :=
  [("format!", "("), ("String.format", "("), ("\"", "+"), ("+", "\""), (".concat", "("),
   (".push_str", "(")]

/-- Some sign of an assembled text is a part of the text. -/
def Assembled (cs : List Char) : Prop :=
  ∃ sign ∈ signs, ∃ gap, (∀ c ∈ gap, isBlank c = true) ∧
    sign.1.toList ++ (gap ++ sign.2.toList) <:+: cs

theorem Assembled.mono {cs ds : List Char} (h : Assembled cs) (hcs : cs <:+: ds) : Assembled ds := by
  rcases h with ⟨sign, hsign, gap, hgap, hpart⟩
  exact ⟨sign, hsign, gap, hgap, hpart.trans hcs⟩

section Fitting

variable {before : Option Char} {part after : List Char}

/-- A pattern of two pieces with white space between them. -/
theorem fits_gapped {p q : Text.Pattern} {left right : List Char}
    (hp : ∀ {b x a}, p.Fits b x a ↔ x = left) (hq : ∀ {b x a}, q.Fits b x a ↔ x = right) :
    (Text.Pattern.all [p, .blanks, q]).Fits before part after ↔
      ∃ gap, (∀ c ∈ gap, isBlank c = true) ∧ part = left ++ (gap ++ right) := by
  simp only [Text.Pattern.fits_all_cons, hp, hq, Text.Pattern.fits_blanks]
  constructor
  · rintro ⟨a, b, rfl, rfl, gap, d, rfl, hgap, e, f, rfl, rfl, rfl⟩
    exact ⟨gap, hgap, by simp⟩
  · rintro ⟨gap, hgap, rfl⟩
    exact ⟨left, gap ++ right, rfl, rfl, gap, right, rfl, hgap, right, [], by simp, rfl, rfl⟩

theorem fits_assembled : assembled.Fits before part after ↔ ∃ sign ∈ signs, ∃ gap,
    (∀ c ∈ gap, isBlank c = true) ∧ part = sign.1.toList ++ (gap ++ sign.2.toList) := by
  have hcall : ∀ name : String, (callOf name).Fits before part after ↔ ∃ gap,
      (∀ c ∈ gap, isBlank c = true) ∧ part = name.toList ++ (gap ++ "(".toList) :=
    fun name => fits_gapped Text.Pattern.fits_literal Text.Pattern.fits_char
  have hmarks : ∀ c d : Char, (Text.Pattern.all [.char c, .blanks, .char d]).Fits before part after ↔
      ∃ gap, (∀ c ∈ gap, isBlank c = true) ∧ part = [c] ++ (gap ++ [d]) :=
    fun c d => fits_gapped Text.Pattern.fits_char Text.Pattern.fits_char
  rw [assembled, Text.Pattern.fits_any]
  simp only [signs, List.mem_cons, List.not_mem_nil, or_false, exists_eq_or_imp, exists_eq_left,
    hcall, hmarks]
  rfl

end Fitting

/-- The search for signs finds one exactly if there is one. -/
theorem occurs_assembled {cs : List Char} : assembled.occurs cs = true ↔ Assembled cs := by
  rw [Text.Pattern.occurs_iff]
  constructor
  · rintro ⟨front, part, back, rfl, hfits⟩
    rcases fits_assembled.1 hfits with ⟨sign, hsign, gap, hgap, rfl⟩
    exact ⟨sign, hsign, gap, hgap, front, back, by simp⟩
  · rintro ⟨sign, hsign, gap, hgap, front, back, rfl⟩
    exact ⟨front, _, back, by simp, fits_assembled.2 ⟨sign, hsign, gap, hgap, rfl⟩⟩

/-! ## Behind the last occurrence -/

/-- The text ends with `back`, the name stands right before it, and nowhere behind that. -/
structure IsBehindLast (name text back : List Char) : Prop where
  occurs : ∃ front, text = front ++ (name ++ back)
  last : ∀ front rest, text = front ++ (name ++ rest) → back <:+ rest

theorem isBehindLast_arguments {text name : String} (h : name.toList <:+: text.toList) :
    IsBehindLast name.toList text.toList (arguments text name) := by
  rcases h with ⟨front, rest, htext⟩
  rw [List.append_assoc] at htext
  rcases Text.exists_rfind? ⟨front, rest, htext.symm, rfl⟩ with ⟨k, hk, -⟩
  rcases Text.occursAt_of_rfind? hk with ⟨last, back, hparts, rfl⟩
  have harguments : arguments text name = back := by
    have hcut : Text.dropBytes? text.toList (Text.bytes last + byteLength name) = some back := by
      rw [byteLength_eq_bytes, ← Text.bytes_append, hparts, ← List.append_assoc, Text.dropBytes?,
        Text.charsBefore?_append, Option.map_some, List.drop_left]
    simp only [arguments, hk, hcut, Option.getD_some]
  rw [harguments]
  refine ⟨⟨last, hparts⟩, ?_⟩
  intro front' rest' hparts'
  rcases Text.exists_rfind? ⟨front', rest', hparts', rfl⟩ with ⟨k', hk', hle⟩
  cases hk.symm.trans hk'
  rcases Text.exists_between (hparts'.symm.trans hparts) hle with ⟨mid, rfl, hmid⟩
  -- Both ends follow the name, so their lengths differ by what stands between the occurrences.
  have hsuffix : back <:+ name.toList ++ rest' := ⟨mid ++ name.toList, by rw [hmid, List.append_assoc]⟩
  have hlength := congrArg List.length hmid
  simp only [List.length_append] at hlength
  exact List.suffix_of_suffix_length_le hsuffix (List.suffix_append _ _) (by omega)

/-! ## What is reported -/

/-- The issue of a call that runs an assembled query. -/
def issueOf (c : Context) (x : Expression) (name : String) : Issue :=
  ⟨c.defectOf x.origin name s!"`{name}` receives SQL assembled at runtime - use bound parameters", none⟩

theorem issuesAlone_of_assembled {c : Context} {x : Expression} {name : String}
    (hname : x.name = some name) (hassembled : Assembled (arguments x.text name))
    (hfits : c.Fits x.origin name) (s : Statement) :
    rule.issuesAlone c (.expression s x) = [issueOf c x name] := by
  apply Checker.issuesAlone_of_found rfl
  simp only [check, hname, Option.getD_some, occurs_assembled.2 hassembled, if_true,
    Context.defectAt_of_fits hfits]
  rfl

theorem issuesAlone_of_not {c : Context} {x : Expression} {name : String} (hname : x.name = some name)
    (h : ¬ (Assembled (arguments x.text name) ∧ c.Fits x.origin name)) (s : Statement) :
    rule.issuesAlone c (.expression s x) = [] := by
  by_cases hassembled : Assembled (arguments x.text name)
  · have hfits : ¬ c.Fits x.origin name := fun hfits => h ⟨hassembled, hfits⟩
    have hcheck : check c (.expression s x) = .error Context.overflow := by
      simp only [check, hname, Option.getD_some, occurs_assembled.2 hassembled, if_true,
        Context.defectAt_of_not_fits hfits]
      rfl
    simp [Checker.issuesAlone, rule, hcheck, Reporting.ofFound]
  · apply Checker.issuesAlone_of_found rfl
    have hnone : ¬ assembled.occurs (arguments x.text name) = true := mt occurs_assembled.1 hassembled
    simp only [check, hname, Option.getD_some, hnone]
    rfl

theorem accepts_of_query {x : Expression} {name : String} (hkind : x.kind = .call ∨ x.kind = .methodCall)
    (hname : x.name = some name) (hquery : name ∈ names ∨ Matcher.lastSegment name ∈ names)
    (s : Statement) : rule.accepts (.expression s x) = true := by
  have haccepts : rule.accepts (.expression s x) = true ↔
      (x.kind = .call ∨ x.kind = .methodCall) ∧ (name ∈ names ∨ Matcher.lastSegment name ∈ names) := by
    simp [Checker.accepts, rule, Matcher.accepts, Matcher.named, Entity.granularity, hname]
  exact haccepts.2 ⟨hkind, hquery⟩

/-- A call that runs a query, and whose text is its name and its arguments, is reported exactly if a sign
of an assembled text stands behind the last occurrence of its name and the columns fit. So what is
reported has a sign in its arguments. The report is the right one for the whole of the arguments exactly
if not all of their signs are cut off with the last occurrence of the name, and that occurrence is in
front of the arguments if they do not name the call again. -/
theorem reported_iff_assembled_behind_last_name {c : Context} {s : Statement} {x : Expression}
    {name : String} {args : List Char} (hkind : x.kind = .call ∨ x.kind = .methodCall)
    (hname : x.name = some name) (hquery : name ∈ names ∨ Matcher.lastSegment name ∈ names)
    (htext : x.text.toList = name.toList ++ args) :
    rule.accepts (.expression s x) = true ∧ ∃ back,
      IsBehindLast name.toList x.text.toList back ∧ back <:+ args ∧
      (rule.issuesAlone c (.expression s x) = [issueOf c x name] ↔
        Assembled back ∧ c.Fits x.origin name) ∧
      (rule.issuesAlone c (.expression s x) = [] ↔ ¬ (Assembled back ∧ c.Fits x.origin name)) ∧
      (Assembled back → Assembled args) ∧
      (c.Fits x.origin name →
        ((rule.issuesAlone c (.expression s x) = [issueOf c x name] ↔ Assembled args) ↔
          (Assembled args → Assembled back))) ∧
      ((∀ front rest, x.text.toList = front ++ (name.toList ++ rest) → front = []) → back = args) := by
  have hstart : x.text.toList = [] ++ (name.toList ++ args) := htext
  have hcs : name.toList <:+: x.text.toList := ⟨[], args, by rw [htext, List.nil_append]⟩
  have hbehind := isBehindLast_arguments hcs
  have hsuffix : arguments x.text name <:+ args := hbehind.last [] args hstart
  have hmono : Assembled (arguments x.text name) → Assembled args := fun h => h.mono hsuffix.isInfix
  have hreported : rule.issuesAlone c (.expression s x) = [issueOf c x name] ↔
      Assembled (arguments x.text name) ∧ c.Fits x.origin name := by
    constructor
    · intro h
      by_contra hnot
      rw [issuesAlone_of_not hname hnot] at h
      cases h
    · rintro ⟨hassembled, hfits⟩
      exact issuesAlone_of_assembled hname hassembled hfits s
  refine ⟨accepts_of_query hkind hname hquery s, arguments x.text name, hbehind, hsuffix, hreported,
    ?_, hmono, ?_, ?_⟩
  · constructor
    · intro h hboth
      rw [hreported.2 hboth] at h
      cases h
    · intro hnot
      exact issuesAlone_of_not hname hnot s
  · intro hfits
    rw [hreported, and_iff_left hfits]
    exact ⟨fun h => h.2, fun h => ⟨hmono, h⟩⟩
  · intro honly
    rcases hbehind.occurs with ⟨front, hparts⟩
    have hfront := honly front _ hparts
    rw [hfront, hstart] at hparts
    exact (List.append_cancel_left (List.append_cancel_left hparts)).symm

/-- A statement that runs a query with a text that is added up. -/
def addedCall : Expression := ⟨.call, some "db::query", "db::query(\"a\" + b)", ⟨1, 1, ⟨0, 18⟩⟩⟩

def addedStatement : Statement := ⟨0, ⟨1, 1, ⟨0, 18⟩⟩, "db::query(\"a\" + b)", [addedCall], none⟩

def addedContext : Context :=
  ⟨{ name := "a", path := "a.rs", source := "db::query(\"a\" + b)" }, "sql-injection", .error, ""⟩

theorem reported_iff_assembled_behind_last_name_added :
    (addedCall.kind = .call ∨ addedCall.kind = .methodCall) ∧ addedCall.name = some "db::query" ∧
      ("db::query" ∈ names ∨ Matcher.lastSegment "db::query" ∈ names) ∧
      addedCall.text.toList = "db::query".toList ++ "(\"a\" + b)".toList ∧
      rule.accepts (.expression addedStatement addedCall) = true ∧
      rule.issuesAlone addedContext (.expression addedStatement addedCall) =
        [issueOf addedContext addedCall "db::query"] := by
  have hquery : "db::query" ∈ names ∨ Matcher.lastSegment "db::query" ∈ names := by decide +kernel
  have htext : addedCall.text.toList = "db::query".toList ++ "(\"a\" + b)".toList := by decide +kernel
  have hsome : rule.issuesAlone addedContext (.expression addedStatement addedCall) ≠ [] :=
    List.isEmpty_eq_false_iff.1 (by decide +kernel)
  rcases reported_iff_assembled_behind_last_name (c := addedContext) (s := addedStatement) (.inl rfl) rfl
    hquery htext with ⟨haccepts, back, -, -, hreported, hunreported, -⟩
  have hback := Classical.not_not.1 (mt hunreported.2 hsome)
  exact ⟨.inl rfl, rfl, hquery, htext, haccepts, hreported.2 hback⟩

/-- A source with a query that is formatted and names the call once more. -/
def renamed : String := "fn f() \x7b query(format!(\"\x7b\x7d\", query_text)); \x7d"

/-- The call in it. -/
def renamedCall : Expression :=
  ⟨.call, some "query", "query(format!(\"\x7b\x7d\", query_text))", ⟨1, 10, ⟨9, 41⟩⟩⟩

def renamedStatement : Statement where
  id := 0
  origin := ⟨1, 10, ⟨9, 42⟩⟩
  text := "query(format!(\"\x7b\x7d\", query_text));"
  expressions := [renamedCall,
    ⟨.expansion, some "format", "format!(\"\x7b\x7d\", query_text)", ⟨1, 16, ⟨15, 40⟩⟩⟩,
    ⟨.stringLiteral, none, "\"\x7b\x7d\"", ⟨1, 24, ⟨23, 27⟩⟩⟩]

/-- What is lowered from it. -/
def renamedUnit : ProgramUnit where
  name := "a.rs"
  path := "a.rs"
  source := renamed
  classes := [⟨"<module>", none, [⟨"f", some ⟨1, 1, ⟨0, 44⟩⟩, ⟨[⟨0, [renamedStatement]⟩], []⟩⟩]⟩]

/-- The arguments of the call are formatted, and nothing is reported. -/
theorem unreported_renamed :
    (Frontend.parse "a.rs" "a.rs" renamed).toOption = some renamedUnit ∧
      "query" ∈ names ∧
      renamedCall.text.toList = "query".toList ++ "(format!(\"\x7b\x7d\", query_text))".toList ∧
      Assembled "(format!(\"\x7b\x7d\", query_text))".toList ∧
      rule.accepts (.expression renamedStatement renamedCall) = true ∧
      rule.issuesAlone (rule.context renamedUnit {}) (.expression renamedStatement renamedCall) =
        [] := by
  have hassembled : Assembled "(format!(\"\x7b\x7d\", query_text))".toList :=
    occurs_assembled.1 (by decide +kernel)
  have hnone := (List.isEmpty_iff (l := rule.issuesAlone (rule.context renamedUnit {})
    (.expression renamedStatement renamedCall))).1 (by decide +kernel)
  exact ⟨by decide +kernel, by decide +kernel, by decide +kernel, hassembled, by decide +kernel, hnone⟩

end SqlInjection

end LintMend
