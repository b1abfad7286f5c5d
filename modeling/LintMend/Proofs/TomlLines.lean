import LintMend.Proofs.InlineToml

/-!
# Lines of a document

Each line of a document is read on its own, with fuel for every character that is left. The text of
sections is a list of such lines.
-/

namespace LintMend.Toml

/-! ## Lines -/

/-- The text is read as the lines, whatever follows it. There is fuel for each character that is
left. -/
def Reads (text : List Char) (lines : List Line) : Prop :=
  ∀ fuel done rest, text.length + rest.length < fuel → ∃ fuel', rest.length < fuel' ∧
    lines? fuel done (text ++ rest) = lines? fuel' (lines.reverse ++ done) rest

section Lines

variable {text text' : List Char} {lines lines' : List Line}

theorem Reads.nil : Reads [] [] := by
  intro fuel done rest hfuel
  exact ⟨fuel, by simpa using hfuel, rfl⟩

theorem Reads.append (h : Reads text lines) (h' : Reads text' lines') :
    Reads (text ++ text') (lines ++ lines') := by
  intro fuel done rest hfuel
  rw [List.length_append] at hfuel
  rcases h fuel done (text' ++ rest) (by rw [List.length_append]; omega) with ⟨fuel₁, hfuel₁, hread⟩
  rw [List.length_append] at hfuel₁
  rcases h' fuel₁ (lines.reverse ++ done) rest hfuel₁ with ⟨fuel₂, hfuel₂, hread'⟩
  refine ⟨fuel₂, hfuel₂, ?_⟩
  rw [List.append_assoc, hread, hread', List.reverse_append, List.append_assoc]

/-- An empty line adds nothing. -/
theorem Reads.blank : Reads ['\n'] [] := by
  intro fuel done rest hfuel
  obtain ⟨fuel, rfl⟩ : ∃ n, fuel = n + 1 := ⟨fuel - 1, by omega⟩
  refine ⟨fuel + 1, by rw [List.length_singleton] at hfuel; omega, ?_⟩
  have hskip : skipLines (('\n' :: rest).length + 1) ('\n' :: rest) =
      skipLines (rest.length + 1) rest := skipLines_newline
  rw [List.singleton_append, lines?, lines?, hskip]
  rfl

/-- A line: a header or a pair. -/
def line? : List Char → Option (Line × List Char)
  | '[' :: cs => header? cs
  | cs => pair? cs

theorem lines?_of_line {fuel : Nat} {done : List Line} {c : Char} {cs rest : List Char} {line : Line}
    (hsolid : isSolid c = true) (hcomment : c ≠ '#')
    (h : line? (c :: cs) = some (line, '\n' :: rest)) :
    lines? (fuel + 1) done (c :: cs) = lines? fuel (line :: done) rest := by
  rw [lines?, skipLines_of_solid hsolid hcomment]
  unfold line? at h
  split at h
  · next heq =>
    cases heq
    simp only [h]
    rfl
  · simp only [h]
    rfl

theorem Reads.of_line {c : Char} {cs : List Char} {line : Line} (hsolid : isSolid c = true)
    (hcomment : c ≠ '#')
    (h : ∀ rest, line? (c :: (cs ++ '\n' :: rest)) = some (line, '\n' :: rest)) :
    Reads (c :: (cs ++ ['\n'])) [line] := by
  intro fuel done rest hfuel
  obtain ⟨fuel, rfl⟩ : ∃ n, fuel = n + 1 := ⟨fuel - 1, by omega⟩
  refine ⟨fuel, by simp at hfuel; omega, ?_⟩
  rw [List.cons_append, List.append_assoc, List.singleton_append,
    lines?_of_line hsolid hcomment (h rest)]
  rfl

theorem endsKey_of_solid {c : Char} (hbare : isBare c = false) (hsolid : isSolid c = true)
    (hdot : c ≠ '.') (cs : List Char) : EndsKey (c :: cs) := by
  refine ⟨?_, ?_⟩
  · rintro d ⟨⟩
    exact hbare
  · intro more heq
    rw [skipWhite_of_solid hsolid] at heq
    exact hdot (List.cons.inj heq).1

/-- A pair is read back if its value is. -/
theorem pair?_assignment {e : String × Toml} (h : ReadBack 0 e.2) (rest : List Char) :
    pair? (assignment e ++ '\n' :: rest) = some (.pair ([], e.1) e.2, '\n' :: rest) := by
  have hequals : isSolid '=' = true := by decide
  have hkey := key?_assignment e (List.forall_mem_nil _) ('\n' :: rest)
  have hvalue := h.read (by rw [List.length_append]; omega :
    _ ≤ 2 * (e.2.inline.toList ++ '\n' :: rest).length + 2) (.newline rest)
  rw [List.nil_append] at hkey
  rw [pair?, hkey]
  simp only [Option.bind_eq_bind, Option.bind_some, skipWhite_of_solid hequals, h.skip_space, hvalue]
  rfl

theorem Reads.pair {e : String × Toml} (h : ReadBack 0 e.2) :
    Reads (assignment e ++ ['\n']) [.pair ([], e.1) e.2] := by
  rcases exists_assignment e with ⟨c, cs, htext, hc⟩
  rw [htext]
  refine .of_line (isSolid_of_isKeyStart hc) (ne_of_isKeyStart hc (by decide)) ?_
  intro rest
  have hpair := pair?_assignment h rest
  rw [htext] at hpair
  unfold line?
  split
  · next heq => exact absurd (List.cons.inj heq).1 (ne_of_isKeyStart hc (by decide))
  · exact hpair

section Headers

variable {path : List String} (key : String)

/-- The path of a header is read up to the closing bracket. -/
theorem key?_header (hpath : path.length + 1 < depthLimit) (rest : List Char) :
    key? (pathText (path ++ [key]) ++ ']' :: rest) = some ((path, key), ']' :: rest) := by
  have hends : EndsKey (']' :: rest) := endsKey_of_solid (by decide) (by decide) (by decide) rest
  have hread := @key?_pathText [] (List.forall_mem_nil _) path key hpath _ hends
  rwa [skipWhite_of_solid (by decide)] at hread

/-- A header is read back, unless its path is too long. -/
theorem Reads.header (hpath : path.length + 1 < depthLimit) :
    Reads ('[' :: (pathText (path ++ [key]) ++ [']'] ++ ['\n'])) [.header (path, key)] := by
  refine .of_line (by decide) (by decide) ?_
  intro rest
  rcases exists_pathText (List.concat_ne_nil key path) with ⟨c, cs, htext, hc⟩
  have hopen : c ≠ '[' := ne_of_isKeyStart hc (by decide)
  have hkey := key?_header key hpath ('\n' :: rest)
  rw [List.append_assoc, List.singleton_append, line?, header?.eq_2, hkey]
  · rfl
  · rw [htext]
    intro cs heq
    exact hopen (List.cons.inj heq).1

theorem Reads.arrayHeader (hpath : path.length + 1 < depthLimit) :
    Reads ('[' :: ('[' :: pathText (path ++ [key]) ++ [']', ']'] ++ ['\n']))
      [.arrayHeader (path, key)] := by
  refine .of_line (by decide) (by decide) ?_
  intro rest
  have hkey := key?_header key hpath (']' :: '\n' :: rest)
  rw [List.append_assoc, List.cons_append, line?, header?]
  exact (congrArg (Option.bind · _) hkey)

end Headers

end Lines

/-! ## Texts -/

/-- The lines with their ends. -/
def ended (lines : List String) : List Char := lines.flatMap fun line => line.toList ++ ['\n']

/-- The text of a section; an empty line stands before its header unless it is the first. -/
def Section.text (first : Bool) (s : Section) : List Char :=
  match s.header with
  | none => ended s.lines
  | some header =>
    (if first then [] else ['\n']) ++ (header.toList ++ ['\n']) ++ ended s.lines

/-- Nothing is written for the section. -/
def Section.isBlank (s : Section) : Bool := s.header.isNone && s.lines.isEmpty

/-- The text of sections behind others; `first` tells whether the others wrote nothing. -/
def sectionsText (first : Bool) : List Section → List Char
  | [] => []
  | s :: sections => s.text first ++ sectionsText (first && s.isBlank) sections

theorem toList_join_ended (lines : List String) :
    (String.join (lines.map (· ++ "\n"))).toList = ended lines := by
  rw [String.toList_join, List.flatMap_map, ended]
  simp

/-- Writing one section behind a text. -/
def renderStep (written : String × Bool) (s : Section) : String × Bool :=
  match s.header with
  | none =>
    (written.1 ++ String.join (s.lines.map (· ++ "\n")), written.2 && s.lines.isEmpty)
  | some header =>
    (written.1 ++ (if written.2 then "" else "\n") ++ header ++ "\n" ++
      String.join (s.lines.map (· ++ "\n")), false)

theorem renderSections_eq (sections : List Section) :
    renderSections sections = (sections.foldl renderStep ("", true)).1 := rfl

theorem toList_renderStep (written : String × Bool) (s : Section) :
    (renderStep written s).1.toList = written.1.toList ++ s.text written.2 := by
  unfold renderStep Section.text
  cases s.header with
  | none => rw [String.toList_append, toList_join_ended]
  | some header =>
    simp only [String.toList_append, toList_join_ended]
    cases written.2 <;> simp

theorem renderStep_snd (written : String × Bool) (s : Section) :
    (renderStep written s).2 = (written.2 && s.isBlank) := by
  unfold renderStep Section.isBlank
  cases s.header with
  | none => rfl
  | some header => simp

theorem toList_foldl_renderStep (sections : List Section) (written : String × Bool) :
    (sections.foldl renderStep written).1.toList =
      written.1.toList ++ sectionsText written.2 sections := by
  induction sections generalizing written with
  | nil => simp [sectionsText]
  | cons s sections ih =>
    rw [List.foldl_cons, ih, toList_renderStep, renderStep_snd, sectionsText, List.append_assoc]

theorem toList_renderSections (sections : List Section) :
    (renderSections sections).toList = sectionsText true sections := by
  rw [renderSections_eq, toList_foldl_renderStep, String.toList_empty, List.nil_append]

theorem sectionsText_append (first : Bool) (sections sections' : List Section) :
    sectionsText first (sections ++ sections') =
      sectionsText first sections ++
        sectionsText (first && sections.all Section.isBlank) sections' := by
  induction sections generalizing first with
  | nil => simp [sectionsText]
  | cons s sections ih =>
    rw [List.cons_append, sectionsText, sectionsText, ih, List.append_assoc, List.all_cons,
      Bool.and_assoc]

end LintMend.Toml
