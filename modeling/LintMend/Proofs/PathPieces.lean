import LintMend.Proofs.DiskPlaces

/-!
# Pieces and parts of paths

A path is the join of its pieces, and the pieces that mean something are its steps: going up, or
into what a name says. The path to the directory above is written anew from the parts that are left.
It takes the same steps except for the last one, and all its characters come from the path.
-/

namespace LintMend

/-! ## Splitting and joining -/

namespace Text

theorem splitWhen_eq_splitOnP (p : Char → Bool) (cs : List Char) : splitWhen p cs = cs.splitOnP p := by
  induction cs with
  | nil => rw [splitWhen, List.splitOnP_nil]
  | cons c cs ih =>
    have hne := List.splitOnP_ne_nil p cs
    rw [splitWhen, ih, List.splitOnP_cons_eq_if_modifyHead]
    cases hsplit : cs.splitOnP p with
    | nil => exact absurd hsplit hne
    | cons piece pieces => rfl

theorem notMem_of_mem_splitWhen {c : Char} {cs piece : List Char}
    (h : piece ∈ splitWhen (· == c) cs) : c ∉ piece := by
  induction cs generalizing piece with
  | nil =>
    rw [splitWhen, List.mem_singleton] at h
    simp [h]
  | cons d cs ih =>
    rw [splitWhen] at h
    by_cases hd : (d == c) = true
    · rw [if_pos hd] at h
      rcases List.mem_cons.1 h with rfl | h
      · exact List.not_mem_nil
      · exact ih h
    · rw [if_neg hd] at h
      have hdc : c ≠ d := fun heq => hd (by simp [heq])
      cases hsplit : splitWhen (· == c) cs with
      | nil => exact absurd hsplit (splitWhen_ne_nil _ cs)
      | cons first pieces =>
        rw [hsplit] at h ih
        rcases List.mem_cons.1 h with rfl | h
        · simp [hdc, ih List.mem_cons_self]
        · exact ih (List.mem_cons_of_mem _ h)

/-- Leaving out pieces leaves out characters. -/
theorem intercalate_sublist {sep : List Char} {xs ys : List (List Char)} (h : xs.Sublist ys) :
    (sep.intercalate xs).Sublist (sep.intercalate ys) := by
  induction h with
  | slnil => exact List.Sublist.refl _
  | @cons xs ys y h ih =>
    by_cases hys : ys = []
    · rw [hys] at h
      rw [List.sublist_nil.1 h, List.intercalate_nil]
      exact List.nil_sublist _
    · rw [List.intercalate_cons_of_ne_nil hys]
      exact ih.trans (List.sublist_append_right _ _)
  | @cons_cons xs ys x h ih =>
    by_cases hxs : xs = []
    · rw [hxs, List.intercalate_singleton]
      by_cases hys : ys = []
      · rw [hys, List.intercalate_singleton]
      · rw [List.intercalate_cons_of_ne_nil hys, List.append_assoc]
        exact List.sublist_append_left _ _
    · have hys : ys ≠ [] := by
        rintro rfl
        exact hxs (List.sublist_nil.1 h)
      rw [List.intercalate_cons_of_ne_nil hxs, List.intercalate_cons_of_ne_nil hys]
      exact ih.append_left _

theorem mem_intercalate {sep : List Char} {c : Char} {xs : List (List Char)}
    (h : c ∈ sep.intercalate xs) : c ∈ sep ∨ ∃ x ∈ xs, c ∈ x := by
  induction xs with
  | nil => simp at h
  | cons x xs ih =>
    by_cases hxs : xs = []
    · rw [hxs, List.intercalate_singleton] at h
      exact .inr ⟨x, List.mem_cons_self, h⟩
    · rw [List.intercalate_cons_of_ne_nil hxs, List.mem_append, List.mem_append] at h
      rcases h with (hx | hsep) | hrest
      · exact .inr ⟨x, List.mem_cons_self, hx⟩
      · exact .inl hsep
      · exact (ih hrest).imp_right fun ⟨y, hy, hc⟩ => ⟨y, List.mem_cons_of_mem _ hy, hc⟩

end Text

namespace Path

variable {path piece : String} {part : PathPart} {pieces : List String}

theorem splitAtChar_ne_nil (path : String) : splitAtChar path '/' ≠ [] := by
  simp [splitAtChar, Text.splitWhen_ne_nil]

theorem slash_notMem_of_mem (h : piece ∈ splitAtChar path '/') : '/' ∉ piece.toList := by
  rcases List.mem_map.1 h with ⟨cs, hcs, rfl⟩
  rw [String.toList_ofList]
  exact Text.notMem_of_mem_splitWhen hcs

/-- A path is the join of its pieces. -/
theorem intercalate_splitAtChar (path : String) : "/".intercalate (splitAtChar path '/') = path := by
  rw [← String.toList_inj, String.toList_intercalate, splitAtChar, List.map_map]
  have hid : String.toList ∘ String.ofList = id := by
    funext cs
    exact String.toList_ofList
  rw [hid, List.map_id, Text.splitWhen_eq_splitOnP]
  exact List.intercalate_splitOn '/'

theorem splitAtChar_intercalate (hne : pieces ≠ []) (h : ∀ piece ∈ pieces, '/' ∉ piece.toList) :
    splitAtChar ("/".intercalate pieces) '/' = pieces := by
  have hlists : ∀ cs ∈ pieces.map String.toList, '/' ∉ cs := by
    intro cs hcs
    rcases List.mem_map.1 hcs with ⟨piece, hpiece, rfl⟩
    exact h piece hpiece
  have hsplit : Text.splitWhen (· == '/') (['/'].intercalate (pieces.map String.toList)) =
      pieces.map String.toList := by
    rw [Text.splitWhen_eq_splitOnP]
    exact List.splitOn_intercalate '/' hlists (by simpa using hne)
  have hslash : "/".toList = ['/'] := rfl
  rw [splitAtChar, String.toList_intercalate, hslash, hsplit, List.map_map]
  have hid : String.ofList ∘ String.toList = id := by
    funext s
    exact String.ofList_toList
  rw [hid, List.map_id]

theorem splitAtChar_slash_append (s : String) :
    splitAtChar ("/" ++ s) '/' = "" :: splitAtChar s '/' := by
  have hlist : ("/" ++ s).toList = '/' :: s.toList := by simp
  rw [splitAtChar, hlist, Text.splitWhen]
  rfl

/-! ## Steps -/

/-- The steps that a path takes. -/
def steps (path : String) : List PathPart := partsOfPieces (splitAtChar path '/')

/-- The part goes up or into what a name says. -/
def IsStep : PathPart → Prop
  | .up => True
  | .name s => IsName s
  | _ => False

theorem parts_eq (path : String) :
    parts path =
      if isAbsolute path then .root :: steps path
      else if (splitAtChar path '/').head? == some "." then .here :: steps path
      else steps path := rfl

theorem isStep_of_partOf? (hslash : '/' ∉ piece.toList) (h : partOf? piece = some part) :
    IsStep part ∧ part.text = piece := by
  unfold partOf? at h
  split at h
  · simp at h
  · next hhere =>
    split at h
    · next hup =>
      cases h
      exact ⟨trivial, (beq_iff_eq.1 hup).symm⟩
    · next hup =>
      cases h
      simp only [Bool.or_eq_true, beq_iff_eq, not_or] at hhere hup
      exact ⟨⟨hslash, hhere.1, hhere.2, hup⟩, rfl⟩

theorem partOf?_text (h : IsStep part) : partOf? part.text = some part := by
  cases part with
  | root => exact h.elim
  | here => exact h.elim
  | up => rfl
  | name s =>
    have hname : IsName s := h
    simp [partOf?, PathPart.text, hname.ne_empty, hname.ne_here, hname.ne_up]

theorem partsOfPieces_texts {parts : List PathPart} (h : ∀ part ∈ parts, IsStep part) :
    partsOfPieces (parts.map PathPart.text) = parts := by
  induction parts with
  | nil => rfl
  | cons part parts ih =>
    rw [List.forall_mem_cons] at h
    rw [List.map_cons, partsOfPieces, List.filterMap_cons_some (partOf?_text h.1)]
    exact congrArg (part :: ·) (ih h.2)

theorem slash_notMem_text (h : IsStep part) : '/' ∉ part.text.toList := by
  cases part with
  | root => exact h.elim
  | here => exact h.elim
  | up => decide
  | name s => exact IsName.slashless h

theorem isStep_of_mem_steps (h : part ∈ steps path) : IsStep part := by
  rcases List.mem_filterMap.1 h with ⟨piece, hpiece, hpart⟩
  exact (isStep_of_partOf? (slash_notMem_of_mem hpiece) hpart).1

/-- A path that takes steps ends by going up or with a name. -/
theorem exists_last_step (h : steps path ≠ []) :
    ∃ init, steps path = init ++ [.up] ∨ ∃ name, steps path = init ++ [.name name] := by
  have hsplit := List.dropLast_append_getLast h
  have hstep := isStep_of_mem_steps (List.getLast_mem h)
  apply Exists.intro (steps path).dropLast
  cases hlast : (steps path).getLast h with
  | root =>
    rw [hlast] at hstep
    exact hstep.elim
  | here =>
    rw [hlast] at hstep
    exact hstep.elim
  | up => exact .inl (by rw [← hlast, hsplit])
  | name s => exact .inr ⟨s, by rw [← hlast, hsplit]⟩

/-- Parts are written in the pieces. -/
theorem texts_sublist (h : ∀ piece ∈ pieces, '/' ∉ piece.toList) :
    ((partsOfPieces pieces).map PathPart.text).Sublist pieces := by
  induction pieces with
  | nil => exact List.Sublist.refl _
  | cons piece pieces ih =>
    rw [List.forall_mem_cons] at h
    cases hpart : partOf? piece with
    | none =>
      rw [partsOfPieces, List.filterMap_cons_none hpart]
      exact (ih h.2).cons _
    | some part =>
      rw [partsOfPieces, List.filterMap_cons_some hpart, List.map_cons,
        (isStep_of_partOf? h.1 hpart).2]
      exact (ih h.2).cons_cons _

theorem steps_slash_append (s : String) : steps ("/" ++ s) = steps s := by
  rw [steps, splitAtChar_slash_append]
  rfl

/-- Steps that are written are taken. -/
theorem steps_intercalate {parts : List PathPart} (h : ∀ part ∈ parts, IsStep part) :
    steps ("/".intercalate (parts.map PathPart.text)) = parts := by
  by_cases hparts : parts = []
  · rw [hparts]
    rfl
  · have htexts : ∀ piece ∈ parts.map PathPart.text, '/' ∉ piece.toList := by
      intro piece hpiece
      rcases List.mem_map.1 hpiece with ⟨part, hpart, rfl⟩
      exact slash_notMem_text (h part hpart)
    rw [steps, splitAtChar_intercalate (by simpa using hparts) htexts, partsOfPieces_texts h]

theorem steps_here_intercalate {parts : List PathPart} (h : ∀ part ∈ parts, IsStep part) :
    steps ("/".intercalate ("." :: parts.map PathPart.text)) = parts := by
  have htexts : ∀ piece ∈ "." :: parts.map PathPart.text, '/' ∉ piece.toList := by
    rw [List.forall_mem_cons]
    refine ⟨by decide, fun piece hpiece => ?_⟩
    rcases List.mem_map.1 hpiece with ⟨part, hpart, rfl⟩
    exact slash_notMem_text (h part hpart)
  rw [steps, splitAtChar_intercalate (List.cons_ne_nil _ _) htexts]
  exact partsOfPieces_texts h

/-! ## Absolute paths -/

theorem isAbsolute_iff : isAbsolute path = true ↔ path.toList.head? = some '/' := by
  unfold isAbsolute startsWithText
  cases path.toList with
  | nil => simp
  | cons c cs =>
    have hslash : "/".toList = ['/'] := rfl
    rw [hslash, List.isPrefixOf_iff_prefix, List.head?_cons, Option.some.injEq,
      List.singleton_prefix_cons_iff]
    exact eq_comm

theorem isAbsolute_slash_append (s : String) : isAbsolute ("/" ++ s) = true := by
  simp [isAbsolute_iff]

/-- A path that begins with a piece that is not empty is relative. -/
theorem isAbsolute_intercalate (hne : piece ≠ "") (hslash : '/' ∉ piece.toList) :
    isAbsolute ("/".intercalate (piece :: pieces)) = false := by
  cases hpiece : piece.toList with
  | nil => exact absurd (String.toList_eq_nil_iff.1 hpiece) hne
  | cons c cs =>
    have hc : c ≠ '/' := by
      rintro rfl
      exact hslash (hpiece ▸ List.mem_cons_self)
    have hhead : ("/".intercalate (piece :: pieces)).toList.head? = some c := by
      rw [String.toList_intercalate, List.map_cons, hpiece, List.intercalate_cons_cons_left]
      rfl
    rw [Bool.eq_false_iff, ne_eq, isAbsolute_iff, hhead]
    simpa using hc

theorem text_ne_empty (h : IsStep part) : part.text ≠ "" := by
  cases part with
  | root => exact h.elim
  | here => exact h.elim
  | up => decide
  | name s => exact IsName.ne_empty h

theorem isAbsolute_texts {parts : List PathPart} (h : ∀ part ∈ parts, IsStep part) :
    isAbsolute ("/".intercalate (parts.map PathPart.text)) = false := by
  cases parts with
  | nil => rfl
  | cons part parts =>
    rw [List.forall_mem_cons] at h
    exact isAbsolute_intercalate (text_ne_empty h.1) (slash_notMem_text h.1)

/-! ## Slashes at the end -/

theorem steps_append_slash (path : String) : steps (path ++ "/") = steps path := by
  have hsplit : splitAtChar (path ++ "/") '/' = splitAtChar path '/' ++ [""] :=
    splitAtChar_append_slash (by simp) (by simp)
  rw [steps, hsplit, partsOfPieces, List.filterMap_append]
  exact List.append_nil _

theorem steps_of_trailing {short : String} {slashes : List Char}
    (hslashes : ∀ c ∈ slashes, c = '/') (h : path.toList = short.toList ++ slashes) :
    steps path = steps short := by
  induction slashes generalizing short with
  | nil =>
    rw [List.append_nil, String.toList_inj] at h
    rw [h]
  | cons c slashes ih =>
    rw [List.forall_mem_cons] at hslashes
    have hlonger : path.toList = (short ++ "/").toList ++ slashes := by
      rw [h, hslashes.1]
      simp
    rw [ih hslashes.2 hlonger, steps_append_slash]

theorem exists_dropSlashes (path : String) :
    ∃ slashes, (∀ c ∈ slashes, c = '/') ∧
      path.toList = (Disk.dropSlashes path).toList ++ slashes ∧
      (path ≠ "" → Disk.dropSlashes path ≠ "") := by
  have hsplit : path.toList = (path.toList.reverse.dropWhile (· == '/')).reverse ++
      (path.toList.reverse.takeWhile (· == '/')).reverse := by
    rw [← List.reverse_append, List.takeWhile_append_dropWhile, List.reverse_reverse]
  have hslashes : ∀ c ∈ (path.toList.reverse.takeWhile (· == '/')).reverse, c = '/' := by
    intro c hc
    have hall := List.all_eq_true.1 List.all_takeWhile c (List.mem_reverse.1 hc)
    exact beq_iff_eq.1 hall
  unfold Disk.dropSlashes
  split
  · next hnil => exact ⟨[], by simp, by simp, id⟩
  · next cs hcs =>
    refine ⟨_, hslashes, by rw [String.toList_ofList]; exact hsplit, fun _ hempty => hcs ?_⟩
    rw [← String.toList_inj, String.toList_ofList] at hempty
    exact hempty

theorem steps_dropSlashes (path : String) : steps (Disk.dropSlashes path) = steps path := by
  rcases exists_dropSlashes path with ⟨slashes, hslashes, hsplit, -⟩
  exact (steps_of_trailing hslashes hsplit).symm

theorem dropSlashes_sublist (path : String) :
    (Disk.dropSlashes path).toList.Sublist path.toList := by
  rcases exists_dropSlashes path with ⟨slashes, -, hsplit, -⟩
  rw [hsplit]
  exact List.sublist_append_left _ _

theorem dropSlashes_ne_empty (h : path ≠ "") : Disk.dropSlashes path ≠ "" := by
  rcases exists_dropSlashes path with ⟨slashes, -, -, hne⟩
  exact hne h

theorem isAbsolute_dropSlashes (path : String) :
    isAbsolute (Disk.dropSlashes path) = isAbsolute path := by
  by_cases hpath : path = ""
  · rw [hpath]
    rfl
  · rcases exists_dropSlashes path with ⟨slashes, -, hsplit, hne⟩
    have hhead : path.toList.head? = (Disk.dropSlashes path).toList.head? := by
      cases hshort : (Disk.dropSlashes path).toList with
      | nil => exact absurd (String.toList_eq_nil_iff.1 hshort) (hne hpath)
      | cons c cs => rw [hsplit, hshort, List.cons_append, List.head?_cons, List.head?_cons]
    rw [Bool.eq_iff_iff, isAbsolute_iff, isAbsolute_iff, hhead]

theorem dropSlashes_eq_self (h : path.toList.getLast? ≠ some '/') :
    Disk.dropSlashes path = path := by
  have hkeep : path.toList.reverse.dropWhile (· == '/') = path.toList.reverse := by
    cases hreverse : path.toList.reverse with
    | nil => rfl
    | cons c cs =>
      have hlast : path.toList.getLast? = some c := by
        rw [← List.head?_reverse, hreverse, List.head?_cons]
      have hc : c ≠ '/' := by
        rintro rfl
        exact h hlast
      simp [hc]
  unfold Disk.dropSlashes
  rw [hkeep, List.reverse_reverse]
  split
  · rfl
  · exact String.ofList_toList

/-- The last piece of a path, slashes at the end apart. -/
theorem exists_pieces (path : String) :
    ∃ init last, splitAtChar (Disk.dropSlashes path) '/' = init ++ [last] ∧
      steps path = partsOfPieces init ++ (partOf? last).toList := by
  have hne := splitAtChar_ne_nil (Disk.dropSlashes path)
  refine ⟨_, _, (List.dropLast_append_getLast hne).symm, ?_⟩
  have hsplit := List.dropLast_append_getLast hne
  rw [← steps_dropSlashes, steps]
  nth_rewrite 1 [← hsplit]
  rw [partsOfPieces, List.filterMap_append, List.filterMap_cons]
  cases partOf? ((splitAtChar (Disk.dropSlashes path) '/').getLast hne) <;> rfl

/-- The path ends with a name or by going up, and not with a dot. -/
def endsWithStep (path : String) : Bool :=
  ((splitAtChar (Disk.dropSlashes path) '/').getLast?.bind partOf?).isSome

theorem endsWithStep_of_getLast? (h : (splitAtChar path '/').getLast? = some piece)
    (hpart : partOf? piece = some part) :
    endsWithStep path = true := by
  have hslash : '/' ∉ piece.toList := slash_notMem_of_mem (List.mem_of_getLast? h)
  have hne : piece.toList ≠ [] := by
    intro hempty
    rw [String.toList_eq_nil_iff.1 hempty] at hpart
    simp [partOf?] at hpart
  have hlast : path.toList.getLast? ≠ some '/' := by
    rcases List.getLast?_eq_some_iff.1 h with ⟨init, hpieces⟩
    have hsuffix : piece.toList <:+ path.toList := by
      rw [← intercalate_splitAtChar path, hpieces]
      by_cases hinit : init = []
      · simp [hinit]
      · rw [String.intercalate_append_of_ne_nil hinit (List.cons_ne_nil _ _),
          String.intercalate_singleton, String.toList_append]
        exact List.suffix_append _ _
    rcases hsuffix with ⟨front, hfront⟩
    rw [← hfront, List.getLast?_append_of_ne_nil _ hne]
    exact fun hslashed => hslash (List.mem_of_getLast? hslashed)
  rw [endsWithStep, dropSlashes_eq_self hlast, h, Option.bind_some, hpart]
  rfl

theorem LeadsTo.endsWithStep {name : String} (h : LeadsTo (Disk.dropSlashes path) pieces name) :
    endsWithStep path = true := by
  have hname : partOf? name = some (.name name) := @partOf?_text (.name name) h.isName
  rw [Path.endsWithStep, h.split_eq, List.getLast?_concat, Option.bind_some, hname]
  rfl

theorem exists_leadsTo_of_endsWithStep {name : String} {init : List PathPart}
    (hends : endsWithStep path = true) (hsteps : steps path = init ++ [.name name]) :
    ∃ pieces, LeadsTo (Disk.dropSlashes path) pieces name ∧ partsOfPieces pieces = init := by
  rcases exists_pieces path with ⟨pieces, last, hsplit, hparts⟩
  have hlast : (partOf? last).isSome := by
    rw [endsWithStep, hsplit, List.getLast?_concat, Option.bind_some] at hends
    exact hends
  rcases Option.isSome_iff_exists.1 hlast with ⟨part, hpart⟩
  have hslash : '/' ∉ last.toList := slash_notMem_of_mem (hsplit ▸ List.mem_concat_self)
  rcases isStep_of_partOf? hslash hpart with ⟨hstep, htext⟩
  rw [hsteps, hpart] at hparts
  rcases List.append_inj' hparts rfl with ⟨hinit, hname⟩
  have hpartName : PathPart.name name = part := List.singleton_inj.1 hname
  subst hpartName
  have hsame : name = last := htext
  exact ⟨pieces, ⟨hsame ▸ hsplit, hstep⟩, hinit.symm⟩

/-! ## The path above -/

/-- The path above takes all steps but the last, from the same start. -/
structure IsAbove (above path : String) : Prop where
  steps_eq : steps above = (steps path).dropLast
  absolute_eq : isAbsolute above = isAbsolute path
  sublist : above.toList.Sublist path.toList
  ends : steps above ≠ [] → endsWithStep above = true

theorem endsWithStep_texts {front : List String} {parts : List PathPart}
    (hfront : ∀ piece ∈ front, '/' ∉ piece.toList) (h : ∀ part ∈ parts, IsStep part)
    (hne : parts ≠ []) : endsWithStep ("/".intercalate (front ++ parts.map PathPart.text)) = true := by
  have htexts : ∀ piece ∈ front ++ parts.map PathPart.text, '/' ∉ piece.toList := by
    rw [List.forall_mem_append]
    refine ⟨hfront, fun piece hpiece => ?_⟩
    rcases List.mem_map.1 hpiece with ⟨part, hpart, rfl⟩
    exact slash_notMem_text (h part hpart)
  have hlast : (front ++ parts.map PathPart.text).getLast? = some (parts.getLast hne).text := by
    rw [List.getLast?_append_of_ne_nil _ (by simpa using hne), List.getLast?_map,
      List.getLast?_eq_some_getLast hne, Option.map_some]
  have hsplit := splitAtChar_intercalate (by simp [hne]) htexts
  apply endsWithStep_of_getLast? _ (partOf?_text (h _ (List.getLast_mem hne)))
  rw [hsplit, hlast]

theorem texts_dropLast_sublist (path : String) :
    (((steps path).dropLast).map PathPart.text).Sublist (splitAtChar path '/') :=
  ((List.dropLast_sublist _).map _).trans (texts_sublist fun _ h => slash_notMem_of_mem h)

theorem toList_intercalate_sublist {texts : List String}
    (h : texts.Sublist (splitAtChar path '/')) :
    ("/".intercalate texts).toList.Sublist path.toList := by
  have hsub := @Text.intercalate_sublist ['/'] _ _ (h.map String.toList)
  have hjoin := congrArg String.toList (intercalate_splitAtChar path)
  rw [String.toList_intercalate] at hjoin ⊢
  exact hjoin ▸ hsub

theorem exists_of_isAbsolute (h : isAbsolute path = true) : ∃ s, path = "/" ++ s := by
  rw [isAbsolute_iff] at h
  cases hpath : path.toList with
  | nil => simp [hpath] at h
  | cons c cs =>
    rw [hpath, List.head?_cons, Option.some.injEq] at h
    refine ⟨String.ofList cs, ?_⟩
    rw [← String.toList_inj, hpath, h]
    simp

theorem isStep_of_mem_dropLast (h : part ∈ (steps path).dropLast) : IsStep part :=
  isStep_of_mem_steps (List.dropLast_subset _ h)

theorem isAbove_of_absolute (h : isAbsolute path = true) :
    IsAbove ("/" ++ "/".intercalate ((steps path).dropLast.map PathPart.text)) path where
  steps_eq := by
    rw [steps_slash_append]
    exact steps_intercalate fun _ => isStep_of_mem_dropLast
  absolute_eq := by rw [isAbsolute_slash_append, h]
  sublist := by
    rcases exists_of_isAbsolute h with ⟨s, rfl⟩
    have hsub := toList_intercalate_sublist (texts_dropLast_sublist s)
    rw [steps_slash_append, String.toList_append, String.toList_append]
    exact hsub.append_left _
  ends := by
    rw [steps_slash_append, steps_intercalate fun _ => isStep_of_mem_dropLast]
    intro hne
    have hends := @endsWithStep_texts [""] _ (by simp) (fun _ => isStep_of_mem_dropLast) hne
    rwa [String.intercalate_append_of_ne_nil (List.cons_ne_nil _ _) (mt List.map_eq_nil_iff.1 hne),
      String.intercalate_singleton, String.empty_append] at hends

theorem isAbove_of_here (h : isAbsolute path = false)
    (hhere : (splitAtChar path '/').head? = some ".") :
    IsAbove ("/".intercalate ("." :: (steps path).dropLast.map PathPart.text)) path where
  steps_eq := steps_here_intercalate fun _ => isStep_of_mem_dropLast
  absolute_eq := by
    rw [h]
    exact isAbsolute_intercalate (by decide) (by decide)
  sublist := by
    apply toList_intercalate_sublist
    rcases List.head?_eq_some_iff.1 hhere with ⟨pieces, hpieces⟩
    -- The dot in front takes no step, so all steps come from the pieces after it.
    have hsteps : steps path = partsOfPieces pieces := by
      rw [steps, hpieces]
      rfl
    have hslash : ∀ piece ∈ pieces, '/' ∉ piece.toList := fun piece hpiece =>
      slash_notMem_of_mem (hpieces ▸ List.mem_cons_of_mem _ hpiece)
    rw [hpieces, hsteps]
    exact (((List.dropLast_sublist _).map _).trans (texts_sublist hslash)).cons_cons _
  ends := by
    rw [steps_here_intercalate fun _ => isStep_of_mem_dropLast]
    exact @endsWithStep_texts ["."] _ (by decide) fun _ => isStep_of_mem_dropLast

theorem isAbove_of_relative (h : isAbsolute path = false) :
    IsAbove ("/".intercalate ((steps path).dropLast.map PathPart.text)) path where
  steps_eq := steps_intercalate fun _ => isStep_of_mem_dropLast
  absolute_eq := by
    rw [h]
    exact isAbsolute_texts fun _ => isStep_of_mem_dropLast
  sublist := toList_intercalate_sublist (texts_dropLast_sublist path)
  ends := by
    rw [steps_intercalate fun _ => isStep_of_mem_dropLast]
    exact @endsWithStep_texts [] _ (by simp) fun _ => isStep_of_mem_dropLast

theorem ofParts_texts {parts : List PathPart} (h : ∀ part ∈ parts, IsStep part) :
    ofParts parts = "/".intercalate (parts.map PathPart.text) := by
  cases parts with
  | nil => rfl
  | cons part parts =>
    cases part with
    | root => exact (h _ List.mem_cons_self).elim
    | here => rfl
    | up => rfl
    | name s => rfl

theorem parent?_eq_some {above : String} (h : parent? path = some above) :
    parts path ≠ [.root] ∧ above = ofParts (parts path).dropLast := by
  unfold parent? at h
  split at h
  · simp at h
  · simp at h
  · next last rest hroot hreverse =>
    have hparts : parts path = rest.reverse ++ [last] := by
      rw [← List.reverse_reverse (parts path), hreverse, List.reverse_cons]
    cases h
    refine ⟨?_, by rw [hparts, List.dropLast_concat]⟩
    intro hone
    rw [hone, List.reverse_singleton, List.cons.injEq] at hreverse
    exact hroot hreverse.1.symm hreverse.2.symm

theorem length_steps_le (path : String) : (steps path).length ≤ (parts path).length := by
  rw [parts_eq]
  split
  · simp
  · split <;> simp

theorem steps_of_parts_root (h : parts path = [.root]) : steps path = [] := by
  have hsteps : ∀ part ∈ steps path, IsStep part := fun _ => isStep_of_mem_steps
  rw [parts_eq] at h
  split at h
  · exact (List.cons.inj h).2
  · split at h
    · simp at h
    · rw [h] at hsteps
      exact (hsteps .root (List.mem_singleton_self _)).elim

theorem parent?_ne_none (h : steps path ≠ []) : parent? path ≠ none := by
  have hlength := length_steps_le path
  intro hnone
  unfold parent? at hnone
  split at hnone
  · next hparts =>
    rw [List.reverse_eq_nil_iff.1 hparts] at hlength
    exact h (List.length_eq_zero_iff.1 (Nat.le_zero.1 hlength))
  · next hparts =>
    -- The root is not a step, so a path that is the root alone takes none.
    have hroot : parts path = [.root] := List.reverse_eq_cons_iff.1 hparts
    exact h (steps_of_parts_root hroot)
  · simp at hnone

theorem isAbove_of_parent? {above : String} (h : parent? path = some above) :
    IsAbove above path := by
  rcases parent?_eq_some h with ⟨hroot, rfl⟩
  have hsteps : ∀ part ∈ (steps path).dropLast, IsStep part := fun _ => isStep_of_mem_dropLast
  rw [parts_eq] at hroot ⊢
  by_cases habsolute : isAbsolute path = true
  · rw [if_pos habsolute] at hroot ⊢
    have hsome : steps path ≠ [] := fun hnone => hroot (by rw [hnone])
    rw [List.dropLast_cons_of_ne_nil hsome]
    exact isAbove_of_absolute habsolute
  · rw [if_neg habsolute]
    rw [Bool.not_eq_true] at habsolute
    by_cases hhere : ((splitAtChar path '/').head? == some ".") = true
    · rw [if_pos hhere]
      by_cases hnone : steps path = []
      · rw [hnone]
        exact ⟨by rw [hnone]; rfl, by rw [habsolute]; rfl, List.nil_sublist _, by decide⟩
      · rw [List.dropLast_cons_of_ne_nil hnone]
        exact isAbove_of_here habsolute (beq_iff_eq.1 hhere)
    · rw [if_neg hhere]
      rw [ofParts_texts hsteps]
      exact isAbove_of_relative habsolute

/-- The steps to a location by its path. -/
theorem steps_path {l : Location} (h : ∀ name ∈ l, IsName name) :
    steps l.path = l.map PathPart.name := by
  have hsteps : ∀ part ∈ l.map PathPart.name, IsStep part := by
    intro part hpart
    rcases List.mem_map.1 hpart with ⟨name, hname, rfl⟩
    exact h name hname
  have htexts : (l.map PathPart.name).map PathPart.text = l := by
    rw [List.map_map]
    exact List.map_id l
  have hjoin := steps_intercalate hsteps
  rw [htexts] at hjoin
  rw [Location.path, steps_slash_append, hjoin]

theorem isAbsolute_path (l : Location) : isAbsolute l.path = true := isAbsolute_slash_append _

theorem parts_path {l : Location} (h : ∀ name ∈ l, IsName name) :
    parts l.path = .root :: l.map PathPart.name := by
  rw [parts_eq, if_pos (isAbsolute_path l), steps_path h]

/-! ## Names in paths -/

theorem mem_toList_of_mem_splitAtChar {c : Char} (h : piece ∈ splitAtChar path '/')
    (hc : c ∈ piece.toList) : c ∈ path.toList := by
  have hsub := toList_intercalate_sublist (List.singleton_sublist.2 h)
  rw [String.intercalate_singleton] at hsub
  exact hsub.subset hc

theorem mem_toList_of_mem_steps {name : String} {c : Char} (h : .name name ∈ steps path)
    (hc : c ∈ name.toList) : c ∈ path.toList := by
  rcases List.mem_filterMap.1 h with ⟨piece, hpiece, hpart⟩
  have htext := (isStep_of_partOf? (slash_notMem_of_mem hpiece) hpart).2
  exact mem_toList_of_mem_splitAtChar hpiece (htext ▸ hc)

theorem LeadsTo.steps_eq {name : String} (h : LeadsTo path pieces name) :
    steps path = partsOfPieces pieces ++ [.name name] := by
  have hname : partOf? name = some (.name name) := @partOf?_text (.name name) h.isName
  rw [steps, h.split_eq, partsOfPieces, List.filterMap_append, List.filterMap_cons_some hname]
  rfl

/-- The pieces within which joined paths end take the steps of the path. -/
theorem partsOfPieces_within (root : String) : partsOfPieces (within root) = steps root := by
  unfold within
  by_cases hempty : root = ""
  · rw [hempty]
    rfl
  · rw [if_neg (by simpa using hempty)]
    split
    · next hslash =>
      rcases endsWithText_slash_iff.1 hslash with ⟨pre, hpre⟩
      have hsplit : splitAtChar root '/' = splitAtChar (String.ofList pre) '/' ++ [""] :=
        splitAtChar_append_slash (by simp [hpre]) (by simp)
      rw [steps, hsplit, List.dropLast_concat]
      exact (List.filterMap_append.trans (List.append_nil _)).symm
    · rfl

end Path

end LintMend
