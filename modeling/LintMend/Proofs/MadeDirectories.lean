import LintMend.Proofs.DiskWalks

/-!
# Making directories

Making a directory with those above it turns missing locations of the way into directories and
changes nothing else, whether it succeeds or not. If it succeeds, then there are directories all along
the way. It succeeds exactly if no file stands on the way and if the path does not end with a dot where
nothing else leads to.
-/

namespace LintMend

namespace Disk

variable {d d' : Disk} {path : String} {l : Location} {steps : List PathPart}

/-- The second disk differs from the first only by directories at locations that were free. -/
structure Grows (d d' : Disk) (ls : List Location) : Prop where
  here_eq : d'.here = d.here
  node : ∀ k, d'.node? k = d.node? k ∨
    (k ∈ ls ∧ d.node? k = none ∧ d'.node? k = some .directory)
  tree : d.IsTree → d'.IsTree

theorem Grows.refl (d : Disk) (ls : List Location) : Grows d d ls where
  here_eq := rfl
  node _ := .inl rfl
  tree := id

theorem Grows.trans {d'' : Disk} {ls : List Location} (h : Grows d d' ls) (h' : Grows d' d'' ls) :
    Grows d d'' ls where
  here_eq := h'.here_eq.trans h.here_eq
  node k := by
    rcases h'.node k with hk' | ⟨hmem, hnone, hmade⟩
    · rw [hk']
      exact h.node k
    · rcases h.node k with hk | ⟨-, -, hthere⟩
      · exact .inr ⟨hmem, hk ▸ hnone, hmade⟩
      · rw [hnone] at hthere
        simp at hthere
  tree := h'.tree ∘ h.tree

theorem Grows.mono {ls ms : List Location} (h : Grows d d' ls) (hsub : ls ⊆ ms) :
    Grows d d' ms where
  here_eq := h.here_eq
  node k := (h.node k).imp_right fun ⟨hmem, hrest⟩ => ⟨hsub hmem, hrest⟩
  tree := h.tree

theorem startOf_congr (h : d'.here = d.here) (path : String) :
    d'.startOf path = d.startOf path := by
  unfold startOf
  rw [h]

theorem target_congr (h : d'.here = d.here) (path : String) : d'.target path = d.target path := by
  unfold target
  rw [startOf_congr h]

theorem way_congr (h : d'.here = d.here) (path : String) : d'.way path = d.way path := by
  unfold way
  rw [startOf_congr h]

theorem pathError?_of_sublist {short : String} (hne : short ≠ "")
    (hsub : short.toList.Sublist path.toList) (h : pathError? path = none) :
    pathError? short = none := by
  rw [pathError?_eq_none_iff] at h ⊢
  refine ⟨hne, fun hnul => h.2.1 (hsub.subset hnul), ?_⟩
  have hbytes := Text.bytes_le_of_sublist hsub
  rw [← byteLength_eq_bytes, ← byteLength_eq_bytes] at hbytes
  omega

theorem startOf_dropSlashes (d : Disk) (path : String) :
    d.startOf (dropSlashes path) = d.startOf path := by
  unfold startOf
  rw [Path.isAbsolute_dropSlashes]

theorem target_dropSlashes (d : Disk) (path : String) :
    d.target (dropSlashes path) = d.target path := by
  unfold target
  rw [startOf_dropSlashes, Path.steps_dropSlashes]

theorem pathError?_dropSlashes (h : pathError? path = none) :
    pathError? (dropSlashes path) = none :=
  pathError?_of_sublist (Path.dropSlashes_ne_empty (pathError?_eq_none_iff.1 h).1)
    (Path.dropSlashes_sublist path) h

/-! ## One directory -/

theorem exists_leadsTo_of_newPlace (h : d.newPlace path = .ok l) :
    ∃ pieces name, Path.LeadsTo path pieces name := by
  have hne := Path.splitAtChar_ne_nil path
  have hlast : (splitAtChar path '/').getLastD "" = (splitAtChar path '/').getLast hne := by
    rw [List.getLastD_eq_getLast?, List.getLast?_eq_some_getLast hne]
    rfl
  generalize hname : (splitAtChar path '/').getLast hne = name at hlast
  have hproper : (name == "" || name == "." || name == "..") = false := by
    rw [Bool.eq_false_iff]
    intro hbad
    unfold newPlace at h
    cases hpath : pathError? path with
    | some e => simp [hpath] at h
    | none =>
      cases hfollow : d.follow (d.startOf path) (splitAtChar path '/').dropLast with
      | error e => simp [hpath, hfollow, bind, Except.bind] at h
      | ok directory =>
        simp only [hpath, hfollow, hlast, hbad, bind, Except.bind, if_true] at h
        split at h <;> simp at h
  simp only [Bool.or_eq_false_iff, beq_eq_false_iff_ne] at hproper
  refine ⟨(splitAtChar path '/').dropLast, name, ?_, ?_, hproper.1.1, hproper.1.2, hproper.2⟩
  · rw [← hname, List.dropLast_append_getLast]
  · rw [← hname]
    exact Path.slash_notMem_of_mem (List.getLast_mem hne)

theorem newPlace_eq_ok_iff {name : String} {pieces : List String}
    (h : Path.LeadsTo path pieces name) :
    d.newPlace path = .ok l ↔ pathError? path = none ∧
      d.Walkable (d.startOf path) (Path.partsOfPieces pieces) ∧ byteLength name ≤ 255 ∧
      l = d.target path := by
  have htarget : d.target path =
      (Path.partsOfPieces pieces).foldl Location.after (d.startOf path) ++ [name] := by
    rw [target, h.steps_eq, List.foldl_append]
    rfl
  rw [newPlace_eq h, htarget]
  cases hpath : pathError? path with
  | some e => simp
  | none =>
    constructor
    · intro hl
      cases hfollow : d.follow (d.startOf path) pieces with
      | error e => simp [hfollow, Except.bind] at hl
      | ok directory =>
        simp only [hfollow, Except.bind] at hl
        split at hl
        · next hnode =>
          split at hl
          · simp at hl
          · refine ⟨rfl, walkable_of_follow hfollow hnode, by omega, ?_⟩
            rw [← eq_foldl_of_follow hfollow]
            exact (Except.ok.inj hl).symm
        · simp at hl
    · rintro ⟨-, hwalk, hshort, rfl⟩
      have hnode := hwalk.last
      simp only [follow_of_walkable hwalk, Except.bind, hnode]
      rw [if_neg (by omega)]

/-- What is known if a directory has been made. -/
structure Makes (d d' : Disk) (path : String) (steps : List PathPart) (name : String) : Prop where
  path_ok : pathError? path = none
  ends : Path.endsWithStep path = true
  steps_eq : Path.steps path = steps ++ [.name name]
  walkable : d.Walkable (d.startOf path) steps
  short : byteLength name ≤ 255
  free : d.node? (d.target path) = none
  made : d' = d.put (d.target path) .directory

theorem exists_makes (h : d.makeDirectory path = .ok d') :
    ∃ steps name, Makes d d' path steps name := by
  unfold makeDirectory at h
  split at h
  · simp at h
  · next hpath =>
    split at h
    · simp at h
    · next hlocate =>
      cases hplace : d.newPlace (dropSlashes path) with
      | error e => simp [hplace, bind, Except.bind] at h
      | ok l =>
        have hmade : d' = d.put l .directory := by
          rw [hplace] at h
          exact (Except.ok.inj h).symm
        rcases exists_leadsTo_of_newPlace hplace with ⟨pieces, name, hleads⟩
        rcases (newPlace_eq_ok_iff hleads).1 hplace with ⟨-, hwalk, hshort, hl⟩
        rw [startOf_dropSlashes] at hwalk
        rw [target_dropSlashes] at hl
        have hfree : d.node? l = none := by
          rw [locate_eq hleads, hplace] at hlocate
          simpa [Except.bind] using hlocate
        refine ⟨_, name, hpath, hleads.endsWithStep, ?_, hwalk, hshort, hl ▸ hfree, hl ▸ hmade⟩
        rw [← Path.steps_dropSlashes, hleads.steps_eq]
    · simp at h

theorem Makes.target_eq {name : String} (h : Makes d d' path steps name) :
    d.target path = steps.foldl Location.after (d.startOf path) ++ [name] := by
  rw [target, h.steps_eq, List.foldl_append]
  rfl

theorem Makes.grows {name : String} (h : Makes d d' path steps name) : Grows d d' (d.way path) where
  here_eq := by
    rw [h.made]
    rfl
  node k := by
    by_cases hk : k = d.target path
    · refine .inr ⟨hk ▸ target_mem_way d path, hk ▸ h.free, ?_⟩
      rw [h.made, hk, node?_put_self]
      simp [h.target_eq]
    · rw [h.made]
      exact .inl (node?_put_of_ne hk d _)
  tree htree := by
    have hmem : PathPart.name name ∈ Path.steps path := by simp [h.steps_eq]
    have hname : IsFileName name := by
      refine ⟨Path.isStep_of_mem_steps hmem, fun hnul => ?_, h.short⟩
      exact (pathError?_eq_none_iff.1 h.path_ok).2.1 (Path.mem_toList_of_mem_steps hmem hnul)
    rw [h.made, h.target_eq]
    apply htree.put _ hname
    · rw [← h.target_eq, h.free]
      simp
    · exact h.walkable.last

theorem Grows.keeps {ls : List Location} (h : Grows d d' ls) : Keeps d d' where
  here_eq := h.here_eq
  directory l hl := by
    rcases h.node l with hsame | ⟨-, -, hmade⟩
    · rw [hsame, hl]
    · exact hmade

theorem Walkable.of_keeps (hkeeps : Keeps d d') (h : d.Walkable l steps) : d'.Walkable l steps where
  directory w hw := hkeeps.directory w (h.directory w hw)
  short := h.short

theorem Makes.walkable_after {name : String} (h : Makes d d' path steps name) :
    d'.Walkable (d.startOf path) (Path.steps path) := by
  rw [h.steps_eq, walkable_concat]
  refine ⟨h.walkable.of_keeps h.grows.keeps, fun s hs => ?_, ?_⟩
  · cases hs
    exact h.short
  · have htarget := h.target_eq
    change d'.node? (steps.foldl Location.after (d.startOf path) ++ [name]) = _
    rw [← htarget, h.made, node?_put_self]
    simp [htarget]

/-- What is known of a disk on which a directory has been ensured. -/
structure Ensured (d d' : Disk) (path : String) : Prop where
  path_ok : pathError? path = none
  start : d.node? (d.startOf path) = some .directory
  walkable : d'.Walkable (d.startOf path) (Path.steps path)

theorem grows_ensureDirectory (d : Disk) (path : String) :
    Grows d (d.ensureDirectory path).1 (d.way path) := by
  unfold ensureDirectory
  cases hmake : d.makeDirectory path with
  | error e => exact Grows.refl _ _
  | ok made =>
    rcases exists_makes hmake with ⟨steps, name, hmakes⟩
    exact hmakes.grows

theorem ensured_of_ensureDirectory (h : d.ensureDirectory path = (d', none)) :
    Ensured d d' path := by
  unfold ensureDirectory at h
  cases hmake : d.makeDirectory path with
  | error e =>
    simp only [hmake, Prod.mk.injEq] at h
    rcases h with ⟨rfl, hthere⟩
    have hdirectory : d.isDirectory path = true := by
      by_contra hnot
      simp [hnot] at hthere
    rcases isDirectory_iff.1 hdirectory with ⟨hpath, hwalk⟩
    exact ⟨hpath, hwalk.start, hwalk⟩
  | ok made =>
    simp only [hmake, Prod.mk.injEq, and_true] at h
    subst h
    rcases exists_makes hmake with ⟨steps, name, hmakes⟩
    exact ⟨hmakes.path_ok, hmakes.walkable.start, hmakes.walkable_after⟩

/-! ## The directories above -/

theorem startOf_above {above : String} (h : Path.IsAbove above path) (d : Disk) :
    d.startOf above = d.startOf path := by
  unfold startOf
  rw [h.absolute_eq]

theorem scanl_dropLast_subset (l : Location) (steps : List PathPart) :
    steps.dropLast.scanl Location.after l ⊆ steps.scanl Location.after l := by
  by_cases hsteps : steps = []
  · rw [hsteps]
    exact List.Subset.refl _
  · have hsplit := @List.scanl_append _ _ l Location.after steps.dropLast [steps.getLast hsteps]
    rw [List.dropLast_append_getLast] at hsplit
    rw [hsplit]
    exact List.subset_append_left _ _

theorem Walkable.dropLast (h : d.Walkable l steps) : d.Walkable l steps.dropLast where
  directory w hw := h.directory w (scanl_dropLast_subset l steps hw)
  short s hs := h.short s (List.dropLast_subset _ hs)

theorem way_above_subset {above : String} (h : Path.IsAbove above path) (d : Disk) :
    d.way above ⊆ d.way path := by
  unfold way
  rw [startOf_above h, h.steps_eq]
  exact scanl_dropLast_subset _ _

/-- Whatever the outcome, making directories adds directories on the way and changes nothing else. -/
theorem grows_makeDirectories (fuel : Nat) (d : Disk) (path : String) :
    Grows d (makeDirectories fuel d path).1 (d.way path) := by
  induction fuel generalizing path with
  | zero => exact Grows.refl _ _
  | succ fuel ih =>
    unfold makeDirectories
    split
    · exact Grows.refl _ _
    · split
      · split
        · exact Grows.refl _ _
        · next above habove =>
          have hmade := (ih above).mono (way_above_subset (Path.isAbove_of_parent? habove) d)
          split
          · next d₁ hfirst =>
            rw [hfirst] at hmade
            apply hmade.trans
            rw [← way_congr hmade.here_eq path]
            exact grows_ensureDirectory d₁ path
          · exact hmade
      · exact grows_ensureDirectory d path

theorem makeDirectories_empty {fuel : Nat} (h : makeDirectories fuel d "" = (d', none)) :
    d' = d := by
  cases fuel with
  | zero => simp [makeDirectories] at h
  | succ fuel =>
    simp only [makeDirectories, beq_self_eq_true, if_true, Prod.mk.injEq, and_true] at h
    exact h.symm

/-- If making directories succeeds, then there are directories all along the way. -/
theorem ensured_of_makeDirectories {fuel : Nat} (hne : path ≠ "")
    (h : makeDirectories fuel d path = (d', none)) : Ensured d d' path := by
  induction fuel generalizing path d' with
  | zero => simp [makeDirectories] at h
  | succ fuel ih =>
    unfold makeDirectories at h
    rw [if_neg (by simpa using hne)] at h
    split at h
    · split at h
      · simp at h
      · next above habove =>
        have hisAbove := Path.isAbove_of_parent? habove
        split at h
        · next d₁ hfirst =>
          have hgrows := grows_makeDirectories fuel d above
          rw [hfirst] at hgrows
          have hensured := ensured_of_ensureDirectory h
          have hsameStart : d₁.startOf path = d.startOf path := startOf_congr hgrows.here_eq path
          have hstart : d.node? (d.startOf path) = some .directory := by
            by_cases hempty : above = ""
            · rw [hempty] at hfirst
              have hsame := makeDirectories_empty hfirst
              rw [hsame] at hensured
              exact hensured.start
            · rw [← startOf_above hisAbove]
              exact (ih hempty hfirst).start
          exact ⟨hensured.path_ok, hstart, hsameStart ▸ hensured.walkable⟩
        · next hfailed => exact absurd h (hfailed d')
    · exact ensured_of_ensureDirectory h

theorem walkable_of_makeDirectories {fuel : Nat}
    (hstart : d.node? (d.startOf path) = some .directory)
    (h : makeDirectories fuel d path = (d', none)) :
    d'.Walkable (d.startOf path) (Path.steps path) := by
  by_cases hempty : path = ""
  · subst hempty
    rw [makeDirectories_empty h]
    exact walkable_nil.2 hstart
  · exact (ensured_of_makeDirectories hempty h).walkable

/-! ## When directories can be made -/

/-- Nothing but directories stands along the steps from a location. -/
structure Free (d : Disk) (l : Location) (steps : List PathPart) : Prop where
  start : d.node? l = some .directory
  free : ∀ w ∈ steps.scanl Location.after l, d.node? w = some .directory ∨ d.node? w = none
  short : ∀ s, .name s ∈ steps → byteLength s ≤ 255

theorem Free.tail {part : PathPart} (h : d.Free l (part :: steps))
    (hnext : d.node? (l.after part) = some .directory) :
    d.Free (l.after part) steps where
  start := hnext
  free w hw := h.free w (by rw [List.scanl_cons]; exact List.mem_cons_of_mem _ hw)
  short s hs := h.short s (List.mem_cons_of_mem _ hs)

theorem Free.dropLast (h : d.Free l steps) :
    d.Free l steps.dropLast where
  start := h.start
  free w hw := h.free w (scanl_dropLast_subset l steps hw)
  short s hs := h.short s (List.dropLast_subset _ hs)

theorem Free.of_grows {ls : List Location} (hgrows : Grows d d' ls) (h : d.Free l steps) :
    d'.Free l steps where
  start := hgrows.keeps.directory l h.start
  free w hw := by
    rcases hgrows.node w with hsame | ⟨-, -, hmade⟩
    · rw [hsame]
      exact h.free w hw
    · exact .inl hmade
  short := h.short

/-- Along a free way a path either finds directories only or meets a location where nothing is. -/
theorem walkable_or_notFound (htree : d.IsTree) {pieces : List String}
    (h : d.Free l (Path.partsOfPieces pieces)) :
    d.Walkable l (Path.partsOfPieces pieces) ∨ d.follow l pieces = .error .notFound := by
  induction pieces generalizing l with
  | nil => exact .inl (walkable_nil.2 h.start)
  | cons piece pieces ih =>
    rw [partsOfPieces_cons] at h ⊢
    have hl := h.start
    have hstep := step_eq hl piece
    have hfollow : d.follow l (piece :: pieces) = (d.step l piece).bind (d.follow · pieces) :=
      List.foldlM_cons
    rcases Path.partOf?_cases piece with hpart | hpart | hpart
    · rw [hpart] at h hstep ⊢
      rw [hfollow, hstep]
      exact ih h
    · rw [hpart] at h hstep ⊢
      rw [hfollow, hstep]
      have hup : d.node? (l.after .up) = some .directory := htree.dropLast (by rw [hl]; rfl)
      exact (ih (h.tail hup)).imp_left fun hrest => walkable_cons.2 ⟨hl, by simp, hrest⟩
    · have hshort : byteLength piece ≤ 255 := h.short piece (by simp [hpart])
      simp only [hpart] at h hstep ⊢
      rw [if_neg (by omega)] at hstep
      have hmem : l ++ [piece] ∈ (.name piece :: Path.partsOfPieces pieces).scanl Location.after l := by
        rw [List.scanl_cons]
        exact List.mem_cons_of_mem _ (start_mem_scanl _ _)
      rcases h.free _ hmem with hdirectory | hnone
      · rw [hdirectory] at hstep
        rw [hfollow, hstep]
        apply (ih (h.tail hdirectory)).imp_left
        intro hrest
        refine walkable_cons.2 ⟨hl, fun s hs => ?_, hrest⟩
        cases hs
        exact hshort
      · rw [hnone] at hstep
        rw [hfollow, hstep]
        exact .inr rfl

theorem follow_concat (d : Disk) (l : Location) (pieces : List String) (piece : String) :
    d.follow l (pieces ++ [piece]) = (d.follow l pieces).bind (d.step · piece) := by
  unfold follow
  rw [List.foldlM_append]
  cases List.foldlM d.step l pieces with
  | error e => rfl
  | ok m =>
    change List.foldlM d.step m [piece] = d.step m piece
    simp only [List.foldlM_cons, List.foldlM_nil, bind_pure]

section

variable {d : Disk} {path : String} (hpath : pathError? path = none)
include hpath

theorem makeDirectory_of_notFound {init : List String} {last : String}
    (hpieces : splitAtChar (dropSlashes path) '/' = init ++ [last])
    (h : d.follow (d.startOf path) init = .error .notFound) :
    d.makeDirectory path = .error .notFound := by
  have hlocate : d.locate (dropSlashes path) = .error .notFound := by
    unfold locate
    rw [pathError?_dropSlashes hpath, startOf_dropSlashes, hpieces]
    change d.follow _ _ = _
    rw [follow_concat, h]
    rfl
  have hplace : d.newPlace (dropSlashes path) = .error .notFound := by
    unfold newPlace
    simp only [pathError?_dropSlashes hpath, startOf_dropSlashes, hpieces, List.dropLast_concat, h]
    rfl
  unfold makeDirectory
  rw [hpath, hlocate, hplace]
  rfl

theorem makeDirectory_of_walkable (h : d.Walkable (d.startOf path) (Path.steps path)) :
    d.makeDirectory path = .error .exists := by
  have hlocate : d.locate (dropSlashes path) = .ok (d.target (dropSlashes path)) := by
    apply locate_of_walkable (pathError?_dropSlashes hpath)
    rw [startOf_dropSlashes, Path.steps_dropSlashes]
    exact h
  unfold makeDirectory
  rw [hpath, hlocate]

theorem ensureDirectory_of_walkable (h : d.Walkable (d.startOf path) (Path.steps path)) :
    (d.ensureDirectory path).2 = none := by
  unfold ensureDirectory
  rw [makeDirectory_of_walkable hpath h, isDirectory_iff.2 ⟨hpath, h⟩]
  rfl

theorem makeDirectory_of_free {steps : List PathPart} {name : String}
    (hends : Path.endsWithStep path = true) (hsteps : Path.steps path = steps ++ [.name name])
    (hwalk : d.Walkable (d.startOf path) steps) (hshort : byteLength name ≤ 255)
    (hfree : d.node? (d.target path) = none) :
    d.makeDirectory path = .ok (d.put (d.target path) .directory) := by
  rcases Path.exists_leadsTo_of_endsWithStep hends hsteps with ⟨pieces, hleads, hpieces⟩
  have hplace : d.newPlace (dropSlashes path) = .ok (d.target path) := by
    rw [newPlace_eq_ok_iff hleads, startOf_dropSlashes, target_dropSlashes, hpieces]
    exact ⟨pathError?_dropSlashes hpath, hwalk, hshort, rfl⟩
  have hlocate : d.locate (dropSlashes path) = .error .notFound := by
    rw [locate_eq hleads, hplace]
    simp [Except.bind, hfree]
  unfold makeDirectory
  rw [hpath, hlocate, hplace]
  rfl

/-- A directory can be ensured where all but the last step is done. -/
theorem ensureDirectory_of_free (htree : d.IsTree)
    (hfree : d.Free (d.startOf path) (Path.steps path))
    (hwalk : d.Walkable (d.startOf path) (Path.steps path).dropLast)
    (hend : Path.endsWithStep path = true ∨ d.node? (d.target path) = some .directory) :
    (d.ensureDirectory path).2 = none := by
  by_cases htarget : d.node? (d.target path) = some .directory
  · apply ensureDirectory_of_walkable hpath
    by_cases hnil : Path.steps path = []
    · rw [hnil]
      exact walkable_nil.2 hfree.start
    · have hlast := List.dropLast_append_getLast hnil
      rw [← hlast, walkable_concat]
      refine ⟨hwalk, fun s hs => hfree.short s (hs ▸ List.getLast_mem hnil), ?_⟩
      rwa [target, ← hlast, List.foldl_append] at htarget
  · have hends := hend.resolve_right htarget
    have hnone := (hfree.free _ (target_mem_way d path)).resolve_left htarget
    have hnil : Path.steps path ≠ [] := by
      intro hnil
      apply htarget
      rw [target, hnil]
      exact hfree.start
    rcases Path.exists_last_step hnil with ⟨init, hup | ⟨name, hname⟩⟩
    · -- What is above a directory of a tree is a directory.
      rw [hup, List.dropLast_concat] at hwalk
      have habove := htree.dropLast (Option.isSome_of_eq_some hwalk.last)
      rw [target, hup, List.foldl_append] at htarget
      exact absurd habove htarget
    · rw [hname, List.dropLast_concat] at hwalk
      have hshort := hfree.short name (by simp [hname])
      unfold ensureDirectory
      rw [makeDirectory_of_free hpath hends hname hwalk hshort hnone]

end

/-- The path ends with a step, or it leads to what is there or what its earlier steps pass. -/
def Reaches (d : Disk) (path : String) : Prop :=
  Path.endsWithStep path = true ∨ d.node? (d.target path) = some .directory ∨
    d.target path ∈ (Path.steps path).dropLast.scanl Location.after (d.startOf path)

/-- What is made first along a free way are the directories above. -/
theorem walkable_dropLast_of_free {d : Disk} {path : String} (htree : d.IsTree)
    (hpath : pathError? path = none) (hfree : d.Free (d.startOf path) (Path.steps path))
    (h : d.makeDirectory path ≠ .error .notFound) :
    d.Walkable (d.startOf path) (Path.steps path).dropLast ∧
      (Path.endsWithStep path = true ∨ d.node? (d.target path) = some .directory) := by
  rcases Path.exists_pieces path with ⟨init, last, hpieces, hsteps⟩
  have hwalk : ∀ hinit : d.Free (d.startOf path) (Path.partsOfPieces init),
      d.Walkable (d.startOf path) (Path.partsOfPieces init) := fun hinit =>
    (walkable_or_notFound htree hinit).resolve_right fun hfollow =>
      h (makeDirectory_of_notFound hpath hpieces hfollow)
  cases hlast : Path.partOf? last with
  | none =>
    rw [hlast, Option.toList_none, List.append_nil] at hsteps
    have hall := hwalk (hsteps ▸ hfree)
    rw [← hsteps] at hall
    exact ⟨hall.dropLast, .inr hall.last⟩
  | some part =>
    have hinit := hfree.dropLast
    rw [hlast, Option.toList_some] at hsteps
    rw [hsteps, List.dropLast_concat] at hinit ⊢
    refine ⟨hwalk hinit, .inl ?_⟩
    rw [Path.endsWithStep, hpieces, List.getLast?_concat, Option.bind_some, hlast]
    rfl

theorem steps_ne_nil_of_notFound {d : Disk} {path : String} (hpath : pathError? path = none)
    (hstart : d.node? (d.startOf path) = some .directory)
    (h : d.makeDirectory path = .error .notFound) : Path.steps path ≠ [] := by
  intro hnil
  have hwalk : d.Walkable (d.startOf path) (Path.steps path) := by
    rw [hnil]
    exact walkable_nil.2 hstart
  rw [makeDirectory_of_walkable hpath hwalk] at h
  simp at h

theorem reaches_above {above path : String} (h : Path.IsAbove above path) {d : Disk}
    (hstart : d.node? (d.startOf path) = some .directory) : d.Reaches above := by
  by_cases hsteps : Path.steps above = []
  · apply Or.inr ∘ Or.inl
    rw [target, hsteps, startOf_above h]
    exact hstart
  · exact .inl (h.ends hsteps)

/-- The last directory can be made once those above it are. -/
theorem ensureDirectory_of_above {fuel : Nat} {d d₁ : Disk} {above path : String}
    (htree : d.IsTree) (hpath : pathError? path = none)
    (hfree : d.Free (d.startOf path) (Path.steps path)) (hend : d.Reaches path)
    (habove : Path.IsAbove above path) (hmade : makeDirectories fuel d above = (d₁, none)) :
    (d₁.ensureDirectory path).2 = none := by
  have hgrows := grows_makeDirectories fuel d above
  rw [hmade] at hgrows
  have hstart := startOf_above habove d
  have hsame : d₁.startOf path = d.startOf path := startOf_congr hgrows.here_eq path
  have hwalk := walkable_of_makeDirectories (hstart ▸ hfree.start) hmade
  rw [hstart, habove.steps_eq] at hwalk
  apply ensureDirectory_of_free hpath (hgrows.tree htree)
  · rw [hsame]
    exact hfree.of_grows hgrows
  · rw [hsame]
    exact hwalk
  · rw [target_congr hgrows.here_eq]
    rcases hend with hends | htarget | hpassed
    · exact .inl hends
    · exact .inr (hgrows.keeps.directory _ htarget)
    · exact .inr (hwalk.directory _ hpassed)

/-- Directories can be made if nothing else stands on the way. -/
theorem makeDirectories_of_free {fuel : Nat} {d : Disk} {path : String} (htree : d.IsTree)
    (hpath : path ≠ "" → pathError? path = none)
    (hfree : d.Free (d.startOf path) (Path.steps path)) (hend : d.Reaches path)
    (hfuel : (Path.steps path).length < fuel) : (makeDirectories fuel d path).2 = none := by
  induction fuel generalizing path with
  | zero => omega
  | succ fuel ih =>
    unfold makeDirectories
    by_cases hempty : path = ""
    · rw [if_pos (by simpa using hempty)]
    · rw [if_neg (by simpa using hempty)]
      have hok := hpath hempty
      split
      · next hmissing =>
        have hnil := steps_ne_nil_of_notFound hok hfree.start hmissing
        split
        · next hnone => exact absurd hnone (Path.parent?_ne_none hnil)
        · next above hparent =>
          have habove := Path.isAbove_of_parent? hparent
          have hfirst : (makeDirectories fuel d above).2 = none := by
            apply ih
            · intro hne
              exact pathError?_of_sublist hne habove.sublist hok
            · rw [startOf_above habove, habove.steps_eq]
              exact hfree.dropLast
            · exact reaches_above habove hfree.start
            · rw [habove.steps_eq, List.length_dropLast]
              have hpos := List.length_pos_iff.2 hnil
              omega
          split
          · next d₁ hmade => exact ensureDirectory_of_above htree hok hfree hend habove hmade
          · exact hfirst
      · next hmissing =>
        rcases walkable_dropLast_of_free htree hok hfree hmissing with ⟨hwalk, hreach⟩
        exact ensureDirectory_of_free hok htree hfree hwalk hreach

theorem reaches_of_ensureDirectory {d d' : Disk} {path : String}
    (h : d.ensureDirectory path = (d', none)) :
    Path.endsWithStep path = true ∨ d.node? (d.target path) = some .directory := by
  unfold ensureDirectory at h
  cases hmake : d.makeDirectory path with
  | error e =>
    have hdirectory : d.isDirectory path = true := by
      by_contra hnot
      simp [hmake, hnot] at h
    exact .inr (isDirectory_iff.1 hdirectory).2.last
  | ok made =>
    rcases exists_makes hmake with ⟨steps, name, hmakes⟩
    exact .inl hmakes.ends

theorem reaches_of_makeDirectories {fuel : Nat} {d d' : Disk} {path : String} (hne : path ≠ "")
    (h : makeDirectories fuel d path = (d', none)) : d.Reaches path := by
  cases fuel with
  | zero => simp [makeDirectories] at h
  | succ fuel =>
    unfold makeDirectories at h
    rw [if_neg (by simpa using hne)] at h
    split at h
    · split at h
      · simp at h
      · next above hparent =>
        have habove := Path.isAbove_of_parent? hparent
        have hgrows := grows_makeDirectories fuel d above
        split at h
        · next d₁ hfirst =>
          rw [hfirst] at hgrows
          apply (reaches_of_ensureDirectory h).imp_right
          intro htarget
          rw [target_congr hgrows.here_eq] at htarget
          rcases hgrows.node (d.target path) with hsame | ⟨hmem, -, -⟩
          · exact .inl (hsame ▸ htarget)
          · rw [way, startOf_above habove, habove.steps_eq] at hmem
            exact .inr hmem
        · next hfailed => exact absurd h (hfailed d')
    · exact (reaches_of_ensureDirectory h).imp_right .inl

theorem free_of_grows {d d' : Disk} {path : String} (hgrows : Grows d d' (d.way path))
    (hstart : d.node? (d.startOf path) = some .directory)
    (hwalk : d'.Walkable (d.startOf path) (Path.steps path)) :
    d.Free (d.startOf path) (Path.steps path) where
  start := hstart
  free w hw := by
    rcases hgrows.node w with hsame | ⟨-, hnone, -⟩
    · exact .inl (hsame ▸ hwalk.directory w hw)
    · exact .inr hnone
  short := hwalk.short

theorem grows_makeAll (d : Disk) (path : String) : Grows d (d.makeAll path).1 (d.way path) :=
  grows_makeDirectories _ d path

/-- When a directory can be made with those above it. -/
theorem makeAll_succeeds_iff {d : Disk} {path : String} (htree : d.IsTree) (hne : path ≠ "") :
    (d.makeAll path).2 = none ↔ pathError? path = none ∧
      d.Free (d.startOf path) (Path.steps path) ∧ d.Reaches path := by
  constructor
  · intro h
    have hmade : d.makeAll path = ((d.makeAll path).1, none) := by rw [← h]
    have hensured := ensured_of_makeDirectories hne hmade
    exact ⟨hensured.path_ok, free_of_grows (grows_makeAll d path) hensured.start hensured.walkable,
      reaches_of_makeDirectories hne hmade⟩
  · rintro ⟨hpath, hfree, hend⟩
    have hfuel := Path.length_steps_le path
    exact makeDirectories_of_free htree (fun _ => hpath) hfree hend (by omega)

end Disk

end LintMend
