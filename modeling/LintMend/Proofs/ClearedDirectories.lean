import LintMend.Proofs.MadeDirectories

/-!
# Clearing directories

What a directory holds is removed before the directory itself. A path that passes what its own end
holds leads nowhere then, and the directory stays. Any other path has to end with the name of the
directory. Nothing outside of the directory changes in either case.
-/

namespace LintMend

namespace Disk

/-! ## Removing a directory -/

theorem removeDirectory_eq_ok {d d' : Disk} {path : String}
    (h : d.removeDirectory path = .ok d') :
    Path.endsWithStep path = true ∧ d.target path ≠ [] ∧
      (∀ name, d.node? (d.target path ++ [name]) = none) ∧ d' = d.erase (d.target path) := by
  unfold removeDirectory at h
  rcases Path.exists_pieces path with ⟨init, last, hpieces, hsteps⟩
  cases hpath : pathError? path with
  | some e => simp [hpath] at h
  | none =>
    simp only [hpath, hpieces, List.dropLast_concat, List.getLastD_concat] at h
    cases hfollow : d.follow (d.startOf path) init with
    | error e => simp [hfollow, bind, Except.bind] at h
    | ok parent =>
      simp only [hfollow, bind, Except.bind] at h
      split at h
      · simp at h
      · next hempty =>
        split at h
        · simp at h
        · next hhere =>
          split at h
          · simp at h
          · next hup =>
            cases hstep : d.step parent last with
            | error e => simp [hstep] at h
            | ok l =>
              have hpart : Path.partOf? last = some (.name last) := by
                simp [Path.partOf?, hempty, hhere, hup]
              have hparent := eq_foldl_of_follow hfollow
              have hl : l = parent ++ [last] := by
                have hfold := eq_foldl_of_step hstep
                rw [hpart] at hfold
                exact hfold
              have htarget : d.target path = l := by
                rw [target, hsteps, hpart, List.foldl_append, ← hparent, hl]
                rfl
              simp only [hstep] at h
              split at h
              · split at h
                · next hleaf =>
                  rw [htarget]
                  refine ⟨?_, by simp [hl], children_isEmpty_iff.1 hleaf, (Except.ok.inj h).symm⟩
                  rw [Path.endsWithStep, hpieces, List.getLast?_concat, Option.bind_some, hpart]
                  rfl
                · simp at h
              · simp at h

/-- The disk is left as it is, or what the directory holds is removed, or the directory is. -/
theorem removeTree_cases {d e : Disk} {path : String} {r : Option FileError}
    (h : d.removeTree path = (e, r)) :
    (e = d ∧ r ≠ none) ∨
      (d.node? (d.target path) = some .directory ∧
        ((e = d.eraseBelow (d.target path) ∧
          (r = none → e.removeDirectory path = .error .notFound)) ∨
        ((d.eraseBelow (d.target path)).removeDirectory path = .ok e ∧ r = none))) := by
  unfold removeTree at h
  cases hlocate : d.locate path with
  | error err =>
    simp only [hlocate, Prod.mk.injEq] at h
    exact .inl ⟨h.1.symm, by simp [← h.2]⟩
  | ok l =>
    have hl := (locate_eq_target hlocate).2
    subst hl
    simp only [hlocate] at h
    split at h
    · next hnode =>
      refine .inr ⟨hnode, ?_⟩
      split at h
      · next removed hremoved =>
        simp only [Prod.mk.injEq] at h
        rcases h with ⟨rfl, rfl⟩
        exact .inr ⟨hremoved, rfl⟩
      · next hmissing =>
        simp only [Prod.mk.injEq] at h
        rcases h with ⟨rfl, rfl⟩
        exact .inl ⟨rfl, fun _ => hmissing⟩
      · simp only [Prod.mk.injEq] at h
        rcases h with ⟨rfl, rfl⟩
        exact .inl ⟨rfl, by simp⟩
    · simp only [Prod.mk.injEq] at h
      exact .inl ⟨h.1.symm, by simp [← h.2]⟩

/-- What the location holds is gone, and the location itself may be. -/
structure Cleared (d e : Disk) (l : Location) : Prop where
  here_eq : e.here = d.here
  inside : ∀ k, l.Holds k → e.node? k = none
  outside : ∀ k, ¬l <+: k → e.node? k = d.node? k
  itself : e.node? l = some .directory ∨ e.node? l = none
  tree : d.IsTree → e.IsTree

theorem holds_iff {l k : Location} : l.Holds k ↔ l <+: k ∧ k ≠ l := by
  rw [Location.Holds, ne_comm]

theorem not_holds_self (l : Location) : ¬l.Holds l := fun h => h.2 rfl

theorem cleared_eraseBelow {d : Disk} {l : Location} (hl : d.node? l = some .directory) :
    Cleared d (d.eraseBelow l) l where
  here_eq := rfl
  inside _ hk := node?_eraseBelow_of_holds hk d
  outside _ hk := node?_eraseBelow_of_not_holds (fun hholds => hk hholds.1) d
  itself := by
    rw [node?_eraseBelow_of_not_holds (not_holds_self l)]
    exact .inl hl
  tree htree := htree.eraseBelow l

theorem cleared_erase {d : Disk} {l : Location} (hl : d.node? l = some .directory) (hroot : l ≠ [])
    (hleaf : ∀ name, (d.eraseBelow l).node? (l ++ [name]) = none) :
    Cleared d ((d.eraseBelow l).erase l) l where
  here_eq := rfl
  inside k hk := by
    rw [node?_erase_of_ne (holds_iff.1 hk).2]
    exact (cleared_eraseBelow hl).inside k hk
  outside k hk := by
    have hne : k ≠ l := by
      rintro rfl
      exact hk List.prefix_rfl
    rw [node?_erase_of_ne hne]
    exact (cleared_eraseBelow hl).outside k hk
  itself := .inr (node?_erase_self hroot _)
  tree htree := (htree.eraseBelow l).erase hleaf

theorem cleared_of_removeTree {d e : Disk} {path : String}
    (h : d.removeTree path = (e, none)) : Cleared d e (d.target path) := by
  rcases removeTree_cases h with ⟨-, hfailed⟩ | ⟨hnode, ⟨rfl, -⟩ | ⟨hremoved, -⟩⟩
  · exact absurd rfl hfailed
  · exact cleared_eraseBelow hnode
  · rcases removeDirectory_eq_ok hremoved with ⟨-, hroot, hleaf, rfl⟩
    exact cleared_erase hnode hroot hleaf

theorem node?_removeTree {d : Disk} {path : String} {k : Location} (hk : ¬d.target path <+: k) :
    (d.removeTree path).1.node? k = d.node? k := by
  rcases hremove : d.removeTree path with ⟨e, r⟩
  rcases removeTree_cases hremove with ⟨rfl, -⟩ | ⟨hnode, ⟨rfl, -⟩ | ⟨hremoved, -⟩⟩
  · rfl
  · exact (cleared_eraseBelow hnode).outside k hk
  · rcases removeDirectory_eq_ok hremoved with ⟨-, hroot, hleaf, rfl⟩
    exact (cleared_erase hnode hroot hleaf).outside k hk

/-! ## When a directory can be removed -/

section

variable {d : Disk} {path : String} (hpath : pathError? path = none) {init : List String}
  {last : String} (hpieces : splitAtChar (dropSlashes path) '/' = init ++ [last])
include hpath hpieces

theorem removeDirectory_of_notFound (h : d.follow (d.startOf path) init = .error .notFound) :
    d.removeDirectory path = .error .notFound := by
  unfold removeDirectory
  simp only [hpath, hpieces, List.dropLast_concat, h]
  rfl

theorem removeDirectory_of_walkable (h : d.Walkable (d.startOf path) (Path.steps path)) :
    d.removeDirectory path =
      if last == "" then .error .busy
      else if last == "." then .error .invalid
      else if last == ".." then .error .notEmpty
      else if (d.children (d.target path)).isEmpty then .ok (d.erase (d.target path))
      else .error .notEmpty := by
  have hsteps : Path.steps path = Path.partsOfPieces (init ++ [last]) := by
    rw [← Path.steps_dropSlashes, Path.steps, hpieces]
  have hnode : d.node? (d.target path) = some .directory := h.last
  have hwhole : (d.follow (d.startOf path) init).bind (d.step · last) = .ok (d.target path) := by
    rw [← follow_concat, target, hsteps]
    exact follow_of_walkable (hsteps ▸ h)
  cases hfollow : d.follow (d.startOf path) init with
  | error e => simp [hfollow, Except.bind] at hwhole
  | ok parent =>
    have hstep : d.step parent last = .ok (d.target path) := by rwa [hfollow] at hwhole
    unfold removeDirectory
    simp only [hpath, hpieces, List.dropLast_concat, List.getLastD_concat, hfollow, bind, Except.bind,
      hstep, hnode]

end

theorem removeDirectory_ne_notFound {d : Disk} {path : String} (hpath : pathError? path = none)
    (h : d.Walkable (d.startOf path) (Path.steps path)) :
    d.removeDirectory path ≠ .error .notFound := by
  rcases Path.exists_pieces path with ⟨init, last, hpieces, -⟩
  rw [removeDirectory_of_walkable hpath hpieces h]
  repeat' split
  all_goals simp

/-- A way that passes what its own end holds does so before the last piece of the path. -/
theorem exists_passed {d : Disk} {path last : String} {init : List String}
    (hsteps : Path.steps path = Path.partsOfPieces init ++ (Path.partOf? last).toList)
    {w : Location} (hw : w ∈ d.way path) (hholds : (d.target path).Holds w) :
    w ∈ (Path.partsOfPieces init).scanl Location.after (d.startOf path) := by
  unfold way at hw
  cases hlast : Path.partOf? last with
  | none => rwa [hsteps, hlast, Option.toList_none, List.append_nil] at hw
  | some part =>
    have htarget : d.target path =
        ((Path.partsOfPieces init).foldl Location.after (d.startOf path)).after part := by
      rw [target, hsteps, hlast, List.foldl_append]
      rfl
    rw [hsteps, hlast, Option.toList_some, List.scanl_append, List.mem_append] at hw
    apply hw.resolve_right
    intro hend
    rw [List.scanl_cons, List.tail_cons, List.scanl_nil, List.mem_singleton, ← htarget] at hend
    exact hholds.2 hend.symm

section

variable {d : Disk} {path : String} (htree : d.IsTree) (hpath : pathError? path = none)
  (hwalk : d.Walkable (d.startOf path) (Path.steps path))
include htree hpath hwalk

/-- On the way through what has been cleared a path meets a location where nothing is. -/
theorem removeDirectory_of_passes (hstart : ¬(d.target path).Holds (d.startOf path))
    (hpasses : ∃ w ∈ d.way path, (d.target path).Holds w) :
    (d.eraseBelow (d.target path)).removeDirectory path = .error .notFound := by
  have hcleared : Cleared d (d.eraseBelow (d.target path)) (d.target path) :=
    cleared_eraseBelow hwalk.last
  rcases Path.exists_pieces path with ⟨init, last, hpieces, hsteps⟩
  rcases hpasses with ⟨w, hw, hholds⟩
  have hpassed := exists_passed hsteps hw hholds
  have hsub : (Path.partsOfPieces init).scanl Location.after (d.startOf path) ⊆ d.way path := by
    unfold way
    rw [hsteps, List.scanl_append]
    exact List.subset_append_left _ _
  have hfree : (d.eraseBelow (d.target path)).Free (d.startOf path) (Path.partsOfPieces init) := by
    refine ⟨?_, fun v hv => ?_, fun s hs => hwalk.short s (by simp [hsteps, hs])⟩
    · rw [node?_eraseBelow_of_not_holds hstart]
      exact hwalk.start
    · by_cases hinside : (d.target path).Holds v
      · exact .inr (hcleared.inside v hinside)
      · rw [node?_eraseBelow_of_not_holds hinside]
        exact .inl (hwalk.directory v (hsub hv))
  apply removeDirectory_of_notFound hpath hpieces
  apply (walkable_or_notFound (htree.eraseBelow _) hfree).resolve_left
  intro hall
  have hdirectory := hall.directory w hpassed
  rw [hcleared.inside w hholds] at hdirectory
  simp at hdirectory

end

theorem walkable_eraseBelow {d : Disk} {path : String}
    (hwalk : d.Walkable (d.startOf path) (Path.steps path))
    (hpasses : ∀ w ∈ d.way path, ¬(d.target path).Holds w) :
    (d.eraseBelow (d.target path)).Walkable (d.startOf path) (Path.steps path) where
  directory w hw := by
    rw [node?_eraseBelow_of_not_holds (hpasses w hw)]
    exact hwalk.directory w hw
  short := hwalk.short

/-- A way that does not pass what its end holds ends with a name or with a dot. -/
theorem exists_name_of_not_passes {d : Disk} {path : String} (hroot : d.target path ≠ [])
    (hstart : d.startOf path ≠ d.target path)
    (hpasses : ∀ w ∈ d.way path, ¬(d.target path).Holds w) :
    ∃ steps name, Path.steps path = steps ++ [.name name] := by
  have hne : Path.steps path ≠ [] := by
    intro hnil
    apply hstart
    rw [target, hnil]
    rfl
  rcases Path.exists_last_step hne with ⟨init, hup | hname⟩
  · -- The location before the last step would be held by the one after it.
    have hbefore : init.foldl Location.after (d.startOf path) ∈ d.way path := by
      unfold way
      rw [hup, List.scanl_append]
      exact List.mem_append_left _ (foldl_mem_scanl _ _)
    have htarget : d.target path = (init.foldl Location.after (d.startOf path)).dropLast := by
      rw [target, hup, List.foldl_append]
      rfl
    refine absurd ⟨htarget ▸ List.dropLast_prefix _, fun hsame => hroot ?_⟩ (hpasses _ hbefore)
    rw [hsame] at htarget ⊢
    have hlength := congrArg List.length htarget
    rw [List.length_dropLast] at hlength
    exact List.length_eq_zero_iff.1 (by omega)
  · exact ⟨init, hname⟩

/-- Where a directory that is there can be removed: on a way that passes what it holds, or by a path
that ends with its name. -/
theorem removeTree_of_walkable {d : Disk} {path : String} (htree : d.IsTree)
    (hpath : pathError? path = none) (hwalk : d.Walkable (d.startOf path) (Path.steps path))
    (hroot : d.target path ≠ []) (hstart : ¬(d.target path).Holds (d.startOf path))
    (hends : (∃ w ∈ d.way path, (d.target path).Holds w) ∨
      (Path.endsWithStep path = true ∧ d.startOf path ≠ d.target path)) :
    ∃ e, d.removeTree path = (e, none) ∧ e.node? (d.startOf path) = some .directory ∧
      (Path.endsWithStep path = true ∨ e.node? (d.target path) = some .directory) := by
  have hlocate := locate_of_walkable hpath hwalk
  have hnode : d.node? (d.target path) = some .directory := hwalk.last
  have hkept : ∀ k, ¬(d.target path).Holds k →
      (d.eraseBelow (d.target path)).node? k = d.node? k := fun k hk =>
    node?_eraseBelow_of_not_holds hk d
  by_cases hpasses : ∃ w ∈ d.way path, (d.target path).Holds w
  · refine ⟨d.eraseBelow (d.target path), ?_, ?_, .inr ?_⟩
    · unfold removeTree
      simp only [hlocate, hnode, removeDirectory_of_passes htree hpath hwalk hstart hpasses]
    · rw [hkept _ hstart]
      exact hwalk.start
    · rw [hkept _ (not_holds_self _), hnode]
  · rcases hends.resolve_left hpasses with ⟨hstep, hother⟩
    have hnone : ∀ w ∈ d.way path, ¬(d.target path).Holds w := fun w hw hholds =>
      hpasses ⟨w, hw, hholds⟩
    rcases exists_name_of_not_passes hroot hother hnone with ⟨steps, name, hsteps⟩
    rcases Path.exists_leadsTo_of_endsWithStep hstep hsteps with ⟨pieces, hleads, -⟩
    have hcleared : Cleared d (d.eraseBelow (d.target path)) (d.target path) :=
      cleared_eraseBelow hnode
    have hleaf : ((d.eraseBelow (d.target path)).children (d.target path)).isEmpty = true := by
      rw [children_isEmpty_iff]
      intro other
      exact hcleared.inside _ ⟨List.prefix_append _ _, by simp⟩
    have hremoved : (d.eraseBelow (d.target path)).removeDirectory path =
        .ok ((d.eraseBelow (d.target path)).erase (d.target path)) := by
      have heq := removeDirectory_of_walkable hpath hleads.split_eq (walkable_eraseBelow hwalk hnone)
      have hname := hleads.isName
      rw [heq, target_congr hcleared.here_eq]
      simp [hname.ne_empty, hname.ne_here, hname.ne_up, hleaf]
    refine ⟨(d.eraseBelow (d.target path)).erase (d.target path), ?_, ?_, .inl hstep⟩
    · unfold removeTree
      simp only [hlocate, hnode, hremoved]
    · rw [node?_erase_of_ne hother, hkept _ hstart]
      exact hwalk.start

end Disk

end LintMend
