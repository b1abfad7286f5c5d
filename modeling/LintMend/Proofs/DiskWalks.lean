import LintMend.Proofs.PathPieces

/-!
# Ways over a disk

Where a path leads is told by its steps alone, and so are the locations that it passes: its way. The
disk only tells whether the way can be gone. It can if there are directories all along it.

Making directories turns the missing locations of the way into directories and changes nothing else.
It fails only if something else stands on the way or if the path does not end with a step.
-/

namespace LintMend

namespace Location

/-- Where a step leads. -/
def after (l : Location) : PathPart → Location
  | .root => []
  | .here => l
  | .up => l.dropLast
  | .name s => l ++ [s]

/-- The second location is inside of what stands at the first. -/
def Holds (l k : Location) : Prop := l <+: k ∧ l ≠ k

instance (l k : Location) : Decidable (l.Holds k) := inferInstanceAs (Decidable (l <+: k ∧ l ≠ k))

end Location

theorem Path.partOf?_cases (piece : String) :
    partOf? piece = none ∨ partOf? piece = some .up ∨ partOf? piece = some (.name piece) := by
  unfold partOf?
  split
  · exact .inl rfl
  · split
    · exact .inr (.inl rfl)
    · exact .inr (.inr rfl)

namespace Disk

variable {d : Disk} {l m : Location} {steps : List PathPart}

/-- The locations that a path passes, with the one to which it leads. -/
def way (d : Disk) (path : String) : List Location :=
  (Path.steps path).scanl Location.after (d.startOf path)

/-- The location to which the steps of a path lead. -/
def target (d : Disk) (path : String) : Location :=
  (Path.steps path).foldl Location.after (d.startOf path)

/-- There are directories all along the steps from a location, and no name is too long. -/
structure Walkable (d : Disk) (l : Location) (steps : List PathPart) : Prop where
  directory : ∀ w ∈ steps.scanl Location.after l, d.node? w = some .directory
  short : ∀ s, .name s ∈ steps → byteLength s ≤ 255

theorem start_mem_scanl (l : Location) (steps : List PathPart) :
    l ∈ steps.scanl Location.after l := by
  cases steps with
  | nil => simp
  | cons part steps =>
    rw [List.scanl_cons]
    exact List.mem_cons_self

theorem foldl_mem_scanl (l : Location) (steps : List PathPart) :
    steps.foldl Location.after l ∈ steps.scanl Location.after l :=
  List.mem_of_getLast? List.getLast?_scanl

theorem walkable_nil : d.Walkable l [] ↔ d.node? l = some .directory := by
  constructor
  · intro h
    exact h.directory l (start_mem_scanl _ _)
  · intro h
    refine ⟨fun w hw => ?_, fun s hs => absurd hs List.not_mem_nil⟩
    rw [List.scanl_nil, List.mem_singleton] at hw
    rw [hw, h]

theorem walkable_cons {part : PathPart} :
    d.Walkable l (part :: steps) ↔ d.node? l = some .directory ∧
      (∀ s, part = .name s → byteLength s ≤ 255) ∧ d.Walkable (l.after part) steps := by
  constructor
  · intro h
    have hdirectory := h.directory
    rw [List.scanl_cons, List.forall_mem_cons] at hdirectory
    exact ⟨hdirectory.1, fun s hs => h.short s (hs ▸ List.mem_cons_self),
      hdirectory.2, fun s hs => h.short s (List.mem_cons_of_mem _ hs)⟩
  · rintro ⟨hl, hpart, h⟩
    refine ⟨?_, fun s hs => ?_⟩
    · rw [List.scanl_cons, List.forall_mem_cons]
      exact ⟨hl, h.directory⟩
    · rcases List.mem_cons.1 hs with hs | hs
      · exact hpart s hs.symm
      · exact h.short s hs

theorem Walkable.start (h : d.Walkable l steps) : d.node? l = some .directory :=
  h.directory l (start_mem_scanl l steps)

theorem Walkable.last (h : d.Walkable l steps) :
    d.node? (steps.foldl Location.after l) = some .directory :=
  h.directory _ (foldl_mem_scanl l steps)

theorem walkable_concat {part : PathPart} :
    d.Walkable l (steps ++ [part]) ↔ d.Walkable l steps ∧
      (∀ s, part = .name s → byteLength s ≤ 255) ∧
      d.node? ((steps.foldl Location.after l).after part) = some .directory := by
  induction steps generalizing l with
  | nil =>
    rw [List.nil_append, walkable_cons, walkable_nil, walkable_nil, List.foldl_nil]
  | cons first steps ih =>
    rw [List.cons_append, walkable_cons, walkable_cons, ih, List.foldl_cons]
    simp only [and_assoc]

/-! ## Following a way -/

theorem step_eq (hl : d.node? l = some .directory) (piece : String) :
    d.step l piece =
      match Path.partOf? piece with
      | some (.name s) =>
        if 255 < byteLength s then .error .nameTooLong
        else if (d.node? (l ++ [s])).isSome then .ok (l ++ [s])
        else .error .notFound
      | some .up => .ok l.dropLast
      | _ => .ok l := by
  unfold step Path.partOf?
  rw [hl]
  by_cases hhere : (piece == "" || piece == ".") = true
  · simp only [hhere, if_true]
  · by_cases hup : (piece == "..") = true
    · simp only [hhere, hup, if_true, Bool.false_eq_true, if_false]
    · simp only [hhere, hup, Bool.false_eq_true, if_false]

/-- The steps of the pieces after the first. -/
theorem partsOfPieces_cons (piece : String) (pieces : List String) :
    Path.partsOfPieces (piece :: pieces) =
      (Path.partOf? piece).toList ++ Path.partsOfPieces pieces := by
  unfold Path.partsOfPieces
  rw [List.filterMap_cons]
  cases Path.partOf? piece <;> rfl

theorem eq_foldl_of_step {piece : String} (h : d.step l piece = .ok m) :
    m = (Path.partOf? piece).toList.foldl Location.after l := by
  rw [step_eq (node?_of_step h)] at h
  rcases Path.partOf?_cases piece with hpart | hpart | hpart
  · rw [hpart] at h ⊢
    exact (Except.ok.inj h).symm
  · rw [hpart] at h ⊢
    exact (Except.ok.inj h).symm
  · simp only [hpart] at h ⊢
    split at h
    · simp at h
    · split at h
      · exact (Except.ok.inj h).symm
      · simp at h

theorem eq_foldl_of_follow {pieces : List String} (h : d.follow l pieces = .ok m) :
    m = (Path.partsOfPieces pieces).foldl Location.after l := by
  induction pieces generalizing l with
  | nil => exact (Except.ok.inj h).symm
  | cons piece pieces ih =>
    rcases follow_cons.1 h with ⟨next, hstep, hrest⟩
    rw [partsOfPieces_cons, List.foldl_append, ← eq_foldl_of_step hstep]
    exact ih hrest

/-- A path that leads to a directory passes directories only. -/
theorem walkable_of_follow {pieces : List String} (h : d.follow l pieces = .ok m)
    (hm : d.node? m = some .directory) :
    d.Walkable l (Path.partsOfPieces pieces) := by
  induction pieces generalizing l with
  | nil =>
    cases h
    exact walkable_nil.2 hm
  | cons piece pieces ih =>
    rcases follow_cons.1 h with ⟨next, hstep, hrest⟩
    have hl := node?_of_step hstep
    have hnext := eq_foldl_of_step hstep
    have hwalk := ih hrest
    rw [step_eq hl] at hstep
    rw [partsOfPieces_cons]
    rcases Path.partOf?_cases piece with hpart | hpart | hpart
    · rw [hpart] at hnext ⊢
      subst hnext
      exact hwalk
    · rw [hpart] at hnext ⊢
      subst hnext
      exact walkable_cons.2 ⟨hl, by simp, hwalk⟩
    · simp only [hpart] at hstep hnext ⊢
      subst hnext
      refine walkable_cons.2 ⟨hl, fun s hs => ?_, hwalk⟩
      cases hs
      split at hstep
      · simp at hstep
      · omega

theorem follow_of_walkable {pieces : List String} (h : d.Walkable l (Path.partsOfPieces pieces)) :
    d.follow l pieces = .ok ((Path.partsOfPieces pieces).foldl Location.after l) := by
  induction pieces generalizing l with
  | nil => rfl
  | cons piece pieces ih =>
    rw [partsOfPieces_cons] at h ⊢
    rw [follow_cons]
    have hl := h.start
    rcases Path.partOf?_cases piece with hpart | hpart | hpart
    · rw [hpart] at h ⊢
      exact ⟨l, by rw [step_eq hl, hpart], ih h⟩
    · rw [hpart] at h ⊢
      exact ⟨l.dropLast, by rw [step_eq hl, hpart], ih (walkable_cons.1 h).2.2⟩
    · rw [hpart] at h ⊢
      rcases walkable_cons.1 h with ⟨-, hshort, hrest⟩
      have hnext : d.node? (l ++ [piece]) = some .directory := hrest.start
      refine ⟨l ++ [piece], ?_, ih hrest⟩
      have hlength := hshort piece rfl
      simp only [step_eq hl, hpart, hnext]
      rw [if_neg (by omega)]
      rfl

theorem target_mem_way (d : Disk) (path : String) : d.target path ∈ d.way path :=
  foldl_mem_scanl _ _

theorem locate_eq_target {path : String} (h : d.locate path = .ok l) :
    pathError? path = none ∧ l = d.target path := by
  unfold locate at h
  cases hpath : pathError? path with
  | some e => simp [hpath] at h
  | none =>
    simp only [hpath] at h
    exact ⟨rfl, eq_foldl_of_follow h⟩

theorem locate_of_walkable {path : String} (hpath : pathError? path = none)
    (h : d.Walkable (d.startOf path) (Path.steps path)) : d.locate path = .ok (d.target path) := by
  unfold locate
  rw [hpath]
  exact follow_of_walkable h

theorem isDirectory_iff {path : String} :
    d.isDirectory path = true ↔
      pathError? path = none ∧ d.Walkable (d.startOf path) (Path.steps path) := by
  unfold isDirectory at?
  constructor
  · intro h
    cases hlocate : d.locate path with
    | error e => simp [hlocate] at h
    | ok l =>
      have hpath := (locate_eq_target hlocate).1
      have hl : d.node? l = some .directory := by
        simp only [hlocate] at h
        split at h
        · assumption
        · simp at h
      unfold locate at hlocate
      rw [hpath] at hlocate
      exact ⟨hpath, walkable_of_follow hlocate hl⟩
  · rintro ⟨hpath, h⟩
    rw [locate_of_walkable hpath h]
    simp only [target, h.last]

/-! ## Trees -/

/-- The names that something on a disk can have. -/
structure IsFileName (name : String) : Prop extends Path.IsName name where
  nulless : '\x00' ∉ name.toList
  short : byteLength name ≤ 255

/-- What stands on the disk has a proper name and stands in a directory. -/
structure IsTree (d : Disk) : Prop where
  above : ∀ l name, (d.node? (l ++ [name])).isSome → d.node? l = some .directory
  names : ∀ l, (d.node? l).isSome → ∀ name ∈ l, IsFileName name

theorem node?_root (d : Disk) : d.node? [] = some .directory := rfl

theorem IsTree.dropLast (h : d.IsTree) (hl : (d.node? l).isSome) :
    d.node? l.dropLast = some .directory := by
  by_cases hroot : l = []
  · rw [hroot]
    exact d.node?_root
  · rw [← List.dropLast_append_getLast hroot] at hl
    exact h.above _ _ hl

theorem IsTree.put (h : d.IsTree) {name : String} (hl : d.node? l = some .directory)
    (hname : IsFileName name) (hfree : d.node? (l ++ [name]) ≠ some .directory) (n : DiskNode) :
    (d.put (l ++ [name]) n).IsTree where
  above k other hk := by
    by_cases hsame : k ++ [other] = l ++ [name]
    · have hkl : k = l := (List.append_inj' hsame rfl).1
      rw [hkl, node?_put_of_ne (by simp), hl]
    · rw [node?_put_of_ne hsame] at hk
      have hdirectory := h.above k other hk
      have hne : k ≠ l ++ [name] := by
        rintro rfl
        exact hfree hdirectory
      rw [node?_put_of_ne hne, hdirectory]
  names k hk := by
    by_cases hsame : k = l ++ [name]
    · rw [hsame, List.forall_mem_append]
      refine ⟨h.names l (by rw [hl]; rfl), fun other hother => ?_⟩
      rwa [List.mem_singleton.1 hother]
    · rw [node?_put_of_ne hsame] at hk
      exact h.names k hk

theorem node?_eraseBelow_of_holds {k : Location} (h : l.Holds k) (d : Disk) :
    (d.eraseBelow l).node? k = none := by
  have hk : k ≠ [] := by
    rintro rfl
    exact h.2 (List.prefix_nil.1 h.1)
  have hnone : (d.eraseBelow l).nodes.find? (·.1 == k) = none := by
    rw [List.find?_eq_none]
    intro n hn hkey
    have hkeep := (List.mem_filter.1 hn).2
    rw [beq_iff_eq.1 hkey, List.isPrefixOf_iff_prefix.2 h.1] at hkeep
    simp [h.2] at hkeep
  simp [node?, hk, hnone]

theorem node?_eraseBelow_of_not_holds {k : Location} (h : ¬l.Holds k) (d : Disk) :
    (d.eraseBelow l).node? k = d.node? k := by
  have hfind : (d.eraseBelow l).nodes.find? (·.1 == k) = d.nodes.find? (·.1 == k) := by
    unfold eraseBelow
    rw [List.find?_filter]
    congr 1
    funext n
    by_cases hn : n.1 = k
    · have hkeep : (l.isPrefixOf k && l != k) = false := by
        rw [Bool.eq_false_iff]
        intro hboth
        rw [Bool.and_eq_true, List.isPrefixOf_iff_prefix, bne_iff_ne] at hboth
        exact h hboth
      simp [hn, hkeep]
    · simp [hn]
  simp only [node?, hfind]

theorem IsTree.eraseBelow (h : d.IsTree) (l : Location) : (d.eraseBelow l).IsTree where
  above k name hk := by
    have hkept : ¬l.Holds (k ++ [name]) := by
      intro hholds
      simp [node?_eraseBelow_of_holds hholds] at hk
    have hnot : ¬l.Holds k := by
      rintro ⟨hbelow, -⟩
      refine hkept ⟨hbelow.trans (List.prefix_append _ _), fun heq => ?_⟩
      have hlength := hbelow.length_le
      rw [heq, List.length_append, List.length_singleton] at hlength
      omega
    rw [node?_eraseBelow_of_not_holds hkept] at hk
    rw [node?_eraseBelow_of_not_holds hnot]
    exact h.above k name hk
  names k hk := by
    have hkept : ¬l.Holds k := by
      intro hholds
      simp [node?_eraseBelow_of_holds hholds] at hk
    rw [node?_eraseBelow_of_not_holds hkept] at hk
    exact h.names k hk

theorem IsTree.erase (h : d.IsTree) (hleaf : ∀ name, d.node? (l ++ [name]) = none) :
    (d.erase l).IsTree := by
  by_cases hroot : l = []
  · subst hroot
    have hsame : ∀ k, (d.erase []).node? k = d.node? k := by
      intro k
      by_cases hk : k = []
      · rw [hk]
        rfl
      · exact node?_erase_of_ne hk d
    exact ⟨fun k name hk => by rw [hsame] at hk ⊢; exact h.above k name hk,
      fun k hk => h.names k (by rwa [hsame] at hk)⟩
  · have hkept : ∀ k, ((d.erase l).node? k).isSome → k ≠ l := by
      rintro k hk rfl
      simp [node?_erase_self hroot] at hk
    refine ⟨fun k name hk => ?_, fun k hk => ?_⟩
    · rw [node?_erase_of_ne (hkept _ hk)] at hk
      have hne : k ≠ l := by
        rintro rfl
        simp [hleaf name] at hk
      rw [node?_erase_of_ne hne]
      exact h.above k name hk
    · rw [node?_erase_of_ne (hkept k hk)] at hk
      exact h.names k hk

theorem isSome_node?_iff {k : Location} (hk : k ≠ []) :
    (d.node? k).isSome ↔ ∃ n ∈ d.nodes, n.1 = k := by
  rw [node?, if_neg (by simpa using hk), Option.isSome_map, List.find?_isSome]
  simp

theorem childName_eq_some_iff {name : String} :
    (if l.isPrefixOf m && m.length == l.length + 1 then m.getLast? else none) = some name ↔
      m = l ++ [name] := by
  constructor
  · intro h
    split at h
    · next hchild =>
      rw [Bool.and_eq_true, List.isPrefixOf_iff_prefix, beq_iff_eq] at hchild
      rcases hchild with ⟨⟨rest, rfl⟩, hlength⟩
      have hone : rest.length = 1 := by
        rw [List.length_append] at hlength
        omega
      rcases List.length_eq_one_iff.1 hone with ⟨last, rfl⟩
      rw [List.getLast?_concat, Option.some.injEq] at h
      rw [h]
    · simp at h
  · rintro rfl
    simp

theorem children_isEmpty_iff :
    (d.children l).isEmpty = true ↔ ∀ name, d.node? (l ++ [name]) = none := by
  rw [List.isEmpty_iff, List.eq_nil_iff_forall_not_mem]
  refine forall_congr' fun name => ?_
  rw [← Option.not_isSome_iff_eq_none, isSome_node?_iff (by simp), children, List.mem_mergeSort,
    List.mem_filterMap]
  simp only [childName_eq_some_iff]

/-! ## Locations of a tree -/

theorem IsTree.directory_of_append (h : d.IsTree) {rest : Location} (hne : rest ≠ [])
    (hthere : (d.node? (l ++ rest)).isSome) : d.node? l = some .directory := by
  induction rest generalizing l with
  | nil => exact absurd rfl hne
  | cons name rest ih =>
    apply h.above l name
    by_cases hrest : rest = []
    · rwa [hrest] at hthere
    · rw [List.append_cons] at hthere
      exact Option.isSome_of_eq_some (ih hrest hthere)

/-- The names of a location lead to it. -/
theorem IsTree.walkable_names (h : d.IsTree) {rest : Location}
    (hthere : d.node? (l ++ rest) = some .directory) : d.Walkable l (rest.map PathPart.name) := by
  induction rest generalizing l with
  | nil =>
    rw [List.append_nil] at hthere
    exact walkable_nil.2 hthere
  | cons name rest ih =>
    have hsome := Option.isSome_of_eq_some hthere
    rw [List.map_cons, walkable_cons]
    refine ⟨h.directory_of_append (List.cons_ne_nil _ _) hsome, fun s hs => ?_, ih ?_⟩
    · cases hs
      exact (h.names _ hsome name (by simp)).short
    · rwa [Location.after, ← List.append_cons]

theorem foldl_after_names (l rest : Location) :
    (rest.map PathPart.name).foldl Location.after l = l ++ rest := by
  induction rest generalizing l with
  | nil => simp
  | cons name rest ih =>
    rw [List.map_cons, List.foldl_cons, ih, List.append_cons]
    rfl

/-- Something stands wherever a path leads. -/
theorem IsTree.isSome_of_follow (h : d.IsTree) {pieces : List String} (hl : (d.node? l).isSome)
    (hfollow : d.follow l pieces = .ok m) : (d.node? m).isSome := by
  induction pieces generalizing l with
  | nil =>
    cases hfollow
    exact hl
  | cons piece pieces ih =>
    rcases follow_cons.1 hfollow with ⟨next, hstep, hrest⟩
    apply ih _ hrest
    rw [step_eq (node?_of_step hstep)] at hstep
    rcases Path.partOf?_cases piece with hpart | hpart | hpart
    · rw [hpart] at hstep
      cases hstep
      exact hl
    · rw [hpart] at hstep
      cases hstep
      exact Option.isSome_of_eq_some (h.dropLast hl)
    · simp only [hpart] at hstep
      split at hstep
      · simp at hstep
      · split at hstep
        · next hthere =>
          cases hstep
          exact hthere
        · simp at hstep

/-- What operations on files can expect of a disk: a tree in which every location has a path that they
take, and a directory from which relative paths lead. -/
structure Regular (d : Disk) : Prop extends d.IsTree where
  here : d.node? d.here = some .directory
  reachable : ∀ l, (d.node? l).isSome → byteLength l.path ≤ 4095

theorem Regular.start (h : d.Regular) (path : String) :
    d.node? (d.startOf path) = some .directory := by
  unfold startOf
  split
  · exact d.node?_root
  · exact h.here

theorem Regular.isSome_of_locate (h : d.Regular) {path : String} (hl : d.locate path = .ok l) :
    (d.node? l).isSome := by
  have hpath := (locate_eq_target hl).1
  unfold locate at hl
  rw [hpath] at hl
  exact h.isSome_of_follow (Option.isSome_of_eq_some (h.start path)) hl

theorem Regular.exists?_iff (h : d.Regular) {path : String} :
    d.exists? path = true ↔ d.locate path = .ok (d.target path) := by
  unfold exists? at?
  cases hl : d.locate path with
  | error e => simp
  | ok l =>
    have htarget := (locate_eq_target hl).2
    have hthere := h.isSome_of_locate hl
    subst htarget
    simp [hthere]

/-- A disk is a tree if each of its nodes has a proper name and stands in a directory. -/
theorem isTree_of_nodes
    (h : ∀ n ∈ d.nodes, d.node? n.1.dropLast = some .directory ∧ ∀ name ∈ n.1, IsFileName name) :
    d.IsTree where
  above l name hthere := by
    rcases (isSome_node?_iff (by simp)).1 hthere with ⟨n, hn, hkey⟩
    have habove := (h n hn).1
    rwa [hkey, List.dropLast_concat] at habove
  names l hthere name hname := by
    rcases (isSome_node?_iff (List.ne_nil_of_mem hname)).1 hthere with ⟨n, hn, rfl⟩
    exact (h n hn).2 name hname

end Disk

end LintMend
