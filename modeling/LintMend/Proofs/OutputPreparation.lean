import LintMend.Proofs.ClearedDirectories
import LintMend.Repair.Output

/-!
# Preparing the output directory

A directory is cleared only if it is an earlier output directory that does not contain the analysed
sources. Nothing outside of it changes, except that missing directories of the way are made. What
stands where after a successful preparation is told by `OutputDir.prepared`.
-/

namespace LintMend

/-! ## Absolute paths of locations -/

theorem Path.join_path {l : Location} (hl : ∀ name ∈ l, IsName name) {name : String}
    (hname : '/' ∉ name.toList) : join l.path name = Location.path (l ++ [name]) := by
  unfold join
  rw [if_neg (by simp [isAbsolute_of_slashless hname])]
  by_cases hroot : l = []
  · subst hroot
    rw [if_pos (by decide), List.nil_append, Location.path, Location.path,
      String.intercalate_nil, String.append_empty, String.intercalate_singleton]
  · have hpieces : splitAtChar l.path '/' = ("" :: l.dropLast) ++ [l.getLast hroot] := by
      rw [Location.path, splitAtChar_slash_append, splitAtChar_intercalate hroot
        fun name hname => (hl name hname).slashless, List.cons_append,
        List.dropLast_append_getLast]
    have hslash := LeadsTo.endsWithText_slash ⟨hpieces, hl _ (List.getLast_mem hroot)⟩
    have hempty : (l.path == "") = false := by
      rw [beq_eq_false_iff_ne]
      simp [Location.path, ← String.toList_inj]
    rw [if_neg (by simp [hslash, hempty]), Location.path, Location.path,
      String.intercalate_append_of_ne_nil hroot (List.cons_ne_nil _ _),
      String.intercalate_singleton, String.append_assoc, String.append_assoc, String.append_assoc]

theorem Disk.pathError?_path_iff {l : Location} (h : ∀ name ∈ l, IsFileName name) :
    pathError? l.path = none ↔ byteLength l.path ≤ 4095 := by
  rw [pathError?_eq_none_iff]
  constructor
  · exact fun hpath => hpath.2.2
  · intro hlength
    refine ⟨by simp [Location.path, ← String.toList_inj], fun hnul => ?_, hlength⟩
    rw [Location.path, String.toList_append, String.toList_intercalate, List.mem_append] at hnul
    rcases hnul with hslash | hnames
    · exact absurd hslash (by decide)
    · rcases Text.mem_intercalate hnames with hslash | ⟨cs, hcs, hnul⟩
      · exact absurd hslash (by decide)
      · rcases List.mem_map.1 hcs with ⟨name, hname, rfl⟩
        exact (h name hname).nulless hnul

namespace OutputDir

theorem isName_marker : Path.IsName marker := by
  refine ⟨?_, ?_, ?_, ?_⟩ <;> decide

theorem isFileName_marker : Disk.IsFileName marker :=
  ⟨isName_marker, by decide, by decide⟩

theorem isBelow_path_iff {l m : Location} (hl : ∀ name ∈ l, Path.IsName name)
    (hm : ∀ name ∈ m, Path.IsName name) : isBelow l m.path = true ↔ l <+: m := by
  unfold isBelow
  rw [Path.parts_path hl, Path.parts_path hm, List.isPrefixOf_iff_prefix, List.prefix_cons_inj]
  apply List.prefix_map_iff_of_injective
  intro a b hab
  exact PathPart.name.inj hab

/-- A location must not be cleared if it contains the analysed sources, if it is not a directory or if
it holds something but no marker. -/
def MustStay (d : Disk) (l sources : Location) : Prop :=
  l <+: sources ∨ d.node? l ≠ some .directory ∨
    ((∃ name, d.node? (l ++ [name]) ≠ none) ∧
      ∀ content, d.node? (l ++ [marker]) ≠ some (.file content))

theorem isFile_marker_iff {d : Disk} (htree : d.IsTree) {l : Location}
    (hl : d.node? l = some .directory)
    (hreach : (d.node? (l ++ [marker])).isSome → byteLength (Location.path (l ++ [marker])) ≤ 4095) :
    d.isFile (Path.join l.path marker) = true ↔
      ∃ content, d.node? (l ++ [marker]) = some (.file content) := by
  have hfiles := htree.names l (Option.isSome_of_eq_some hl)
  have hnames : ∀ name ∈ l, Path.IsName name := fun name hname => (hfiles name hname).toIsName
  have hsteps := Path.steps_path hnames
  have hjoin := Path.join_path hnames isName_marker.slashless
  have hleads := Path.leadsTo_join isName_marker l.path
  have hstart : d.startOf (Path.join l.path marker) = [] := by
    unfold Disk.startOf
    rw [Path.isAbsolute_join isName_marker.slashless, if_pos (Path.isAbsolute_path l)]
  have htarget : d.target (Path.join l.path marker) = l ++ [marker] := by
    rw [Disk.target, hleads.steps_eq, Path.partsOfPieces_within, hsteps, hstart, List.foldl_append,
      Disk.foldl_after_names]
    rfl
  unfold Disk.isFile Disk.at?
  cases hpath : Disk.pathError? (Path.join l.path marker) with
  | none =>
    have hplace : d.newPlace (Path.join l.path marker) = .ok (l ++ [marker]) := by
      rw [Disk.newPlace_eq_ok_iff hleads, Path.partsOfPieces_within, hsteps, hstart, htarget]
      exact ⟨hpath, htree.walkable_names hl, isFileName_marker.short, rfl⟩
    rw [Disk.locate_eq hleads, hplace]
    simp only [Except.bind]
    cases hnode : d.node? (l ++ [marker]) with
    | none => simp
    | some node => cases node <;> simp [hnode]
  | some e =>
    have hmissing : d.node? (l ++ [marker]) = none := by
      rw [← Option.not_isSome_iff_eq_none]
      intro hthere
      have hshort := (Disk.pathError?_path_iff (htree.names _ hthere)).2 (hreach hthere)
      rw [← hjoin, hpath] at hshort
      simp at hshort
    have hlocate : d.locate (Path.join l.path marker) = .error e := by
      unfold Disk.locate
      rw [hpath]
    simp [hlocate, hmissing]

theorem refusal?_isSome_iff {d : Disk} (htree : d.IsTree) {o : OutputDir} {analysed : String}
    {l m : Location} (hlocate : d.locate o.root = .ok l) (hl : (d.node? l).isSome)
    (hanalysed : d.locate analysed = .ok m) (hm : ∀ name ∈ m, Path.IsName name)
    (hreach : (d.node? (l ++ [marker])).isSome → byteLength (Location.path (l ++ [marker])) ≤ 4095) :
    (o.refusal? d analysed).isSome ↔ MustStay d l m := by
  have hnames : ∀ name ∈ l, Path.IsName name := fun name hname =>
    (htree.names l hl name hname).toIsName
  unfold refusal? MustStay
  simp only [hlocate, hanalysed]
  by_cases hbelow : l <+: m
  · simp [isBelow_path_iff hnames hm, hbelow]
  · have hnot : isBelow l m.path = false := by
      rw [Bool.eq_false_iff, ne_eq, isBelow_path_iff hnames hm]
      exact hbelow
    simp only [hnot, hbelow, Bool.false_eq_true, if_false, false_or]
    cases hnode : d.node? l with
    | none => simp [hnode] at hl
    | some node =>
      cases node with
      | file content => simp
      | directory =>
        have hmarker := isFile_marker_iff htree hnode hreach
        have hempty := @Disk.children_isEmpty_iff d l
        rw [← not_iff_not] at hempty hmarker
        simp only [not_forall, not_exists, Bool.not_eq_true] at hempty hmarker
        simp only [Option.isSome_ite, Bool.and_eq_true, Bool.not_eq_true', hempty, hmarker, ne_eq,
          not_true_eq_false, false_or]

/-! ## Making the directory with its marker -/

theorem newPlace_marker_iff {o : OutputDir} {d : Disk} {l : Location} :
    d.newPlace (Path.join o.root marker) = .ok l ↔
      Disk.pathError? (Path.join o.root marker) = none ∧
        d.Walkable (d.startOf o.root) (Path.steps o.root) ∧ l = d.target o.root ++ [marker] := by
  have hleads := Path.leadsTo_join isName_marker o.root
  have hstart : d.startOf (Path.join o.root marker) = d.startOf o.root := by
    unfold Disk.startOf
    rw [Path.isAbsolute_join isName_marker.slashless]
  have htarget : d.target (Path.join o.root marker) = d.target o.root ++ [marker] := by
    rw [Disk.target, hleads.steps_eq, Path.partsOfPieces_within, hstart, List.foldl_append]
    rfl
  rw [Disk.newPlace_eq_ok_iff hleads, Path.partsOfPieces_within, hstart, htarget]
  simp [isFileName_marker.short]

/-- What is known if the directory has been made: the disk with its directories, and the marker in the
last one. -/
structure Created (o : OutputDir) (d d₁ d' : Disk) : Prop where
  made : d.makeAll o.root = (d₁, none)
  grows : Disk.Grows d d₁ (d.way o.root)
  walkable : d₁.Walkable (d.startOf o.root) (Path.steps o.root)
  markerPath_ok : Disk.pathError? (Path.join o.root marker) = none
  free : d₁.node? (d.target o.root ++ [marker]) ≠ some .directory
  eq_put : d' = d₁.put (d.target o.root ++ [marker]) (.file ByteArray.empty)

theorem create_cases {o : OutputDir} {d d' : Disk} {r : Option OutputError}
    (h : o.create d = (d', r)) :
    (d' = (d.makeAll o.root).1 ∧ r ≠ none) ∨ ∃ d₁, Created o d d₁ d' ∧ r = none := by
  have hgrows := Disk.grows_makeAll d o.root
  unfold create at h
  split at h
  · next d₁ e hmade =>
    simp only [Prod.mk.injEq] at h
    exact .inl ⟨by rw [hmade, ← h.1], by simp [← h.2]⟩
  · next d₁ hmade =>
    rw [hmade] at hgrows
    split at h
    · next d₂ hwrite =>
      simp only [Prod.mk.injEq] at h
      rcases h with ⟨rfl, rfl⟩
      rw [Disk.write_eq (Path.leadsTo_join isName_marker o.root)] at hwrite
      cases hplace : d₁.newPlace (Path.join o.root marker) with
      | error e => simp [hplace, Except.bind] at hwrite
      | ok l =>
        rcases newPlace_marker_iff.1 hplace with ⟨hpath, hwalk, hl⟩
        rw [Disk.startOf_congr hgrows.here_eq] at hwalk
        rw [Disk.target_congr hgrows.here_eq] at hl
        subst hl
        simp only [hplace, Except.bind] at hwrite
        split at hwrite
        · simp at hwrite
        · next hfree =>
          exact .inr ⟨d₁, ⟨hmade, hgrows, hwalk, hpath, hfree, (Except.ok.inj hwrite).symm⟩, rfl⟩
    · simp only [Prod.mk.injEq] at h
      exact .inl ⟨by rw [hmade, ← h.1], by simp [← h.2]⟩

theorem exists_created {o : OutputDir} {d d' : Disk} (h : o.create d = (d', none)) :
    ∃ d₁, Created o d d₁ d' := by
  rcases create_cases h with ⟨-, hfailed⟩ | ⟨d₁, hcreated, -⟩
  · exact absurd rfl hfailed
  · exact ⟨d₁, hcreated⟩

theorem create_ne_refused (o : OutputDir) (d : Disk) (e : ConfigError) :
    (o.create d).2 ≠ some (.refused e) := by
  unfold create
  split
  · simp
  · split <;> simp

/-- Whatever the outcome, making the directory adds directories on the way and the marker. -/
theorem node?_create (o : OutputDir) (d : Disk) (k : Location) :
    (o.create d).1.node? k = d.node? k ∨ k = d.target o.root ++ [marker] ∨
      (k ∈ d.way o.root ∧ d.node? k = none) := by
  have hgrows := Disk.grows_makeAll d o.root
  have hmade : (d.makeAll o.root).1.node? k = d.node? k ∨
      (k ∈ d.way o.root ∧ d.node? k = none) :=
    (hgrows.node k).imp_right fun hnew => ⟨hnew.1, hnew.2.1⟩
  rcases hcreate : o.create d with ⟨d', r⟩
  rcases create_cases hcreate with ⟨rfl, -⟩ | ⟨d₁, hcreated, -⟩
  · exact hmade.imp_right .inr
  · rw [hcreated.made] at hmade
    by_cases hk : k = d.target o.root ++ [marker]
    · exact .inr (.inl hk)
    · rw [hcreated.eq_put, Disk.node?_put_of_ne hk]
      exact hmade.imp_right .inr

theorem isTree_of_create {o : OutputDir} {d d' : Disk} (htree : d.IsTree)
    (h : o.create d = (d', none)) : d'.IsTree := by
  rcases exists_created h with ⟨d₁, hcreated⟩
  have hmade := hcreated.grows.tree htree
  rw [hcreated.eq_put]
  exact hmade.put hcreated.walkable.last isFileName_marker hcreated.free _

/-- What stands where once the directory is made. -/
theorem node?_of_create {o : OutputDir} {d d' : Disk} (h : o.create d = (d', none)) (k : Location) :
    d'.node? k =
      if k = d.target o.root ++ [marker] then some (.file ByteArray.empty)
      else if k ∈ d.way o.root then some .directory
      else d.node? k := by
  rcases exists_created h with ⟨d₁, hcreated⟩
  rw [hcreated.eq_put]
  split
  · next hk =>
    rw [hk, Disk.node?_put_self]
    simp
  · next hk =>
    rw [Disk.node?_put_of_ne hk]
    split
    · next hmem => exact hcreated.walkable.directory k hmem
    · next hmem => exact (hcreated.grows.node k).resolve_right fun hnew => hmem hnew.1

/-- When the directory can be made with its marker: nothing but directories stands on the way, and the
marker has a place that the way does not pass. -/
structure Makeable (o : OutputDir) (d : Disk) : Prop where
  path_ok : o.root ≠ "" → Disk.pathError? o.root = none
  markerPath_ok : Disk.pathError? (Path.join o.root marker) = none
  free : d.Free (d.startOf o.root) (Path.steps o.root)
  reaches : d.Reaches o.root
  marker_notMem : d.target o.root ++ [marker] ∉ d.way o.root
  marker_free : d.node? (d.target o.root ++ [marker]) ≠ some .directory

theorem makeAll_empty (d : Disk) : d.makeAll "" = (d, none) := rfl

theorem makeable_of_create {o : OutputDir} {d : Disk} (htree : d.IsTree)
    (h : (o.create d).2 = none) : o.Makeable d := by
  have hcreate : o.create d = ((o.create d).1, none) := by rw [← h]
  rcases exists_created hcreate with ⟨d₁, hcreated⟩
  have hmarker : d.target o.root ++ [marker] ∉ d.way o.root := fun hmem =>
    hcreated.free (hcreated.walkable.directory _ hmem)
  have hmarkerFree : d.node? (d.target o.root ++ [marker]) ≠ some .directory := fun hdirectory =>
    hcreated.free (hcreated.grows.keeps.directory _ hdirectory)
  by_cases hempty : o.root = ""
  · have hsame : d₁ = d := by
      have hmade := hcreated.made
      rw [hempty, makeAll_empty, Prod.mk.injEq] at hmade
      exact hmade.1.symm
    have hwalk := hcreated.walkable
    rw [hsame] at hwalk
    exact ⟨fun hne => absurd hempty hne, hcreated.markerPath_ok,
      Disk.free_of_grows (Disk.Grows.refl d _) hwalk.start hwalk, .inr (.inl hwalk.last), hmarker,
      hmarkerFree⟩
  · have hmade : (d.makeAll o.root).2 = none := by rw [hcreated.made]
    rcases (Disk.makeAll_succeeds_iff htree hempty).1 hmade with ⟨hpath, hfree, hreaches⟩
    exact ⟨fun _ => hpath, hcreated.markerPath_ok, hfree, hreaches, hmarker, hmarkerFree⟩

theorem Makeable.create {o : OutputDir} {d : Disk} (htree : d.IsTree) (h : o.Makeable d) :
    (o.create d).2 = none := by
  have hgrows := Disk.grows_makeAll d o.root
  have hall : (d.makeAll o.root).2 = none := by
    by_cases hempty : o.root = ""
    · rw [hempty, makeAll_empty]
    · exact (Disk.makeAll_succeeds_iff htree hempty).2 ⟨h.path_ok hempty, h.free, h.reaches⟩
  rcases hmade : d.makeAll o.root with ⟨d₁, r⟩
  rw [hmade] at hgrows hall
  subst hall
  have hwalk : d₁.Walkable (d₁.startOf o.root) (Path.steps o.root) := by
    rw [Disk.startOf_congr hgrows.here_eq]
    exact Disk.walkable_of_makeDirectories h.free.start hmade
  have hplace : d₁.newPlace (Path.join o.root marker) = .ok (d.target o.root ++ [marker]) := by
    rw [newPlace_marker_iff, Disk.target_congr hgrows.here_eq]
    exact ⟨h.markerPath_ok, hwalk, rfl⟩
  have hplaceFree : d₁.node? (d.target o.root ++ [marker]) ≠ some .directory := by
    rw [(hgrows.node _).resolve_right fun hnew => h.marker_notMem hnew.1]
    exact h.marker_free
  have hwrite := Disk.write_of_free (Path.leadsTo_join isName_marker o.root) hplace hplaceFree
    ByteArray.empty
  unfold OutputDir.create
  rw [hmade]
  simp only [hwrite]

/-! ## Preparing -/

theorem prepare_cases (o : OutputDir) (d : Disk) (analysed : String) :
    (d.exists? o.root = true ∧ ∃ reason, o.refusal? d analysed = some reason ∧
        o.prepare d analysed = (d, some (.refused (.unsafeOutputDir o.root reason)))) ∨
      (d.exists? o.root = true ∧ o.refusal? d analysed = none ∧ ∃ e r, d.removeTree o.root = (e, r) ∧
        ((∃ failure, o.prepare d analysed = (e, some (.file failure))) ∨
          (r = none ∧ o.prepare d analysed = o.create e))) ∨
      (d.exists? o.root = false ∧ o.prepare d analysed = o.create d) := by
  unfold prepare
  cases hexists : d.exists? o.root with
  | false => simp
  | true =>
    cases hrefusal : o.refusal? d analysed with
    | some reason => simp
    | none =>
      rcases hremove : d.removeTree o.root with ⟨e, r⟩
      cases r with
      | none => simp
      | some failure => simp

/-- What stands where after a successful preparation: the marker, the directories of the way, nothing
else in a directory that was there, and what was there before. -/
def prepared (o : OutputDir) (d : Disk) (k : Location) : Option DiskNode :=
  if k = d.target o.root ++ [marker] then some (.file ByteArray.empty)
  else if k ∈ d.way o.root then some .directory
  else if d.exists? o.root = true ∧ d.target o.root <+: k then none
  else d.node? k

/-- A successful preparation makes the directory on the disk, or on what is left after clearing. -/
theorem exists_create_of_prepare {o : OutputDir} {d d' : Disk} {analysed : String}
    (h : o.prepare d analysed = (d', none)) :
    ∃ e, o.create e = (d', none) ∧
      ((d.exists? o.root = false ∧ e = d) ∨
        (d.exists? o.root = true ∧ o.refusal? d analysed = none ∧
          d.removeTree o.root = (e, none))) := by
  rcases prepare_cases o d analysed with
    ⟨-, reason, -, hprepare⟩ | ⟨hexists, hrefusal, e, r, hremove, hprepare⟩ | ⟨hexists, hprepare⟩
  · simp [hprepare] at h
  · rcases hprepare with ⟨failure, hprepare⟩ | ⟨rfl, hprepare⟩
    · simp [hprepare] at h
    · exact ⟨e, hprepare ▸ h, .inr ⟨hexists, hrefusal, hremove⟩⟩
  · exact ⟨d, hprepare ▸ h, .inl ⟨hexists, rfl⟩⟩

theorem here_of_exists_create {o : OutputDir} {d e : Disk} {analysed : String}
    (h : (d.exists? o.root = false ∧ e = d) ∨ (d.exists? o.root = true ∧
      o.refusal? d analysed = none ∧ d.removeTree o.root = (e, none))) : e.here = d.here := by
  rcases h with ⟨-, rfl⟩ | ⟨-, -, hremove⟩
  · rfl
  · exact (Disk.cleared_of_removeTree hremove).here_eq

theorem node?_prepare {o : OutputDir} {d d' : Disk} {analysed : String}
    (h : o.prepare d analysed = (d', none)) (k : Location) : d'.node? k = o.prepared d k := by
  rcases exists_create_of_prepare h with ⟨e, hcreate, hbefore⟩
  have hhere := here_of_exists_create hbefore
  rw [node?_of_create hcreate, Disk.target_congr hhere, Disk.way_congr hhere, prepared]
  split
  · rfl
  · split
    · rfl
    · next hway =>
      rcases hbefore with ⟨hexists, rfl⟩ | ⟨hexists, -, hremove⟩
      · simp [hexists]
      · have hcleared := Disk.cleared_of_removeTree hremove
        have hne : d.target o.root ≠ k := by
          rintro rfl
          exact hway (Disk.target_mem_way d o.root)
        split
        · next hinside => exact hcleared.inside k ⟨hinside.2, hne⟩
        · next houtside => exact hcleared.outside k fun hbelow => houtside ⟨hexists, hbelow⟩

/-- Whatever the outcome, only the marker, missing directories of the way and what stands at a
directory that may be cleared can change. -/
theorem node?_prepare_cases (o : OutputDir) (d : Disk) (analysed : String) (k : Location) :
    (o.prepare d analysed).1.node? k = d.node? k ∨ k = d.target o.root ++ [marker] ∨
      (k ∈ d.way o.root ∧ d.node? k = none) ∨
      (d.exists? o.root = true ∧ o.refusal? d analysed = none ∧ d.target o.root <+: k) := by
  rcases prepare_cases o d analysed with
    ⟨-, reason, -, hprepare⟩ | ⟨hexists, hrefusal, e, r, hremove, hprepare⟩ | ⟨-, hprepare⟩
  · rw [hprepare]
    exact .inl rfl
  · by_cases hk : d.target o.root <+: k
    · exact .inr (.inr (.inr ⟨hexists, hrefusal, hk⟩))
    · have hsame := Disk.node?_removeTree hk
      rw [hremove] at hsame
      rcases hprepare with ⟨failure, hprepare⟩ | ⟨rfl, hprepare⟩
      · rw [hprepare]
        exact .inl hsame
      · have hhere := (Disk.cleared_of_removeTree hremove).here_eq
        have hcreate := node?_create o e k
        rw [hsame, Disk.target_congr hhere, Disk.way_congr hhere] at hcreate
        rw [hprepare]
        exact hcreate.imp_right (.imp_right .inl)
  · rw [hprepare]
    exact (node?_create o d k).imp_right (.imp_right .inl)

theorem refusal?_ne_none_iff {o : OutputDir} {d : Disk} (hd : d.Regular) {analysed : String}
    {sources : Location} (hsources : d.locate analysed = .ok sources)
    (hexists : d.exists? o.root = true) :
    o.refusal? d analysed ≠ none ↔ MustStay d (d.target o.root) sources := by
  have hlocate := hd.exists?_iff.1 hexists
  have hnames := hd.names sources (hd.isSome_of_locate hsources)
  rw [Option.ne_none_iff_isSome, refusal?_isSome_iff hd.toIsTree hlocate (hd.isSome_of_locate hlocate)
    hsources (fun name hname => (hnames name hname).toIsName) (hd.reachable _)]

theorem prepare_refused_iff {o : OutputDir} {d : Disk} (hd : d.Regular) {analysed : String}
    {sources : Location} (hsources : d.locate analysed = .ok sources) :
    (∃ reason, (o.prepare d analysed).2 = some (.refused (.unsafeOutputDir o.root reason))) ↔
      d.exists? o.root = true ∧ MustStay d (d.target o.root) sources := by
  rw [← and_congr_right (refusal?_ne_none_iff hd hsources)]
  rcases prepare_cases o d analysed with
    ⟨hexists, reason, hrefusal, hprepare⟩ | ⟨-, hrefusal, e, r, -, hprepare⟩ | ⟨hexists, hprepare⟩
  · simp [hexists, hrefusal, hprepare]
  · rcases hprepare with ⟨failure, hprepare⟩ | ⟨-, hprepare⟩
    · simp [hrefusal, hprepare]
    · simp [hrefusal, hprepare, create_ne_refused]
  · simp [hexists, hprepare, create_ne_refused]

theorem prepare_eq_of_refused {o : OutputDir} {d : Disk} {analysed : String} {e : ConfigError}
    (h : (o.prepare d analysed).2 = some (.refused e)) : (o.prepare d analysed).1 = d := by
  rcases prepare_cases o d analysed with
    ⟨-, reason, -, hprepare⟩ | ⟨-, -, _, _, -, hprepare⟩ | ⟨-, hprepare⟩
  · rw [hprepare]
  · rcases hprepare with ⟨failure, hprepare⟩ | ⟨-, hprepare⟩
    · simp [hprepare] at h
    · exact absurd (hprepare ▸ h) (create_ne_refused o _ e)
  · exact absurd (hprepare ▸ h) (create_ne_refused o d e)

/-- Whatever the outcome, what must stay is spared, and so is all that stands elsewhere. -/
theorem node?_prepare_or {o : OutputDir} {d : Disk} (hd : d.Regular) {analysed : String}
    {sources : Location} (hsources : d.locate analysed = .ok sources) (k : Location) :
    (o.prepare d analysed).1.node? k = d.node? k ∨ k = d.target o.root ++ [marker] ∨
      (k ∈ d.way o.root ∧ d.node? k = none) ∨
      (d.exists? o.root = true ∧ ¬MustStay d (d.target o.root) sources ∧ d.target o.root <+: k) := by
  have hclear : d.exists? o.root = true ∧ o.refusal? d analysed = none ∧ d.target o.root <+: k →
      d.exists? o.root = true ∧ ¬MustStay d (d.target o.root) sources ∧ d.target o.root <+: k := by
    rintro ⟨hexists, hrefusal, hbelow⟩
    refine ⟨hexists, fun hstay => ?_, hbelow⟩
    exact (refusal?_ne_none_iff hd hsources hexists).2 hstay hrefusal
  exact (node?_prepare_cases o d analysed k).imp_right (.imp_right (.imp_right hclear))

end OutputDir

end LintMend
