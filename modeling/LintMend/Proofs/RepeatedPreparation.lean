import LintMend.Proofs.OutputPreparation

/-!
# Preparing the output directory again

A path can lead through a missing directory and back to a directory that is there. Nothing is there by
that path before the first preparation, so it makes what is missing and marks the directory. The files
in it stay, and the next preparation takes them for its own. The main result tells for which paths the
output directory holds the marker alone, and which preparations can be repeated without a change.
-/

namespace LintMend

namespace OutputDir

/-! ## Making again what is there -/

/-- The output directory is there, and the way to it does not pass the place of the marker. -/
structure There (o : OutputDir) (d : Disk) : Prop where
  path_ok : Disk.pathError? o.root = none
  walkable : d.Walkable (d.startOf o.root) (Path.steps o.root)
  marker_notMem : d.target o.root ++ [marker] ∉ d.way o.root

/-- When a directory that is there can be removed and made again: the path does not start inside of
it, it passes what the directory holds or ends with the name of the directory, and the marker has a
path that is taken. -/
structure Remakeable (o : OutputDir) (d : Disk) : Prop where
  start : ¬(d.target o.root).Holds (d.startOf o.root)
  ends : (∃ w ∈ d.way o.root, (d.target o.root).Holds w) ∨
    (Path.endsWithStep o.root = true ∧ d.startOf o.root ≠ d.target o.root)
  markerPath_ok : Disk.pathError? (Path.join o.root marker) = none

section

variable {o : OutputDir} {d : Disk} (hthere : o.There d)
include hthere

theorem There.node? : d.node? (d.target o.root) = some .directory := hthere.walkable.last

theorem There.locate : d.locate o.root = .ok (d.target o.root) :=
  Disk.locate_of_walkable hthere.path_ok hthere.walkable

theorem There.exists? : d.exists? o.root = true := by
  unfold Disk.exists? Disk.at?
  rw [hthere.locate]
  simp [hthere.node?]

theorem There.makeable_cleared {e : Disk} (hcleared : Disk.Cleared d e (d.target o.root))
    (hstart : e.node? (d.startOf o.root) = some .directory)
    (hend : Path.endsWithStep o.root = true ∨ e.node? (d.target o.root) = some .directory)
    (hmarker : Disk.pathError? (Path.join o.root marker) = none) : o.Makeable e := by
  have hfree : e.Free (d.startOf o.root) (Path.steps o.root) := by
    refine ⟨hstart, fun w hw => ?_, hthere.walkable.short⟩
    by_cases hbelow : d.target o.root <+: w
    · by_cases hsame : d.target o.root = w
      · exact hsame ▸ hcleared.itself
      · exact .inr (hcleared.inside w ⟨hbelow, hsame⟩)
    · rw [hcleared.outside w hbelow]
      exact .inl (hthere.walkable.directory w hw)
  have hstartOf := Disk.startOf_congr hcleared.here_eq o.root
  have htarget := Disk.target_congr hcleared.here_eq o.root
  have hway := Disk.way_congr hcleared.here_eq o.root
  refine ⟨fun _ => hthere.path_ok, hmarker, hstartOf ▸ hfree, ?_, ?_, ?_⟩
  · apply hend.imp_right
    rw [htarget]
    exact .inl
  · rw [htarget, hway]
    exact hthere.marker_notMem
  · rw [htarget, hcleared.inside _ ⟨List.prefix_append _ _, by simp⟩]
    simp

theorem There.prepare_of_remakeable {analysed : String} (htree : d.IsTree)
    (hroot : d.target o.root ≠ []) (hrefusal : o.refusal? d analysed = none)
    (h : o.Remakeable d) : (o.prepare d analysed).2 = none := by
  rcases Disk.removeTree_of_walkable htree hthere.path_ok hthere.walkable hroot h.start h.ends with
    ⟨e, hremove, hstart, hend⟩
  have hcleared := Disk.cleared_of_removeTree hremove
  have hprepare : o.prepare d analysed = o.create e := by
    unfold prepare
    simp only [hthere.exists?, hrefusal, hremove, if_true]
  rw [hprepare]
  exact (hthere.makeable_cleared hcleared hstart hend h.markerPath_ok).create (hcleared.tree htree)

theorem There.remakeable_of_prepare {analysed : String}
    (h : (o.prepare d analysed).2 = none) : o.Remakeable d := by
  have hprepare : o.prepare d analysed = ((o.prepare d analysed).1, none) := by rw [← h]
  rcases exists_create_of_prepare hprepare with ⟨e, hcreate, ⟨hmissing, -⟩ | ⟨-, -, hremove⟩⟩
  · rw [hthere.exists?] at hmissing
    simp at hmissing
  · have hcleared := Disk.cleared_of_removeTree hremove
    rcases exists_created hcreate with ⟨d₁, hcreated⟩
    have hne : o.root ≠ "" := (Disk.pathError?_eq_none_iff.1 hthere.path_ok).1
    have hstart : e.node? (d.startOf o.root) = some .directory := by
      rw [← Disk.startOf_congr hcleared.here_eq]
      exact (Disk.ensured_of_makeDirectories hne hcreated.made).start
    refine ⟨fun hholds => ?_, ?_, hcreated.markerPath_ok⟩
    · rw [hcleared.inside _ hholds] at hstart
      simp at hstart
    · by_cases hpasses : ∃ w ∈ d.way o.root, (d.target o.root).Holds w
      · exact .inl hpasses
      · -- Without a way through the directory, it has been removed by a path that ends with its name.
        have hnone : ∀ w ∈ d.way o.root, ¬(d.target o.root).Holds w := fun w hw hholds =>
          hpasses ⟨w, hw, hholds⟩
        rcases Disk.removeTree_cases hremove with ⟨-, hfailed⟩ | ⟨-, ⟨rfl, hmissing⟩ | ⟨hremoved, -⟩⟩
        · exact absurd rfl hfailed
        · have hwalk := Disk.walkable_eraseBelow hthere.walkable hnone
          exact absurd (hmissing rfl) (Disk.removeDirectory_ne_notFound hthere.path_ok hwalk)
        · rcases Disk.removeDirectory_eq_ok hremoved with ⟨hends, hroot, -, rfl⟩
          refine .inr ⟨hends, fun hsame => ?_⟩
          have hgone := Disk.node?_erase_self hroot (d.eraseBelow (d.target o.root))
          rw [hsame] at hstart
          exact absurd (hstart.symm.trans hgone) (by simp)

end

/-- What may be cleared is there. -/
theorem there_of_not_mustStay {o : OutputDir} {d : Disk} (hd : d.Regular) {sources : Location}
    (hexists : d.exists? o.root = true) (h : ¬MustStay d (d.target o.root) sources) :
    o.There d := by
  have hlocate := hd.exists?_iff.1 hexists
  unfold MustStay at h
  rw [not_or, not_or, not_not] at h
  rcases h with ⟨-, hnode, hmarker⟩
  have hdirectory : d.isDirectory o.root = true := by
    unfold Disk.isDirectory Disk.at?
    simp only [hlocate, hnode]
  rcases Disk.isDirectory_iff.1 hdirectory with ⟨hpath, hwalk⟩
  refine ⟨hpath, hwalk, fun hmem => hmarker ⟨⟨marker, ?_⟩, fun content => ?_⟩⟩
  · simp [hwalk.directory _ hmem]
  · simp [hwalk.directory _ hmem]

/-- When a preparation succeeds. -/
theorem prepare_succeeds_iff {o : OutputDir} {d : Disk} (hd : d.Regular) {analysed : String}
    {sources : Location} (hsources : d.locate analysed = .ok sources) :
    (o.prepare d analysed).2 = none ↔
      (d.exists? o.root = true ∧ ¬MustStay d (d.target o.root) sources ∧ o.Remakeable d) ∨
        (d.exists? o.root = false ∧ o.Makeable d) := by
  cases hexists : d.exists? o.root with
  | true =>
    have hrefusal := refusal?_ne_none_iff hd hsources hexists
    simp only [true_and, Bool.true_eq_false, false_and, or_false]
    constructor
    · intro h
      have hstay : ¬MustStay d (d.target o.root) sources := by
        intro hstay
        rcases (prepare_refused_iff hd hsources).2 ⟨hexists, hstay⟩ with ⟨reason, hrefused⟩
        rw [h] at hrefused
        simp at hrefused
      exact ⟨hstay, (there_of_not_mustStay hd hexists hstay).remakeable_of_prepare h⟩
    · rintro ⟨hstay, hremakeable⟩
      have hroot : d.target o.root ≠ [] := fun hnil => hstay (.inl (hnil ▸ List.nil_prefix))
      have hnone : o.refusal? d analysed = none := by
        by_contra hsome
        exact hstay (hrefusal.1 hsome)
      exact (there_of_not_mustStay hd hexists hstay).prepare_of_remakeable hd.toIsTree hroot hnone
        hremakeable
  | false =>
    have hprepare : o.prepare d analysed = o.create d := by
      unfold prepare
      simp [hexists]
    simp only [Bool.false_eq_true, false_and, true_and, false_or]
    rw [hprepare]
    exact ⟨makeable_of_create hd.toIsTree, Makeable.create hd.toIsTree⟩

/-! ## Preparing again -/

/-- The disk is as a preparation leaves it. -/
structure Stands (o : OutputDir) (d : Disk) : Prop where
  path_ok : o.root ≠ "" → Disk.pathError? o.root = none
  markerPath_ok : Disk.pathError? (Path.join o.root marker) = none
  walkable : d.Walkable (d.startOf o.root) (Path.steps o.root)
  node?_marker : d.node? (d.target o.root ++ [marker]) = some (.file ByteArray.empty)

theorem stands_of_create {o : OutputDir} {d d' : Disk} (h : o.create d = (d', none)) :
    o.Stands d' ∧ d'.here = d.here := by
  rcases exists_created h with ⟨d₁, hcreated⟩
  have hhere : d'.here = d.here := by
    rw [hcreated.eq_put]
    exact hcreated.grows.here_eq
  refine ⟨⟨fun hne => ?_, hcreated.markerPath_ok, ?_, ?_⟩, hhere⟩
  · exact (Disk.ensured_of_makeDirectories hne hcreated.made).path_ok
  · rw [Disk.startOf_congr hhere, hcreated.eq_put]
    exact hcreated.walkable.of_keeps (Disk.keeps_put hcreated.free _)
  · rw [Disk.target_congr hhere, hcreated.eq_put, Disk.node?_put_self]
    simp

/-- When a preparation can be repeated without a change: the directory does not contain the sources,
it can be made again, and it holds nothing but the marker and directories of the way. -/
structure Repeats (o : OutputDir) (d : Disk) (sources : Location) : Prop where
  apart : ¬d.target o.root <+: sources
  remakeable : o.Remakeable d
  content : ∀ k, (d.target o.root).Holds k → d.node? k ≠ none →
    k = d.target o.root ++ [marker] ∨ k ∈ d.way o.root

section

variable {o : OutputDir} {d : Disk} (hstands : o.Stands d)
include hstands

theorem Stands.marker_notMem_way : d.target o.root ++ [marker] ∉ d.way o.root := by
  intro hmem
  have hdirectory := hstands.walkable.directory _ hmem
  rw [hstands.node?_marker] at hdirectory
  simp at hdirectory

theorem Stands.there (hne : o.root ≠ "") : o.There d :=
  ⟨hstands.path_ok hne, hstands.walkable, hstands.marker_notMem_way⟩

theorem Stands.mustStay_iff {sources : Location} :
    MustStay d (d.target o.root) sources ↔ d.target o.root <+: sources := by
  have hnode : d.node? (d.target o.root) = some .directory := hstands.walkable.last
  simp [MustStay, hnode, hstands.node?_marker]

theorem Stands.prepared_eq_iff (hne : o.root ≠ "") :
    (∀ k, o.prepared d k = d.node? k) ↔
      ∀ k, (d.target o.root).Holds k → d.node? k ≠ none →
        k = d.target o.root ++ [marker] ∨ k ∈ d.way o.root := by
  have hexists := (hstands.there hne).exists?
  constructor
  · intro h k hk hthere
    by_contra hother
    rw [not_or] at hother
    apply hthere
    rw [← h k, prepared, if_neg hother.1, if_neg hother.2, if_pos ⟨hexists, hk.1⟩]
  · intro h k
    unfold prepared
    split
    · next hk => rw [hk, hstands.node?_marker]
    · next hmarker =>
      split
      · next hway => exact (hstands.walkable.directory k hway).symm
      · next hway =>
        split
        · next hinside =>
          have hother : d.target o.root ≠ k := by
            rintro rfl
            exact hway (Disk.target_mem_way d o.root)
          by_contra hthere
          exact (h k ⟨hinside.2, hother⟩ (Ne.symm hthere)).elim hmarker hway
        · rfl

/-- A preparation that succeeds again, without a change. -/
theorem Stands.prepare_again_iff {analysed : String} {sources : Location} (htree : d.IsTree)
    (hne : o.root ≠ "") (hlocate : d.locate analysed = .ok sources)
    (hnames : ∀ name ∈ sources, Path.IsName name)
    (hreach : byteLength (Location.path (d.target o.root ++ [marker])) ≤ 4095) :
    ((o.prepare d analysed).2 = none ∧ ∀ k, (o.prepare d analysed).1.node? k = d.node? k) ↔
      o.Repeats d sources := by
  have hthere := hstands.there hne
  have hrefusal : o.refusal? d analysed = none ↔ ¬d.target o.root <+: sources := by
    rw [← hstands.mustStay_iff, ← refusal?_isSome_iff htree hthere.locate
      (Option.isSome_of_eq_some hthere.node?) hlocate hnames fun _ => hreach,
      Option.not_isSome_iff_eq_none]
  have hnodes : (o.prepare d analysed).2 = none →
      ∀ k, (o.prepare d analysed).1.node? k = o.prepared d k := fun hdone k =>
    node?_prepare (show o.prepare d analysed = ((o.prepare d analysed).1, none) by rw [← hdone]) k
  constructor
  · rintro ⟨hdone, hsame⟩
    have hclear : o.refusal? d analysed = none := by
      rcases prepare_cases o d analysed with
        ⟨-, reason, -, hprepare⟩ | ⟨-, hnone, -⟩ | ⟨hmissing, -⟩
      · simp [hprepare] at hdone
      · exact hnone
      · simp [hthere.exists?] at hmissing
    refine ⟨hrefusal.1 hclear, hthere.remakeable_of_prepare hdone, ?_⟩
    rw [← hstands.prepared_eq_iff hne]
    intro k
    rw [← hnodes hdone k, hsame k]
  · intro h
    have hroot : d.target o.root ≠ [] := fun hnil => h.apart (hnil ▸ List.nil_prefix)
    have hdone := hthere.prepare_of_remakeable htree hroot (hrefusal.2 h.apart) h.remakeable
    refine ⟨hdone, fun k => ?_⟩
    rw [hnodes hdone k]
    exact (hstands.prepared_eq_iff hne).2 h.content k

/-- With an empty path the marker is written anew. -/
theorem Stands.prepare_of_empty (hempty : o.root = "") (analysed : String) :
    (o.prepare d analysed).2 = none ∧ ∀ k, (o.prepare d analysed).1.node? k = d.node? k := by
  have hmissing : d.exists? o.root = false := by
    rw [hempty]
    rfl
  have hmade : d.makeAll o.root = (d, none) := by
    rw [hempty]
    rfl
  have hplace := newPlace_marker_iff.2 ⟨hstands.markerPath_ok, hstands.walkable, rfl⟩
  have hfree : d.node? (d.target o.root ++ [marker]) ≠ some .directory := by
    simp [hstands.node?_marker]
  have hwrite := Disk.write_of_free (Path.leadsTo_join isName_marker o.root) hplace hfree
    ByteArray.empty
  have hprepare : o.prepare d analysed =
      (d.put (d.target o.root ++ [marker]) (.file ByteArray.empty), none) := by
    unfold prepare create
    simp only [hmissing, hmade, hwrite, Bool.false_eq_true, if_false]
  rw [hprepare]
  refine ⟨rfl, fun k => ?_⟩
  by_cases hk : k = d.target o.root ++ [marker]
  · rw [hk, hstands.node?_marker, Disk.node?_put_self]
    simp
  · exact Disk.node?_put_of_ne hk d _

end

/-! ## What a preparation does -/

theorem stands_of_prepare {o : OutputDir} {d d' : Disk} {analysed : String}
    (h : o.prepare d analysed = (d', none)) : o.Stands d' ∧ d'.here = d.here := by
  rcases exists_create_of_prepare h with ⟨e, hcreate, hbefore⟩
  rcases stands_of_create hcreate with ⟨hstands, hhere⟩
  exact ⟨hstands, hhere.trans (here_of_exists_create hbefore)⟩

theorem isTree_of_prepare {o : OutputDir} {d d' : Disk} {analysed : String} (htree : d.IsTree)
    (h : o.prepare d analysed = (d', none)) : d'.IsTree := by
  rcases exists_create_of_prepare h with ⟨e, hcreate, ⟨-, rfl⟩ | ⟨-, -, hremove⟩⟩
  · exact isTree_of_create htree hcreate
  · exact isTree_of_create ((Disk.cleared_of_removeTree hremove).tree htree) hcreate

/-- When the directory holds the marker and nothing else. -/
theorem prepared_only_marker_iff {o : OutputDir} {d : Disk}
    (hmarker : d.target o.root ++ [marker] ∉ d.way o.root) :
    (∀ k, (d.target o.root).Holds k →
      (o.prepared d k ≠ none ↔ k = d.target o.root ++ [marker])) ↔
      (∀ w ∈ d.way o.root, ¬(d.target o.root).Holds w) ∧
        (d.exists? o.root = true ∨ ∀ k, (d.target o.root).Holds k → d.node? k ≠ none →
          k = d.target o.root ++ [marker]) := by
  constructor
  · intro h
    have hway : ∀ w ∈ d.way o.root, ¬(d.target o.root).Holds w := by
      intro w hw hholds
      have hne : w ≠ d.target o.root ++ [marker] := by
        rintro rfl
        exact hmarker hw
      apply hne
      rw [← h w hholds, prepared, if_neg hne, if_pos hw]
      simp
    refine ⟨hway, Classical.or_iff_not_imp_left.2 fun hmissing k hk hthere => ?_⟩
    by_contra hne
    apply hne
    rw [← h k hk, prepared, if_neg hne, if_neg fun hw => hway k hw hk,
      if_neg fun hboth => hmissing hboth.1]
    exact hthere
  · rintro ⟨hway, hbefore⟩ k hk
    by_cases hne : k = d.target o.root ++ [marker]
    · simp [prepared, hne]
    · rw [prepared, if_neg hne, if_neg fun hw => hway k hw hk]
      split
      · simp [hne]
      · next hoften =>
        have honly := hbefore.resolve_left fun hexists => hoften ⟨hexists, hk.1⟩
        exact ⟨honly k hk, fun heq => absurd heq hne⟩

/-- A disk with notes that are to be kept and sources that are to be analysed. -/
def notesDisk : Disk where
  nodes := [(["keep"], .directory), (["keep", "notes.txt"], .file "mine\n".toUTF8),
    (["sources"], .directory), (["sources", "a.rs"], .file "fn a() \x7b\x7d\n".toUTF8)]

theorem regular_notesDisk : notesDisk.Regular := by
  have hnames : ∀ n ∈ notesDisk.nodes, ∀ name ∈ n.1, Disk.IsFileName name := by
    intro n hn name hname
    have hproper : ∀ m ∈ notesDisk.nodes.map (·.1), ∀ name ∈ m, '/' ∉ name.toList ∧ name ≠ "" ∧
        name ≠ "." ∧ name ≠ ".." ∧ '\x00' ∉ name.toList ∧ byteLength name ≤ 255 := by
      decide +kernel
    rcases hproper n.1 (List.mem_map_of_mem hn) name hname with
      ⟨hslash, hempty, hhere, hup, hnul, hshort⟩
    exact ⟨⟨hslash, hempty, hhere, hup⟩, hnul, hshort⟩
  have habove : ∀ n ∈ notesDisk.nodes, notesDisk.node? n.1.dropLast = some .directory := by
    simp only [notesDisk, List.forall_mem_cons]
    exact ⟨rfl, rfl, rfl, rfl, by simp⟩
  refine ⟨Disk.isTree_of_nodes fun n hn => ⟨habove n hn, hnames n hn⟩, rfl, fun l hl => ?_⟩
  by_cases hroot : l = []
  · rw [hroot]
    decide
  · rcases (Disk.isSome_node?_iff hroot).1 hl with ⟨n, hn, rfl⟩
    have hshort : ∀ m ∈ notesDisk.nodes.map (·.1), byteLength (Location.path m) ≤ 4095 := by
      decide +kernel
    exact hshort n.1 (List.mem_map_of_mem hn)

/-- A preparation refuses exactly what must stay and then changes nothing, and it succeeds exactly if
the directory can be made, or made again. Whatever its outcome, it spares all but the marker, missing
directories of the way and a directory that may be cleared. After a success `prepared` tells what
stands where; when this is the marker alone and when a second preparation succeeds without a change
depends on the path and on what was there. -/
theorem prepare_spares (o : OutputDir) {d : Disk} (hd : d.Regular) {analysed : String}
    {sources : Location} (hsources : d.locate analysed = .ok sources) :
    ((∃ reason, (o.prepare d analysed).2 = some (.refused (.unsafeOutputDir o.root reason))) ↔
        d.exists? o.root = true ∧ MustStay d (d.target o.root) sources) ∧
      ((o.prepare d analysed).2 = none ↔
        (d.exists? o.root = true ∧ ¬MustStay d (d.target o.root) sources ∧ o.Remakeable d) ∨
          (d.exists? o.root = false ∧ o.Makeable d)) ∧
      (∀ e, (o.prepare d analysed).2 = some (.refused e) → (o.prepare d analysed).1 = d) ∧
      (∀ k, (o.prepare d analysed).1.node? k = d.node? k ∨ k = d.target o.root ++ [marker] ∨
        (k ∈ d.way o.root ∧ d.node? k = none) ∨
        (d.exists? o.root = true ∧ ¬MustStay d (d.target o.root) sources ∧
          d.target o.root <+: k)) ∧
      ∀ d', o.prepare d analysed = (d', none) →
        (∀ k, d'.node? k = o.prepared d k) ∧
        ((∀ k, (d.target o.root).Holds k →
          (d'.node? k ≠ none ↔ k = d.target o.root ++ [marker])) ↔
          (∀ w ∈ d.way o.root, ¬(d.target o.root).Holds w) ∧
            (d.exists? o.root = true ∨ ∀ k, (d.target o.root).Holds k → d.node? k ≠ none →
              k = d.target o.root ++ [marker])) ∧
        (d'.locate analysed = .ok sources →
          byteLength (Location.path (d.target o.root ++ [marker])) ≤ 4095 →
          ((o.prepare d' analysed).2 = none ∧
              (∀ k, (o.prepare d' analysed).1.node? k = d'.node? k) ↔
            o.root = "" ∨ o.Repeats d' sources)) := by
  refine ⟨prepare_refused_iff hd hsources, prepare_succeeds_iff hd hsources,
    fun e => prepare_eq_of_refused, node?_prepare_or hd hsources, fun d' h => ?_⟩
  have hnode := node?_prepare h
  rcases stands_of_prepare h with ⟨hstands, hhere⟩
  have htarget := Disk.target_congr hhere o.root
  have hmarker : d.target o.root ++ [marker] ∉ d.way o.root := by
    rw [← htarget, ← Disk.way_congr hhere]
    exact hstands.marker_notMem_way
  refine ⟨hnode, ?_, fun hagain hreach => ?_⟩
  · simp only [hnode]
    exact prepared_only_marker_iff hmarker
  · have htree := isTree_of_prepare hd.toIsTree h
    have hfiles := hd.names sources (hd.isSome_of_locate hsources)
    have hnames : ∀ name ∈ sources, Path.IsName name := fun name hname =>
      (hfiles name hname).toIsName
    rw [← htarget] at hreach
    by_cases hempty : o.root = ""
    · simp only [hempty, true_or, iff_true]
      exact hstands.prepare_of_empty hempty analysed
    · simp only [hempty, false_or]
      exact hstands.prepare_again_iff htree hempty hagain hnames hreach

/-- A directory that is missing with the one above it is made, and nothing changes the next time. -/
theorem prepare_spares_missing :
    (notesDisk.Regular ∧ notesDisk.locate "sources" = .ok ["sources"]) ∧
      ∃ d', (⟨"build/out"⟩ : OutputDir).prepare notesDisk "sources" = (d', none) ∧
        (∀ k, d'.node? k = (⟨"build/out"⟩ : OutputDir).prepared notesDisk k) ∧
        (∀ k, Location.Holds ["build", "out"] k →
          (d'.node? k ≠ none ↔ k = ["build", "out", marker])) ∧
        ((⟨"build/out"⟩ : OutputDir).prepare d' "sources").2 = none ∧
        ∀ k, ((⟨"build/out"⟩ : OutputDir).prepare d' "sources").1.node? k = d'.node? k := by
  have hfree : ∀ k, Location.Holds ["build", "out"] k → notesDisk.node? k ≠ none →
      k = ["build", "out", marker] := by
    intro k hk hthere
    have hnone : ∀ m ∈ notesDisk.nodes.map (·.1), ¬Location.Holds ["build", "out"] m := by
      decide +kernel
    have hroot : k ≠ [] := by
      rintro rfl
      exact absurd hk (by decide)
    rcases (Disk.isSome_node?_iff hroot).1 (Option.ne_none_iff_isSome.1 hthere) with ⟨n, hn, rfl⟩
    exact absurd hk (hnone n.1 (List.mem_map_of_mem hn))
  have hmain := prepare_spares ⟨"build/out"⟩ regular_notesDisk
    (show notesDisk.locate "sources" = .ok ["sources"] from rfl)
  rcases hmain.2.2.2.2 _ rfl with ⟨hnode, honly, hagain⟩
  have hmarker := honly.2 ⟨by decide +kernel, .inr hfree⟩
  refine ⟨⟨regular_notesDisk, rfl⟩, _, rfl, hnode, hmarker, (hagain rfl (by decide)).2 (.inr ?_)⟩
  exact ⟨by decide +kernel, ⟨by decide +kernel, .inr ⟨by decide +kernel, by decide +kernel⟩, rfl⟩,
    fun k hk hthere => .inl ((hmarker k hk).1 hthere)⟩

/-- The directory is not there by a path through a missing directory and back. So it gets its marker
with the notes still in it, and the next preparation may clear it. -/
theorem prepare_marks_notes :
    notesDisk.Regular ∧ notesDisk.locate "sources" = .ok ["sources"] ∧
      ∃ d', (⟨"keep/new/.."⟩ : OutputDir).prepare notesDisk "sources" = (d', none) ∧
        d'.locate "keep/new/.." = .ok ["keep"] ∧ d'.isFile "keep/notes.txt" = true ∧
        ¬MustStay d' ["keep"] ["sources"] := by
  refine ⟨regular_notesDisk, rfl, _, rfl, rfl, rfl, ?_⟩
  rintro (hbelow | hnode | ⟨-, hmarker⟩)
  · exact absurd hbelow (by decide)
  · exact hnode rfl
  · exact hmarker _ rfl

end OutputDir

end LintMend
