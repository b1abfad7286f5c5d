import LintMend.Proofs.OutputPreparation
import LintMend.Proofs.OutputWriting

/-!
# Writing when the machine fails

Making the draft, filling it, waiting for the device and moving the draft may each fail, and so may
removing the draft afterwards. Whatever fails, the place of a corrected unit holds either all of the
new text or what it held before, and nothing is touched but this place and that of the draft. Both
are in the output directory itself, whatever the name of the unit is.
-/

namespace LintMend

/-! ## Names in the output directory -/

namespace Path

theorem steps_join {name : String} (h : IsName name) (root : String) :
    steps (join root name) = steps root ++ [.name name] := by
  rw [(leadsTo_join h root).steps_eq, partsOfPieces_within]

theorem head?_splitAtChar_join {name : String} (h : IsName name) (root : String) :
    ((splitAtChar (join root name) '/').head? == some ".") =
      ((splitAtChar root '/').head? == some ".") := by
  rw [splitAtChar_join h.slashless]
  unfold within
  split
  · next hempty =>
    rw [beq_iff_eq.1 hempty]
    simpa [splitAtChar, Text.splitWhen] using h.ne_here
  · split
    · next hslash =>
      rcases endsWithText_slash_iff.1 hslash with ⟨front, hfront⟩
      have hsplit : splitAtChar root '/' = splitAtChar (String.ofList front) '/' ++ [""] :=
        splitAtChar_append_slash (by simp [hfront]) (by simp)
      rw [hsplit, List.dropLast_concat]
      cases hpieces : splitAtChar (String.ofList front) '/' with
      | nil => exact absurd hpieces (splitAtChar_ne_nil _)
      | cons piece pieces => rfl
    · cases hpieces : splitAtChar root '/' with
      | nil => exact absurd hpieces (splitAtChar_ne_nil _)
      | cons piece pieces => rfl

/-- What is joined to a path is one part more. -/
theorem parts_join {name : String} (h : IsName name) (root : String) :
    parts (join root name) = parts root ++ [.name name] := by
  rw [parts_eq, parts_eq, isAbsolute_join h.slashless, head?_splitAtChar_join h, steps_join h]
  split
  · rfl
  · split <;> rfl

end Path

namespace OutputDir

/-- No corrected unit takes the name of the marker. -/
theorem outputName_ne_marker (u : ProgramUnit) : u.outputName ≠ marker := by
  intro heq
  have hlast := congrArg (fun s => s.toList.getLast?) heq
  simp [ProgramUnit.outputName, marker] at hlast

variable {f : Faults} {o : OutputDir} {disk after : Disk} {u : ProgramUnit} {directory : Location}

/-! ## What a failure touches -/

theorem at?_of_newPlace {path name : String} {pieces : List String}
    (hpath : Path.LeadsTo path pieces name) {l : Location} (h : disk.newPlace path = .ok l) :
    disk.at? path = disk.node? l := by
  unfold Disk.at?
  rw [Disk.locate_eq hpath, h]
  cases hnode : disk.node? l with
  | none => simp [Except.bind, hnode]
  | some node => simp [Except.bind, hnode]

/-- What touches only the draft leaves the place of the unit as it was. -/
theorem at?_artifactPath_of_altersOnly
    (h : Disk.AltersOnly (· = directory ++ [u.draftName]) disk after) (hopen : Open o disk u directory) :
    after.at? (o.artifactPath u) = disk.at? (o.artifactPath u) := by
  have hplace := Disk.newPlace_of_keeps (o.leadsTo_artifactPath u) h.keeps
    hopen.artifact
  rw [at?_of_newPlace (o.leadsTo_artifactPath u) hplace,
    at?_of_newPlace (o.leadsTo_artifactPath u) hopen.artifact,
    h.node _ (places_ne u directory)]

/-! ## The steps of writing -/

/-- Every step that is needed for a success does what it is told. -/
structure Faults.Calm (f : Faults) : Prop where
  create : f.create = none
  fill : f.fill = none
  sync : f.sync = none
  move : f.move = none

/-- Writing the draft fails before or after it was made, or the draft is complete. -/
theorem writeDraft_cases (f : Faults) (h : Open o disk u directory) (content : ByteArray) :
    (∃ e, f.create = some e ∧ writeDraft f disk (o.draftPath u) content = (disk, some e)) ∨
      (∃ e arrived, ¬ f.Calm ∧ writeDraft f disk (o.draftPath u) content =
        (drafted disk u directory arrived, some e)) ∨
      f.create = none ∧ f.fill = none ∧ f.sync = none ∧
        writeDraft f disk (o.draftPath u) content = (drafted disk u directory content, none) := by
  have hfilled : ∀ c, (drafted disk u directory ByteArray.empty).write (o.draftPath u) c =
      .ok (drafted disk u directory c) := by
    intro c
    rw [(h.of_drafted ByteArray.empty).write_draft]
    simp only [drafted, Disk.put_put]
  unfold writeDraft
  cases hcreate : f.create with
  | some e => exact .inl ⟨e, rfl, rfl⟩
  | none =>
    simp only [h.write_draft, hfilled, Except.toOption, Option.getD_some]
    cases hfill : f.fill with
    | some fault =>
      refine .inr (.inl ⟨fault.1, fault.2, fun hcalm => ?_, rfl⟩)
      simp [hcalm.fill] at hfill
    | none =>
      cases hsync : f.sync with
      | some e =>
        refine .inr (.inl ⟨e, content, fun hcalm => ?_, rfl⟩)
        simp [hcalm.sync] at hsync
      | none => exact .inr (.inr ⟨trivial, rfl, rfl, rfl⟩)

/-- Removing a draft that was made touches nothing else. -/
theorem altersOnly_dropDraft (f : Faults) (h : Open o disk u directory)
    (hdraft : after = disk ∨ ∃ content, after = drafted disk u directory content) :
    Disk.AltersOnly (· = directory ++ [u.draftName]) disk (dropDraft f after (o.draftPath u)) := by
  unfold dropDraft
  cases f.remove with
  | some e =>
    rcases hdraft with rfl | ⟨content, rfl⟩
    · exact .refl _ _
    · refine .put ?_ (by simp) h.draft_free content
      rfl
  | none =>
    rcases hdraft with rfl | ⟨content, rfl⟩
    · rw [Disk.removeFile_eq (o.leadsTo_draftPath u), h.draft]
      simp only [Except.bind]
      -- An old draft is removed, and where there is none nothing happens.
      cases hnode : after.node? (directory ++ [u.draftName]) with
      | none => exact .refl _ _
      | some node =>
        cases node with
        | directory => exact absurd hnode h.draft_free
        | file content => exact .erase rfl (by simp) h.draft_free
    · simp only [removeFile_drafted h, Except.toOption, Option.getD_some]
      exact .erase rfl (by simp) h.draft_free

/-- Moving a complete draft fails and touches nothing, or the text is in its place. -/
theorem moveDraft_cases (f : Faults) (h : Open o disk u directory) (content : ByteArray) :
    (∃ e, (f.move ≠ none ∨ disk.node? (directory ++ [u.outputName]) = some .directory) ∧
        moveDraft f (drafted disk u directory content) (o.draftPath u) (o.artifactPath u) =
          .error e) ∨
      f.move = none ∧ disk.node? (directory ++ [u.outputName]) ≠ some .directory ∧
        moveDraft f (drafted disk u directory content) (o.draftPath u) (o.artifactPath u) =
          .ok (finished disk u directory content) := by
  unfold moveDraft
  cases hmove : f.move with
  | some e => exact .inl ⟨e, .inl (by simp), rfl⟩
  | none =>
    by_cases htaken : disk.node? (directory ++ [u.outputName]) = some .directory
    · exact .inl ⟨.isDirectory, .inr htaken, moveFile_of_taken h htaken content⟩
    · exact .inr ⟨rfl, htaken, moveFile_of_free h htaken content⟩

/-! ## Writing as a whole -/

/-- Where the directory has places for the unit and its draft, writing fails and touches the draft
at most, or it succeeds as it does when nothing fails. -/
theorem writeUnder_of_open (f : Faults) (h : Open o disk u directory) (text : String) :
    (∃ after e, o.writeUnder f disk u text = (after, .error e) ∧
        Disk.AltersOnly (· = directory ++ [u.draftName]) disk after ∧
        ¬ (f.Calm ∧ disk.node? (directory ++ [u.outputName]) ≠ some .directory)) ∨
      f.Calm ∧ disk.node? (directory ++ [u.outputName]) ≠ some .directory ∧
        o.writeUnder f disk u text =
          (finished disk u directory text.toUTF8, .ok (o.artifactPath u)) := by
  unfold writeUnder
  rcases writeDraft_cases f h text.toUTF8 with
    ⟨e, hcreate, hdraft⟩ | ⟨e, arrived, hfault, hdraft⟩ | ⟨hcreate, hfill, hsync, hdraft⟩
  · refine .inl ⟨_, .write (o.artifactPath u) e, by simp only [hdraft],
      altersOnly_dropDraft f h (.inl rfl), ?_⟩
    rintro ⟨hcalm, -⟩
    simp [hcalm.create] at hcreate
  · exact .inl ⟨_, .write (o.artifactPath u) e, by simp only [hdraft],
      altersOnly_dropDraft f h (.inr ⟨arrived, rfl⟩), fun hcalm => hfault hcalm.1⟩
  · rcases moveDraft_cases f h text.toUTF8 with ⟨e, hfault, hmoved⟩ | ⟨hmove, hfree, hmoved⟩
    · refine .inl ⟨_, .write (o.artifactPath u) e, by simp only [hdraft, hmoved],
        altersOnly_dropDraft f h (.inr ⟨text.toUTF8, rfl⟩), ?_⟩
      rintro ⟨hcalm, hfree⟩
      exact hfault.elim (fun hmove => hmove hcalm.move) hfree
    · exact .inr ⟨⟨hcreate, hfill, hsync, hmove⟩, hfree, by simp only [hdraft, hmoved]⟩

/-- Without a place for the draft nothing is touched. -/
theorem writeUnder_of_closed (f : Faults) (h : ∀ directory, ¬ Open o disk u directory)
    (text : String) : ∃ e, o.writeUnder f disk u text = (disk, .error e) := by
  have hmade : ∃ e, disk.write (o.draftPath u) ByteArray.empty = .error e := by
    cases hwrite : disk.write (o.draftPath u) ByteArray.empty with
    | error e => exact ⟨e, rfl⟩
    | ok made =>
      obtain ⟨l, hplace, hfree, -⟩ :=
        Disk.write_of_write (o.leadsTo_draftPath u) hwrite ByteArray.empty
      obtain ⟨directory, rfl, hartifact⟩ := exists_places hplace
      exact absurd ⟨hplace, hartifact, hfree⟩ (h directory)
  have hremove : ∃ e, disk.removeFile (o.draftPath u) = .error e := by
    rw [Disk.removeFile_eq (o.leadsTo_draftPath u)]
    cases hplace : disk.newPlace (o.draftPath u) with
    | error e => exact ⟨e, rfl⟩
    | ok l =>
      obtain ⟨directory, rfl, hartifact⟩ := exists_places hplace
      have htaken : disk.node? (directory ++ [u.draftName]) = some .directory := by
        by_contra hfree
        exact h directory ⟨hplace, hartifact, hfree⟩
      exact ⟨.isDirectory, by simp only [Except.bind, htaken]⟩
  obtain ⟨e, hmade⟩ := hmade
  obtain ⟨e', hremove⟩ := hremove
  have hdrop : dropDraft f disk (o.draftPath u) = disk := by
    unfold dropDraft
    cases f.remove with
    | some e => rfl
    | none => simp only [hremove, Except.toOption, Option.getD_none]
  cases hcreate : f.create with
  | some fault =>
    exact ⟨.write (o.artifactPath u) fault, by simp only [writeUnder, writeDraft, hcreate, hdrop]⟩
  | none =>
    refine ⟨.write (o.artifactPath u) e, ?_⟩
    simp only [writeUnder, writeDraft, hcreate, hmade, hdrop]

/-- The location is the directory that a path names. The empty path names the one from which
relative paths lead. -/
def Names (disk : Disk) (path : String) (directory : Location) : Prop :=
  if path = "" then directory = disk.here else disk.locate path = .ok directory

/-- A path that can be written to is fine without its name, unless nothing is left of it. -/
theorem pathError?_root (hpath : Disk.pathError? (o.artifactPath u) = none) (hroot : o.root ≠ "") :
    Disk.pathError? o.root = none := by
  have hsub : o.root.toList.Sublist (o.artifactPath u).toList := by
    unfold artifactPath Path.join
    rw [Path.isAbsolute_of_slashless u.slash_notMem_outputName]
    simp only [Bool.false_eq_true, if_false]
    split <;> simp
  rw [Disk.pathError?_eq_none_iff] at hpath ⊢
  refine ⟨hroot, fun hnul => hpath.2.1 (hsub.subset hnul), ?_⟩
  have hbytes := Text.bytes_le_of_sublist hsub
  rw [byteLength_eq_bytes] at hpath ⊢
  omega

/-- The places of a unit are in the directory that the path of the output directory names. -/
theorem Open.names (h : Open o disk u directory) :
    Names disk o.root directory ∧ disk.node? directory = some .directory := by
  have hleads := o.leadsTo_artifactPath u
  obtain ⟨hpath, hwalk, -, htarget⟩ := (Disk.newPlace_eq_ok_iff hleads).1 h.artifact
  have hstart : disk.startOf (o.artifactPath u) = disk.startOf o.root := by
    unfold Disk.startOf artifactPath
    rw [Path.isAbsolute_join u.slash_notMem_outputName]
  have hdirectory : directory = disk.target o.root := by
    rw [Disk.target, hleads.steps_eq, Path.partsOfPieces_within, hstart,
      List.foldl_append] at htarget
    exact (List.append_inj' htarget rfl).1
  rw [Path.partsOfPieces_within, hstart] at hwalk
  refine ⟨?_, by rw [hdirectory]; exact hwalk.last⟩
  unfold Names
  split
  · next hempty =>
    rw [hdirectory, hempty]
    rfl
  · next hroot =>
    rw [hdirectory]
    exact Disk.locate_of_walkable (pathError?_root hpath hroot) hwalk

/-- What came of writing a corrected unit: the disk afterwards and the answer. -/
structure Settles (o : OutputDir) (disk : Disk) (u : ProgramUnit) (text : String)
    (result : Disk × Except FixError String) : Prop where
  /-- After a failure the place of the unit holds what it held before. -/
  failed : ∀ e, result.2 = .error e →
    result.1.at? (o.artifactPath u) = disk.at? (o.artifactPath u)
  /-- After a success the place of the unit holds the text, and there is no draft. -/
  written : ∀ path, result.2 = .ok path → path = o.artifactPath u ∧
    result.1.at? path = some (.file text.toUTF8) ∧ result.1.at? (o.draftPath u) = none
  /-- Only the unit and its draft are touched, and they are in the output directory itself. -/
  contained : result.1.here = disk.here ∧ ∀ l, result.1.node? l ≠ disk.node? l →
    ∃ directory, Names disk o.root directory ∧ disk.node? directory = some .directory ∧
      (l = directory ++ [u.outputName] ∨ l = directory ++ [u.draftName])

theorem settles_of_altersOnly (h : Disk.AltersOnly (· = directory ++ [u.draftName]) disk after)
    (hopen : Open o disk u directory) (text : String) (e : FixError) :
    Settles o disk u text (after, .error e) where
  failed _ _ := at?_artifactPath_of_altersOnly h hopen
  written _ hpath := by simp at hpath
  contained := by
    refine ⟨h.keeps.here_eq, fun l hl => ?_⟩
    have hdraft : l = directory ++ [u.draftName] := by
      by_contra hne
      exact hl (h.node l hne)
    exact ⟨directory, hopen.names.1, hopen.names.2, .inr hdraft⟩

theorem settles_of_finished (hopen : Open o disk u directory)
    (hfree : disk.node? (directory ++ [u.outputName]) ≠ some .directory) (text : String) :
    Settles o disk u text (finished disk u directory text.toUTF8, .ok (o.artifactPath u)) where
  failed _ he := by simp at he
  written path hpath := by
    obtain rfl := Except.ok.inj hpath
    have hafter := hopen.of_finished hfree text.toUTF8
    refine ⟨rfl, ?_, ?_⟩
    · rw [at?_of_newPlace (o.leadsTo_artifactPath u) hafter.artifact, finished, node?_placed]
    · rw [at?_of_newPlace (o.leadsTo_draftPath u) hafter.draft]
      exact Disk.node?_erase_self (by simp) _
  contained := by
    refine ⟨rfl, fun l hl => ⟨directory, hopen.names.1, hopen.names.2, ?_⟩⟩
    by_contra hne
    rw [not_or] at hne
    refine hl ?_
    change (finished disk u directory text.toUTF8).node? l = disk.node? l
    unfold finished placed drafted
    rw [Disk.node?_erase_of_ne hne.2, Disk.node?_put_of_ne hne.1, Disk.node?_put_of_ne hne.2]

theorem settles_writeUnder (f : Faults) (o : OutputDir) (disk : Disk) (u : ProgramUnit)
    (text : String) : Settles o disk u text (o.writeUnder f disk u text) := by
  by_cases hopen : ∃ directory, Open o disk u directory
  · obtain ⟨directory, hopen⟩ := hopen
    rcases writeUnder_of_open f hopen text with ⟨after, e, heq, halters, -⟩ | ⟨-, hfree, heq⟩
    · rw [heq]
      exact settles_of_altersOnly halters hopen text e
    · rw [heq]
      exact settles_of_finished hopen hfree text
  · obtain ⟨e, heq⟩ := writeUnder_of_closed f (fun directory h => hopen ⟨directory, h⟩) text
    rw [heq]
    exact {
      failed := fun _ _ => rfl
      written := fun path hpath => by simp at hpath
      contained := ⟨rfl, fun l hl => absurd rfl hl⟩ }

/-- Writing succeeds exactly if no step fails, the directory has places for the unit and its draft,
and no directory stands in either of them. -/
theorem writeUnder_succeeds_iff (f : Faults) (o : OutputDir) (disk : Disk) (u : ProgramUnit)
    (text : String) :
    (o.writeUnder f disk u text).2 = .ok (o.artifactPath u) ↔
      f.Calm ∧ ∃ directory, Open o disk u directory ∧
        disk.node? (directory ++ [u.outputName]) ≠ some .directory := by
  constructor
  · intro hok
    by_cases hopen : ∃ directory, Open o disk u directory
    · obtain ⟨directory, hopen⟩ := hopen
      rcases writeUnder_of_open f hopen text with ⟨after, e, heq, -⟩ | ⟨hcalm, hfree, -⟩
      · simp [heq] at hok
      · exact ⟨hcalm, directory, hopen, hfree⟩
    · obtain ⟨e, heq⟩ := writeUnder_of_closed f (fun directory h => hopen ⟨directory, h⟩) text
      simp [heq] at hok
  · rintro ⟨hcalm, directory, hopen, hfree⟩
    rcases writeUnder_of_open f hopen text with ⟨after, e, -, -, hfault⟩ | ⟨-, -, heq⟩
    · exact absurd ⟨hcalm, hfree⟩ hfault
    · rw [heq]

/-- Whatever fails and whatever the unit is called, writing it puts the whole text into its place or
leaves the place as it was. The place is in the output directory itself, as is the draft, and no
draft and no marker ever stands there. -/
theorem writeUnder_all_or_nothing (f : Faults) (o : OutputDir) (disk : Disk) (u : ProgramUnit)
    (text : String) :
    Settles o disk u text (o.writeUnder f disk u text) ∧
      ((o.writeUnder f disk u text).2 = .ok (o.artifactPath u) ↔
        f.Calm ∧ ∃ directory, Open o disk u directory ∧
          disk.node? (directory ++ [u.outputName]) ≠ some .directory) ∧
      Path.parts (o.artifactPath u) = Path.parts o.root ++ [.name u.outputName] ∧
      Path.parts (o.draftPath u) = Path.parts o.root ++ [.name u.draftName] ∧
      (∀ v : ProgramUnit, Path.parts (o.artifactPath u) ≠ Path.parts (o.draftPath v)) ∧
      Path.parts (o.artifactPath u) ≠ Path.parts (Path.join o.root marker) := by
  have hartifact := Path.parts_join u.isName_outputName o.root
  have hdraft : ∀ v : ProgramUnit,
      Path.parts (o.draftPath v) = Path.parts o.root ++ [.name v.draftName] :=
    fun v => Path.parts_join v.isName_draftName o.root
  refine ⟨settles_writeUnder f o disk u text, writeUnder_succeeds_iff f o disk u text, hartifact,
    hdraft u, fun v heq => ?_, fun heq => ?_⟩
  · rw [hdraft v] at heq
    have hnames := List.append_cancel_left (hartifact.symm.trans heq)
    exact u.outputName_ne_draftName v (by simpa using hnames)
  · rw [Path.parts_join isName_marker] at heq
    have hnames := List.append_cancel_left (hartifact.symm.trans heq)
    exact outputName_ne_marker u (by simpa using hnames)

end OutputDir

end LintMend
