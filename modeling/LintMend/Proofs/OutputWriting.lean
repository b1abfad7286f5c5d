import LintMend.Proofs.DiskPlaces
import LintMend.Repair.Output

/-!
# Writing corrected units

A corrected unit and its draft stand side by side in the output directory. Writing either puts the
whole text into the place of the unit and leaves no draft, or it fails and touches nothing but the
draft. Whether it fails does not depend on the text, and a failure makes no later one succeed.
-/

namespace LintMend

namespace ProgramUnit

/-- The name of the draft of a corrected unit. -/
def draftName (u : ProgramUnit) : String := "." ++ u.outputName ++ ".tmp"

theorem slash_notMem_outputName (u : ProgramUnit) : '/' ∉ u.outputName.toList := by
  intro hmem
  simp only [outputName, String.toList_append, String.toList_ofList, List.mem_append] at hmem
  rcases hmem with hmem | hmem
  · have hflat := (List.dropWhile_sublist _).subset hmem
    rcases List.mem_map.1 hflat with ⟨c, -, hc⟩
    split at hc
    · simp at hc
    · rename_i hne
      simp [hc] at hne
  · revert hmem
    decide

theorem length_outputName (u : ProgramUnit) : 4 ≤ u.outputName.toList.length := by
  simp [outputName]

theorem toList_draftName (u : ProgramUnit) :
    u.draftName.toList = '.' :: (u.outputName.toList ++ ['.', 't', 'm', 'p']) := by
  simp [draftName]

theorem isName_of_length {name : String} (hslash : '/' ∉ name.toList)
    (hlength : 4 ≤ name.toList.length) : Path.IsName name where
  slashless := hslash
  ne_empty := by
    rintro rfl
    simp at hlength
  ne_here := by
    rintro rfl
    simp at hlength
  ne_up := by
    rintro rfl
    simp at hlength

theorem isName_outputName (u : ProgramUnit) : Path.IsName u.outputName :=
  isName_of_length u.slash_notMem_outputName u.length_outputName

theorem isName_draftName (u : ProgramUnit) : Path.IsName u.draftName := by
  apply isName_of_length
  · rw [toList_draftName]
    simp [u.slash_notMem_outputName]
  · rw [toList_draftName]
    simp

/-- No draft takes the name of a corrected unit. -/
theorem outputName_ne_draftName (u v : ProgramUnit) : u.outputName ≠ v.draftName := by
  intro heq
  have hlast := congrArg (fun s => s.toList.getLast?) heq
  simp [outputName, toList_draftName, List.getLast?_cons] at hlast

end ProgramUnit

namespace OutputDir

theorem draftPath_eq (o : OutputDir) (u : ProgramUnit) :
    o.draftPath u = Path.join o.root u.draftName := rfl

theorem leadsTo_artifactPath (o : OutputDir) (u : ProgramUnit) :
    Path.LeadsTo (o.artifactPath u) (Path.within o.root) u.outputName :=
  Path.leadsTo_join u.isName_outputName o.root

theorem leadsTo_draftPath (o : OutputDir) (u : ProgramUnit) :
    Path.LeadsTo (o.draftPath u) (Path.within o.root) u.draftName :=
  Path.leadsTo_join u.isName_draftName o.root

/-- On a machine that does what it is told, the draft is written in one step. -/
theorem writeDraft_eq (o : OutputDir) (disk : Disk) (u : ProgramUnit) (content : ByteArray) :
    writeDraft {} disk (o.draftPath u) content =
      match disk.write (o.draftPath u) content with
      | .error e => (disk, some e)
      | .ok written => (written, none) := by
  unfold writeDraft
  cases hmade : disk.write (o.draftPath u) ByteArray.empty with
  | error e => rw [Disk.write_error (o.leadsTo_draftPath u) hmade content]
  | ok made =>
    obtain ⟨l, hplace, hfree, -, hfilled⟩ :=
      Disk.write_of_write (o.leadsTo_draftPath u) hmade content
    rw [Disk.write_of_free (o.leadsTo_draftPath u) hplace hfree content]
    simp only [hfilled]

theorem write_eq (o : OutputDir) (disk : Disk) (u : ProgramUnit) (text : String) :
    o.write disk u text =
      match disk.write (o.draftPath u) text.toUTF8 with
      | .error e => ((disk.removeFile (o.draftPath u)).toOption.getD disk,
          .error (.write (o.artifactPath u) e))
      | .ok written =>
        match written.moveFile (o.draftPath u) (o.artifactPath u) with
        | .ok moved => (moved, .ok (o.artifactPath u))
        | .error e => ((written.removeFile (o.draftPath u)).toOption.getD written,
            .error (.write (o.artifactPath u) e)) := by
  unfold write writeUnder
  simp only [writeDraft_eq, moveDraft, dropDraft]
  cases disk.write (o.draftPath u) text.toUTF8 with
  | error e => rfl
  | ok written =>
    cases hmoved : written.moveFile (o.draftPath u) (o.artifactPath u) <;> simp [hmoved]

/-- A path that is fine for the draft is fine for the corrected unit. -/
theorem pathError?_artifactPath {o : OutputDir} {u : ProgramUnit}
    (h : Disk.pathError? (o.draftPath u) = none) : Disk.pathError? (o.artifactPath u) = none := by
  rcases Path.exists_toList_join o.root with ⟨pre, hjoin⟩
  have hdraft := hjoin u.draftName u.isName_draftName.slashless
  have hartifact := hjoin u.outputName u.isName_outputName.slashless
  rw [← draftPath_eq] at hdraft
  change (o.artifactPath u).toList = _ at hartifact
  rw [ProgramUnit.toList_draftName] at hdraft
  rw [Disk.pathError?_eq_none_iff] at h ⊢
  refine ⟨?_, ?_, ?_⟩
  · intro hempty
    have hlength := u.length_outputName
    rw [hempty, String.toList_empty] at hartifact
    rw [(List.append_eq_nil_iff.1 hartifact.symm).2] at hlength
    simp at hlength
  · intro hnul
    apply h.2.1
    rw [hdraft]
    rw [hartifact] at hnul
    rcases List.mem_append.1 hnul with hpre | hname
    · exact List.mem_append_left _ hpre
    · exact List.mem_append_right _ (List.mem_cons_of_mem _ (List.mem_append_left _ hname))
  · have hlong := h.2.2
    rw [byteLength_eq_bytes, hdraft] at hlong
    rw [byteLength_eq_bytes, hartifact]
    simp only [Text.bytes_append, Text.bytes_cons] at hlong ⊢
    omega

theorem byteLength_outputName_le (u : ProgramUnit) :
    byteLength u.outputName ≤ byteLength u.draftName := by
  rw [byteLength_eq_bytes, byteLength_eq_bytes, ProgramUnit.toList_draftName]
  simp only [Text.bytes_append, Text.bytes_cons]
  omega

/-- The places of the draft and of the corrected unit are in the same directory. -/
theorem exists_places {o : OutputDir} {disk : Disk} {u : ProgramUnit} {l : Location}
    (h : disk.newPlace (o.draftPath u) = .ok l) :
    ∃ directory, l = directory ++ [u.draftName] ∧
      disk.newPlace (o.artifactPath u) = .ok (directory ++ [u.outputName]) := by
  have hstart : disk.startOf (o.artifactPath u) = disk.startOf (o.draftPath u) := by
    unfold Disk.startOf artifactPath
    rw [draftPath_eq, Path.isAbsolute_join u.isName_outputName.slashless,
      Path.isAbsolute_join u.isName_draftName.slashless]
  rw [Disk.newPlace_eq (o.leadsTo_draftPath u)] at h
  rw [Disk.newPlace_eq (o.leadsTo_artifactPath u), hstart]
  cases hpath : Disk.pathError? (o.draftPath u) with
  | some e => simp [hpath] at h
  | none =>
    simp only [hpath] at h
    rw [pathError?_artifactPath hpath]
    cases hfollow : disk.follow (disk.startOf (o.draftPath u)) (Path.within o.root) with
    | error e => simp [hfollow, Except.bind] at h
    | ok directory =>
      simp only [hfollow, Except.bind] at h ⊢
      cases hnode : disk.node? directory with
      | none => simp [hnode] at h
      | some node =>
        cases node with
        | file content => simp [hnode] at h
        | directory =>
          simp only [hnode] at h
          split at h
          · simp at h
          · have hshort := byteLength_outputName_le u
            refine ⟨directory, (Except.ok.inj h).symm, ?_⟩
            rw [if_neg (by omega)]

/-! ## Success and failure -/

/-- The directory has places for the draft and the corrected unit, and the draft can be written. -/
structure Open (o : OutputDir) (disk : Disk) (u : ProgramUnit) (directory : Location) : Prop where
  draft : disk.newPlace (o.draftPath u) = .ok (directory ++ [u.draftName])
  artifact : disk.newPlace (o.artifactPath u) = .ok (directory ++ [u.outputName])
  draft_free : disk.node? (directory ++ [u.draftName]) ≠ some .directory

variable {o : OutputDir} {disk : Disk} {u : ProgramUnit} {directory : Location}

theorem places_ne (u : ProgramUnit) (directory : Location) :
    directory ++ [u.outputName] ≠ directory ++ [u.draftName] := by
  intro heq
  have hnames := List.append_cancel_left heq
  exact u.outputName_ne_draftName u (List.singleton_inj.1 hnames)

/-- A disk that differs in files only has the same places. -/
theorem Open.of_keeps {disk' : Disk} (h : Open o disk u directory) (hkeeps : disk.Keeps disk')
    (hfree : disk'.node? (directory ++ [u.draftName]) ≠ some .directory) :
    Open o disk' u directory where
  draft := Disk.newPlace_of_keeps (o.leadsTo_draftPath u) hkeeps h.draft
  artifact := Disk.newPlace_of_keeps (o.leadsTo_artifactPath u) hkeeps h.artifact
  draft_free := hfree

/-- The disk with the draft written. -/
def drafted (disk : Disk) (u : ProgramUnit) (directory : Location) (content : ByteArray) : Disk :=
  disk.put (directory ++ [u.draftName]) (.file content)

/-- The disk with the text in its place, and no draft. -/
def placed (disk : Disk) (u : ProgramUnit) (directory : Location) (content : ByteArray) : Disk :=
  (disk.put (directory ++ [u.outputName]) (.file content)).erase (directory ++ [u.draftName])

/-- The disk after a successful writing. -/
def finished (disk : Disk) (u : ProgramUnit) (directory : Location) (content : ByteArray) : Disk :=
  placed (drafted disk u directory content) u directory content

theorem node?_drafted (disk : Disk) (u : ProgramUnit) (directory : Location) (content : ByteArray) :
    (drafted disk u directory content).node? (directory ++ [u.draftName]) =
      some (.file content) := by
  unfold drafted
  rw [Disk.node?_put_self (by simp)]

theorem node?_drafted_artifact (disk : Disk) (u : ProgramUnit) (directory : Location)
    (content : ByteArray) :
    (drafted disk u directory content).node? (directory ++ [u.outputName]) =
      disk.node? (directory ++ [u.outputName]) := by
  unfold drafted
  rw [Disk.node?_put_of_ne (places_ne u directory)]

theorem erase_drafted (disk : Disk) (u : ProgramUnit) (directory : Location) (content : ByteArray) :
    (drafted disk u directory content).erase (directory ++ [u.draftName]) =
      disk.erase (directory ++ [u.draftName]) :=
  Disk.erase_put disk _ _

theorem Open.of_drafted (h : Open o disk u directory) (content : ByteArray) :
    Open o (drafted disk u directory content) u directory := by
  have hkeeps : disk.Keeps (drafted disk u directory content) := Disk.keeps_put h.draft_free _
  apply h.of_keeps hkeeps
  rw [node?_drafted]
  simp

theorem Open.write_draft (h : Open o disk u directory) (content : ByteArray) :
    disk.write (o.draftPath u) content = .ok (drafted disk u directory content) :=
  Disk.write_of_free (o.leadsTo_draftPath u) h.draft h.draft_free content

section

variable {content : ByteArray} (h : Open o disk u directory)
  (hdraft : disk.node? (directory ++ [u.draftName]) = some (.file content))
include h hdraft

theorem Open.locate_draft : disk.locate (o.draftPath u) = .ok (directory ++ [u.draftName]) := by
  rw [Disk.locate_eq (o.leadsTo_draftPath u), h.draft]
  simp [Except.bind, hdraft]

/-- A draft can be moved to a place where no directory stands. -/
theorem Open.moveFile_draft (hfree : disk.node? (directory ++ [u.outputName]) ≠ some .directory) :
    disk.moveFile (o.draftPath u) (o.artifactPath u) = .ok (placed disk u directory content) := by
  have hwrite := Disk.write_of_free (o.leadsTo_artifactPath u) h.artifact hfree content
  have hplaced : (disk.put (directory ++ [u.outputName]) (.file content)).newPlace
      (o.artifactPath u) = .ok (directory ++ [u.outputName]) :=
    Disk.newPlace_of_keeps (o.leadsTo_artifactPath u) (Disk.keeps_put hfree _) h.artifact
  have hlocate : (disk.put (directory ++ [u.outputName]) (.file content)).locate
      (o.artifactPath u) = .ok (directory ++ [u.outputName]) := by
    rw [Disk.locate_eq (o.leadsTo_artifactPath u), hplaced]
    simp [Except.bind, Disk.node?_put_self]
  have hne : (directory ++ [u.outputName] == directory ++ [u.draftName]) = false := by
    simpa using u.outputName_ne_draftName u
  unfold Disk.moveFile
  rw [h.locate_draft hdraft]
  simp only [bind, Except.bind, hdraft, hwrite, hlocate, hne]
  rfl

/-- A draft cannot take the place of a directory. -/
theorem Open.moveFile_draft_of_taken
    (htaken : disk.node? (directory ++ [u.outputName]) = some .directory) :
    disk.moveFile (o.draftPath u) (o.artifactPath u) = .error .isDirectory := by
  unfold Disk.moveFile
  rw [h.locate_draft hdraft]
  simp only [bind, Except.bind, hdraft, Disk.write_eq (o.leadsTo_artifactPath u), h.artifact, htaken]

theorem Open.removeFile_draft :
    disk.removeFile (o.draftPath u) = .ok (disk.erase (directory ++ [u.draftName])) := by
  rw [Disk.removeFile_eq (o.leadsTo_draftPath u), h.draft]
  simp only [Except.bind, hdraft]

end

/-- The draft can be moved to a place where no directory stands. -/
theorem moveFile_of_free (h : Open o disk u directory)
    (hfree : disk.node? (directory ++ [u.outputName]) ≠ some .directory) (content : ByteArray) :
    (drafted disk u directory content).moveFile (o.draftPath u) (o.artifactPath u) =
      .ok (finished disk u directory content) := by
  rw [← node?_drafted_artifact disk u directory content] at hfree
  exact (h.of_drafted content).moveFile_draft (node?_drafted disk u directory content) hfree

theorem write_of_free (h : Open o disk u directory)
    (hfree : disk.node? (directory ++ [u.outputName]) ≠ some .directory) (text : String) :
    o.write disk u text = (finished disk u directory text.toUTF8, .ok (o.artifactPath u)) := by
  rw [write_eq]
  simp only [h.write_draft, moveFile_of_free h hfree]

theorem moveFile_of_taken (h : Open o disk u directory)
    (htaken : disk.node? (directory ++ [u.outputName]) = some .directory) (content : ByteArray) :
    (drafted disk u directory content).moveFile (o.draftPath u) (o.artifactPath u) =
      .error .isDirectory := by
  rw [← node?_drafted_artifact disk u directory content] at htaken
  exact (h.of_drafted content).moveFile_draft_of_taken (node?_drafted disk u directory content) htaken

theorem removeFile_drafted (h : Open o disk u directory) (content : ByteArray) :
    (drafted disk u directory content).removeFile (o.draftPath u) =
      .ok (disk.erase (directory ++ [u.draftName])) := by
  rw [(h.of_drafted content).removeFile_draft (node?_drafted disk u directory content), erase_drafted]

/-- Where a directory stands in the place of the unit, the draft is removed again. -/
theorem write_of_taken (h : Open o disk u directory)
    (htaken : disk.node? (directory ++ [u.outputName]) = some .directory) (text : String) :
    o.write disk u text =
      (disk.erase (directory ++ [u.draftName]), .error (.write (o.artifactPath u) .isDirectory)) := by
  rw [write_eq]
  simp only [h.write_draft, moveFile_of_taken h htaken, removeFile_drafted h]
  rfl

/-- Without a place for the draft nothing is touched. -/
theorem write_of_closed (h : ∀ directory, ¬ Open o disk u directory) (text : String) :
    ∃ e, o.write disk u text = (disk, .error e) := by
  cases hplace : disk.newPlace (o.draftPath u) with
  | error e =>
    refine ⟨.write (o.artifactPath u) e, ?_⟩
    rw [write_eq]
    simp only [Disk.write_eq (o.leadsTo_draftPath u), Disk.removeFile_eq (o.leadsTo_draftPath u),
      hplace, Except.bind]
    rfl
  | ok l =>
    rcases exists_places hplace with ⟨directory, rfl, hartifact⟩
    have htaken : disk.node? (directory ++ [u.draftName]) = some .directory := by
      by_contra hfree
      exact h directory ⟨hplace, hartifact, hfree⟩
    refine ⟨.write (o.artifactPath u) .isDirectory, ?_⟩
    rw [write_eq]
    simp only [Disk.write_eq (o.leadsTo_draftPath u), Disk.removeFile_eq (o.leadsTo_draftPath u),
      hplace, Except.bind, htaken]
    rfl

theorem node?_placed (disk : Disk) (u : ProgramUnit) (directory : Location)
    (content : ByteArray) :
    (placed disk u directory content).node? (directory ++ [u.outputName]) =
      some (.file content) := by
  unfold placed
  rw [Disk.node?_erase_of_ne (places_ne u directory), Disk.node?_put_self (by simp)]

theorem keeps_finished (h : Open o disk u directory)
    (hfree : disk.node? (directory ++ [u.outputName]) ≠ some .directory) (content : ByteArray) :
    disk.Keeps (finished disk u directory content) := by
  have hdraft : disk.Keeps (drafted disk u directory content) := Disk.keeps_put h.draft_free _
  rw [← node?_drafted_artifact disk u directory content] at hfree
  have hkept : ((drafted disk u directory content).put (directory ++ [u.outputName])
      (.file content)).node? (directory ++ [u.draftName]) ≠ some .directory := by
    rw [Disk.node?_put_of_ne (places_ne u directory).symm]
    exact (h.of_drafted content).draft_free
  exact (hdraft.trans (Disk.keeps_put hfree _)).trans (Disk.keeps_erase hkept)

theorem Open.of_finished (h : Open o disk u directory)
    (hfree : disk.node? (directory ++ [u.outputName]) ≠ some .directory) (content : ByteArray) :
    Open o (finished disk u directory content) u directory := by
  apply h.of_keeps (keeps_finished h hfree content)
  unfold finished placed
  rw [Disk.node?_erase_self (by simp)]
  simp

theorem read_finished (h : Open o disk u directory)
    (hfree : disk.node? (directory ++ [u.outputName]) ≠ some .directory) (content : ByteArray) :
    (finished disk u directory content).read (o.artifactPath u) = .ok content := by
  have hopen := h.of_finished hfree content
  rw [Disk.read_eq (o.leadsTo_artifactPath u), hopen.artifact]
  simp only [Except.bind, finished, node?_placed]

/-! ## Failures in a row -/

/-- What failed writings leave of a disk: the disk as it was, or the disk without the draft if a
directory is in the way of the unit. -/
def Leftover (o : OutputDir) (disk : Disk) (u : ProgramUnit) (left : Disk) : Prop :=
  left = disk ∨ ∃ directory, Open o disk u directory ∧
    disk.node? (directory ++ [u.outputName]) = some .directory ∧
      left = disk.erase (directory ++ [u.draftName])

/-- Where the text can be written, nothing has failed before. -/
theorem Leftover.eq_of_write {left : Disk} (h : Leftover o disk u left) {text path : String}
    (hwritten : (o.write disk u text).2 = .ok path) : left = disk := by
  rcases h with rfl | ⟨directory, hopen, htaken, rfl⟩
  · rfl
  · rw [write_of_taken hopen htaken] at hwritten
    simp at hwritten

theorem Leftover.write {left : Disk} (h : Leftover o disk u left) {text : String} {e : FixError}
    (hfailed : (o.write disk u text).2 = .error e) :
    ∃ left' e', o.write left u text = (left', .error e') ∧ Leftover o disk u left' := by
  rcases h with rfl | ⟨directory, hopen, htaken, rfl⟩
  · by_cases hopen : ∃ directory, Open o left u directory
    · rcases hopen with ⟨directory, hopen⟩
      by_cases htaken : left.node? (directory ++ [u.outputName]) = some .directory
      · exact ⟨_, _, write_of_taken hopen htaken text, .inr ⟨directory, hopen, htaken, rfl⟩⟩
      · rw [write_of_free hopen htaken] at hfailed
        simp at hfailed
    · rcases write_of_closed (fun directory h => hopen ⟨directory, h⟩) text with ⟨e', he'⟩
      exact ⟨left, e', he', .inl rfl⟩
  · have hleft : Open o (disk.erase (directory ++ [u.draftName])) u directory := by
      apply hopen.of_keeps (Disk.keeps_erase hopen.draft_free)
      rw [Disk.node?_erase_self (by simp)]
      simp
    have htaken' : (disk.erase (directory ++ [u.draftName])).node? (directory ++ [u.outputName]) =
        some .directory := by
      rw [Disk.node?_erase_of_ne (places_ne u directory), htaken]
    refine ⟨_, _, write_of_taken hleft htaken' text, .inr ⟨directory, hopen, htaken, ?_⟩⟩
    rw [Disk.erase_erase]

/-- A text is written only where there is a place for it. -/
theorem exists_open_of_write {text path : String} (h : (o.write disk u text).2 = .ok path) :
    ∃ directory, Open o disk u directory ∧
      disk.node? (directory ++ [u.outputName]) ≠ some .directory := by
  by_cases hopen : ∃ directory, Open o disk u directory
  · rcases hopen with ⟨directory, hopen⟩
    refine ⟨directory, hopen, fun htaken => ?_⟩
    rw [write_of_taken hopen htaken] at h
    simp at h
  · rcases write_of_closed (fun directory h => hopen ⟨directory, h⟩) text with ⟨e, he⟩
    rw [he] at h
    simp at h

/-- A text that is written can be read again. -/
theorem read_of_write {text path : String} (h : (o.write disk u text).2 = .ok path) :
    path = o.artifactPath u ∧ (o.write disk u text).1.read (o.artifactPath u) = .ok text.toUTF8 := by
  rcases exists_open_of_write h with ⟨directory, hopen, hfree⟩
  rw [write_of_free hopen hfree] at h ⊢
  exact ⟨(Except.ok.inj h).symm, read_finished hopen hfree text.toUTF8⟩

/-! ## Successes in a row -/

/-- Any text can be written. -/
def Writable (o : OutputDir) (disk : Disk) (u : ProgramUnit) : Prop :=
  ∀ text, (o.write disk u text).2 = .ok (o.artifactPath u)

theorem writable_of_open (h : Open o disk u directory)
    (hfree : disk.node? (directory ++ [u.outputName]) ≠ some .directory) : o.Writable disk u := by
  intro text
  rw [write_of_free h hfree]

/-- Whether a text can be written does not depend on the text. -/
theorem writable_of_write {text path : String} (h : (o.write disk u text).2 = .ok path) :
    o.Writable disk u := by
  rcases exists_open_of_write h with ⟨directory, hopen, hfree⟩
  exact writable_of_open hopen hfree

/-- Where one text was written, the next one can be. -/
theorem Writable.write (h : o.Writable disk u) (text : String) :
    o.Writable (o.write disk u text).1 u := by
  rcases exists_open_of_write (h text) with ⟨directory, hopen, hfree⟩
  rw [write_of_free hopen hfree]
  apply writable_of_open (hopen.of_finished hfree _)
  rw [finished, node?_placed]
  simp

/-- Only the name of a unit matters for where it is written. -/
theorem artifactPath_congr {v : ProgramUnit} (h : u.outputName = v.outputName) :
    o.artifactPath u = o.artifactPath v := by
  unfold artifactPath
  rw [h]

theorem Writable.congr {v : ProgramUnit} (h : o.Writable disk u) (hname : u.outputName = v.outputName) :
    o.Writable disk v := by
  intro text
  have hdraft : o.draftPath u = o.draftPath v := by
    unfold draftPath
    rw [hname]
  have hwrite : o.write disk u text = o.write disk v text := by
    unfold OutputDir.write OutputDir.writeUnder
    rw [hdraft, artifactPath_congr hname]
  rw [← hwrite, h text, artifactPath_congr hname]

/-- On an empty disk a unit can be written to the root. -/
theorem writable_root {u : ProgramUnit} (hname : u.outputName = "m.fix") :
    OutputDir.Writable ⟨"/"⟩ {} u := by
  have hopen : OutputDir.Open ⟨"/"⟩ {} u [] := by
    constructor
    · unfold OutputDir.draftPath ProgramUnit.draftName
      rw [hname]
      rfl
    · unfold OutputDir.artifactPath
      rw [hname]
      rfl
    · simp [Disk.node?]
  apply OutputDir.writable_of_open hopen
  simp [Disk.node?]

end OutputDir

end LintMend
