import LintMend.Proofs.RunArtifacts
import LintMend.Repair.Turns

/-!
# Repairs that share a disk

A repair that goes in turns touches two names only, that of its draft and that of its artifact. As
long as nobody else writes under these names, it goes as if it were alone: the bytes that it has
written are in its draft, the first offer of a text is the one that is written, and what it has moved
to its place stays there. Two repairs that use the same names have no such hold on each other: their
drafts are one file.
-/

namespace LintMend

/-! ## Places of a unit -/

namespace ProgramUnit

variable {u v : ProgramUnit} {l : Location}

/-- The place of a draft or of an artifact of the unit, in whatever directory. -/
def Owns (u : ProgramUnit) (l : Location) : Prop :=
  ∃ directory, l = directory ++ [u.draftName] ∨ l = directory ++ [u.outputName]

theorem owns_draft (u : ProgramUnit) (directory : Location) : u.Owns (directory ++ [u.draftName]) :=
  ⟨directory, .inl rfl⟩

theorem owns_artifact (u : ProgramUnit) (directory : Location) :
    u.Owns (directory ++ [u.outputName]) :=
  ⟨directory, .inr rfl⟩

theorem Owns.ne_nil (h : u.Owns l) : l ≠ [] := by
  rcases h with ⟨directory, rfl | rfl⟩ <;> simp

theorem outputName_eq_of_draftName_eq (h : u.draftName = v.draftName) :
    u.outputName = v.outputName := by
  rw [← String.toList_inj, toList_draftName, toList_draftName, List.cons.injEq,
    List.append_left_inj] at h
  exact String.toList_inj.1 h.2

/-- Units that own the same place have the same flat name. -/
theorem flatName_eq_of_owns (hu : u.Owns l) (hv : v.Owns l) : u.flatName = v.flatName := by
  rw [← outputName_eq_iff]
  rcases hu with ⟨directory, hu⟩
  rcases hv with ⟨directory', hv⟩
  rcases hu with rfl | rfl
  · rcases hv with heq | heq
    · exact outputName_eq_of_draftName_eq (Location.name_eq heq)
    · exact absurd (Location.name_eq heq).symm (v.outputName_ne_draftName u)
  · rcases hv with heq | heq
    · exact absurd (Location.name_eq heq) (u.outputName_ne_draftName v)
    · exact Location.name_eq heq

theorem Owns.congr (h : u.Owns l) (hflat : u.flatName = v.flatName) : v.Owns l := by
  have hname := outputName_eq_iff.2 hflat
  have hdraft : u.draftName = v.draftName := by simp only [draftName, hname]
  rcases h with ⟨directory, rfl | rfl⟩
  · rw [hdraft]
    exact v.owns_draft directory
  · rw [hname]
    exact v.owns_artifact directory

end ProgramUnit

namespace OutputDir

variable {o : OutputDir} {d d' : Disk} {u v : ProgramUnit} {directory : Location}

/-- What can be written depends on the directories only. -/
theorem Open.of_altersOnly {places : Location → Prop} (h : Open o d u directory)
    (halters : Disk.AltersOnly places d d') : Open o d' u directory :=
  h.of_keeps halters.keeps fun htaken => h.draft_free (halters.kept.directory _ htaken)

theorem Open.altersOnly_drafted (h : Open o d u directory) (content : ByteArray) :
    Disk.AltersOnly u.Owns d (drafted d u directory content) :=
  .put (u.owns_draft directory) (by simp) h.draft_free content

theorem writable_iff : o.Writable d u ↔
    ∃ directory, Open o d u directory ∧ d.node? (directory ++ [u.outputName]) ≠ some .directory := by
  constructor
  · intro h
    exact exists_open_of_write (h "")
  · rintro ⟨directory, hopen, hfree⟩
    exact writable_of_open hopen hfree

theorem Writable.of_altersOnly {places : Location → Prop} (h : o.Writable d u)
    (halters : Disk.AltersOnly places d d') : o.Writable d' u := by
  rcases writable_iff.1 h with ⟨directory, hopen, hfree⟩
  exact writable_of_open (hopen.of_altersOnly halters) fun htaken =>
    hfree (halters.kept.directory _ htaken)

/-- The directory of a unit is the same for its draft and its artifact, and there is only one. -/
theorem Open.not_writable (h : Open o d u directory)
    (htaken : d.node? (directory ++ [u.outputName]) = some .directory) : ¬ o.Writable d u := by
  intro hwritable
  rcases writable_iff.1 hwritable with ⟨directory', hopen, hfree⟩
  have hplace : directory ++ [u.outputName] = directory' ++ [u.outputName] :=
    Except.ok.inj (h.artifact.symm.trans hopen.artifact)
  exact hfree (hplace ▸ htaken)

/-- What a unit has written is read as before if others write elsewhere. -/
theorem read_of_altersOnly {content : ByteArray} (hread : d.read (o.artifactPath u) = .ok content)
    (halters : Disk.AltersOnly v.Owns d d') (hflat : v.flatName ≠ u.flatName) :
    d'.read (o.artifactPath u) = .ok content := by
  refine halters.read (fun directory howns => ?_) hread
  exact hflat (ProgramUnit.flatName_eq_of_owns howns (u.owns_artifact directory))

end OutputDir

/-! ## Operations on a shared disk -/

namespace SharedDisk

variable {o : OutputDir} {s s' : SharedDisk} {u v : ProgramUnit} {directory : Location}
  {writer : Nat} {content : ByteArray}

theorem extract_of_size_le {n : Nat} (h : content.size ≤ n) : content.extract 0 n = content := by
  apply ByteArray.ext
  rw [ByteArray.data_extract]
  exact Array.extract_eq_self_of_le h

/-- Bytes that follow on those that are there make a longer part of the same content. -/
theorem overwrite_extract {n : Nat} (h : n ≤ content.size) (m : Nat) :
    overwrite (content.extract 0 n) n (content.extract n (n + m)) = content.extract 0 (n + m) := by
  have hsize : (content.extract 0 n).size = n := by
    rw [ByteArray.size_extract]
    omega
  have hfront : (content.extract 0 n).extract 0 n = content.extract 0 n :=
    extract_of_size_le (Nat.le_of_eq hsize)
  have hback : (content.extract 0 n).extract (n + (content.extract n (n + m)).size) n = .empty := by
    rw [ByteArray.extract_eq_empty_iff]
    omega
  have hgap : (⟨Array.replicate (n - n) 0⟩ : ByteArray) = .empty := by
    rw [Nat.sub_self]
    rfl
  calc overwrite (content.extract 0 n) n (content.extract n (n + m))
      = content.extract 0 n ++ .empty ++ content.extract n (n + m) ++ .empty := by
        rw [overwrite, hsize, hfront, hback, hgap]
    _ = content.extract 0 n ++ content.extract n (n + m) := by
        rw [ByteArray.append_empty, ByteArray.append_empty]
    _ = content.extract 0 (n + m) := by
        rw [ByteArray.extract_append_extract, Nat.zero_min, Nat.max_eq_right (Nat.le_add_right n m)]

/-- A writer whose draft holds the first part of a content writes the next part to it. -/
theorem writeAt_of_drafted {n : Nat} (hopened : s.opened writer = some (directory ++ [u.draftName]))
    (hdraft : s.disk.node? (directory ++ [u.draftName]) = some (.file (content.extract 0 n)))
    (hn : n ≤ content.size) (m : Nat) :
    s.writeAt writer n (content.extract n (n + m)) =
      ⟨OutputDir.drafted s.disk u directory (content.extract 0 (n + m)), s.opened⟩ := by
  unfold writeAt
  rw [hopened]
  simp only [hdraft, overwrite_extract hn]
  rfl

theorem create_of_open (h : OutputDir.Open o s.disk u directory) (writer : Nat) :
    s.create writer (o.draftPath u) =
      .ok ⟨OutputDir.drafted s.disk u directory .empty, fun w =>
        if w = writer then some (directory ++ [u.draftName]) else s.opened w⟩ := by
  have hlocate := (h.of_drafted .empty).locate_draft (OutputDir.node?_drafted s.disk u directory _)
  unfold create
  rw [h.write_draft]
  simp only [bind, Except.bind, hlocate]
  rfl

theorem exists_open_of_create (h : s.create writer (o.draftPath u) = .ok s') :
    ∃ directory, OutputDir.Open o s.disk u directory := by
  unfold create at h
  cases hwrite : s.disk.write (o.draftPath u) .empty with
  | error err => simp [hwrite, bind, Except.bind] at h
  | ok written =>
    rcases Disk.write_of_write (o.leadsTo_draftPath u) hwrite .empty with ⟨l, hplace, hfree, -⟩
    rcases OutputDir.exists_places hplace with ⟨directory, rfl, hartifact⟩
    exact ⟨directory, hplace, hartifact, hfree⟩

/-- Where a file stands at the place of the draft, it can be opened again. -/
theorem exists_open_of_locate {l : Location} (h : s.disk.locate (o.draftPath u) = .ok l)
    (hfile : s.disk.node? l = some (.file content)) :
    ∃ directory, OutputDir.Open o s.disk u directory ∧ l = directory ++ [u.draftName] := by
  rw [Disk.locate_eq (o.leadsTo_draftPath u)] at h
  cases hplace : s.disk.newPlace (o.draftPath u) with
  | error err => simp [hplace, Except.bind] at h
  | ok place =>
    rcases OutputDir.exists_places hplace with ⟨directory, rfl, hartifact⟩
    simp only [hplace, Except.bind] at h
    split at h
    · obtain rfl : directory ++ [u.draftName] = l := Except.ok.inj h
      exact ⟨directory, ⟨hplace, hartifact, by simp [hfile]⟩, rfl⟩
    · simp at h

/-- Where the open files are after a draft has been moved. -/
def movedPlace (u : ProgramUnit) (directory place : Location) : Option Location :=
  if place == directory ++ [u.draftName] then some (directory ++ [u.outputName])
  else if place == directory ++ [u.outputName] then none else some place

theorem move_of_open (h : OutputDir.Open o s.disk u directory)
    (hdraft : s.disk.node? (directory ++ [u.draftName]) = some (.file content))
    (hfree : s.disk.node? (directory ++ [u.outputName]) ≠ some .directory) :
    s.move (o.draftPath u) (o.artifactPath u) =
      .ok ⟨OutputDir.placed s.disk u directory content, fun w =>
        (s.opened w).bind (movedPlace u directory)⟩ := by
  have halters := OutputDir.altersOnly_moved (u.owns_draft directory) (u.owns_artifact directory) h
    hfree content
  have hlocate : (OutputDir.placed s.disk u directory content).locate (o.artifactPath u) =
      .ok (directory ++ [u.outputName]) := by
    rw [Disk.locate_eq (o.leadsTo_artifactPath u), (h.of_altersOnly halters).artifact]
    simp [Except.bind, OutputDir.placed, Disk.node?_erase_of_ne (OutputDir.places_ne u directory),
      Disk.node?_put_self]
  unfold move
  rw [h.moveFile_draft hdraft hfree]
  simp only [bind, Except.bind, h.locate_draft hdraft, hlocate]
  rfl

theorem move_cases (h : s.move (o.draftPath u) (o.artifactPath u) = .ok s') :
    ∃ directory content, OutputDir.Open o s.disk u directory ∧
      s.disk.node? (directory ++ [u.draftName]) = some (.file content) ∧
      s.disk.node? (directory ++ [u.outputName]) ≠ some .directory ∧
      s' = ⟨OutputDir.placed s.disk u directory content, fun w =>
        (s.opened w).bind (movedPlace u directory)⟩ := by
  have hmoved : ∃ d, s.disk.moveFile (o.draftPath u) (o.artifactPath u) = .ok d := by
    unfold move at h
    rcases hmove : s.disk.moveFile (o.draftPath u) (o.artifactPath u) with err | d
    · simp [hmove, bind, Except.bind] at h
    · exact ⟨d, rfl⟩
  rcases hmoved with ⟨d, hd⟩
  have hfile : ∃ l content, s.disk.locate (o.draftPath u) = .ok l ∧
      s.disk.node? l = some (.file content) := by
    unfold Disk.moveFile at hd
    rcases hlocate : s.disk.locate (o.draftPath u) with err | l
    · simp [hlocate, bind, Except.bind] at hd
    · rcases hnode : s.disk.node? l with _ | _ | content
      · simp [hlocate, hnode, bind, Except.bind] at hd
      · simp [hlocate, hnode, bind, Except.bind] at hd
      · exact ⟨l, content, rfl, hnode⟩
  rcases hfile with ⟨l, content, hlocate, hnode⟩
  rcases exists_open_of_locate hlocate hnode with ⟨directory, hopen, rfl⟩
  have hfree : s.disk.node? (directory ++ [u.outputName]) ≠ some .directory := by
    intro htaken
    rw [hopen.moveFile_draft_of_taken hnode htaken] at hd
    simp at hd
  rw [move_of_open hopen hnode hfree] at h
  exact ⟨directory, content, hopen, hnode, hfree, (Except.ok.inj h).symm⟩

theorem free_of_move (h : s.move (o.draftPath u) (o.artifactPath u) = .ok s')
    (hopen : OutputDir.Open o s.disk u directory) :
    s.disk.node? (directory ++ [u.outputName]) ≠ some .directory := by
  rcases move_cases h with ⟨directory', content, hopen', -, hfree, -⟩
  intro htaken
  exact hopen.not_writable htaken (OutputDir.writable_of_open hopen' hfree)

/-- The draft is what is read at the place to which it was moved. -/
theorem read_of_move (h : s.move (o.draftPath u) (o.artifactPath u) = .ok s')
    (hopen : OutputDir.Open o s.disk u directory)
    (hdraft : s.disk.node? (directory ++ [u.draftName]) = some (.file content)) :
    s'.disk.read (o.artifactPath u) = .ok content := by
  have hfree := free_of_move h hopen
  have halters := OutputDir.altersOnly_moved (u.owns_draft directory) (u.owns_artifact directory)
    hopen hfree content
  rw [move_of_open hopen hdraft hfree] at h
  obtain rfl := Except.ok.inj h
  rw [Disk.read_eq (o.leadsTo_artifactPath u), (hopen.of_altersOnly halters).artifact]
  simp only [Except.bind, OutputDir.node?_placed]

theorem remove_cases (h : s.remove (o.draftPath u) = .ok s') :
    ∃ directory content, OutputDir.Open o s.disk u directory ∧
      s.disk.node? (directory ++ [u.draftName]) = some (.file content) ∧
      s' = ⟨s.disk.erase (directory ++ [u.draftName]), fun w =>
        (s.opened w).filter (· != directory ++ [u.draftName])⟩ := by
  unfold remove at h
  rcases hlocate : s.disk.locate (o.draftPath u) with err | l
  · simp [Disk.removeFile, hlocate, bind, Except.bind] at h
  · rcases hnode : s.disk.node? l with _ | _ | content
    · simp [Disk.removeFile, hlocate, hnode, bind, Except.bind] at h
    · simp [Disk.removeFile, hlocate, hnode, bind, Except.bind] at h
    · rcases exists_open_of_locate hlocate hnode with ⟨directory, hopen, rfl⟩
      rw [hopen.removeFile_draft hnode] at h
      simp only [bind, Except.bind, hlocate, pure, Except.pure, Except.ok.injEq] at h
      exact ⟨directory, content, hopen, hnode, h.symm⟩

/-! ## What a repair leaves to others -/

/-- What a writer may do for a unit. It alters places of the unit only. Its own file is at such a
place, and the open files of others move from such a place to another one or stay where they are. -/
structure Within (u : ProgramUnit) (writer : Nat) (s s' : SharedDisk) : Prop where
  disk : Disk.AltersOnly u.Owns s.disk s'.disk
  opened : ∀ w l, s'.opened w = some l → s.opened w = some l ∨
    u.Owns l ∧ (w = writer ∨ ∃ place, u.Owns place ∧ s.opened w = some place)
  others : ∀ w l, w ≠ writer → ¬ u.Owns l → s.opened w = some l → s'.opened w = some l

theorem Within.refl (u : ProgramUnit) (writer : Nat) (s : SharedDisk) : Within u writer s s :=
  ⟨.refl _ _, fun _ _ h => .inl h, fun _ _ _ _ h => h⟩

theorem within_create (h : s.create writer (o.draftPath u) = .ok s') : Within u writer s s' := by
  rcases exists_open_of_create h with ⟨directory, hopen⟩
  rw [create_of_open hopen] at h
  obtain rfl := Except.ok.inj h
  refine ⟨hopen.altersOnly_drafted _, fun w l hl => ?_, fun w l hw _ hl => ?_⟩
  · dsimp only at hl
    split at hl
    · next hw =>
      obtain rfl := Option.some.inj hl
      exact .inr ⟨u.owns_draft directory, .inl hw⟩
    · exact .inl hl
  · dsimp only
    rw [if_neg hw]
    exact hl

theorem within_writeAt (h : ∀ l, s.opened writer = some l → u.Owns l) (offset : Nat)
    (bytes : ByteArray) : Within u writer s (s.writeAt writer offset bytes) := by
  unfold writeAt
  split
  · exact .refl u writer s
  · next l hl =>
    split
    · next content hnode =>
      refine ⟨.put (h l hl) (h l hl).ne_nil (by simp [hnode]) _, fun _ _ h => .inl h,
        fun _ _ _ _ h => h⟩
    · exact .refl u writer s

theorem within_close (u : ProgramUnit) (writer : Nat) (s : SharedDisk) :
    Within u writer s (s.close writer) := by
  refine ⟨.refl _ _, fun w l hl => ?_, fun w l hw _ hl => ?_⟩
  · unfold close at hl
    dsimp only at hl
    split at hl
    · simp at hl
    · exact .inl hl
  · unfold close
    dsimp only
    rw [if_neg hw]
    exact hl

theorem within_move (h : s.move (o.draftPath u) (o.artifactPath u) = .ok s') :
    Within u writer s s' := by
  rcases move_cases h with ⟨directory, content, hopen, hdraft, hfree, rfl⟩
  refine ⟨?_, fun w l hl => ?_, fun w l _ howns hl => ?_⟩
  · exact OutputDir.altersOnly_moved (u.owns_draft directory) (u.owns_artifact directory) hopen hfree _
  · rcases Option.bind_eq_some_iff.1 hl with ⟨place, hplace, hmoved⟩
    unfold movedPlace at hmoved
    split at hmoved
    · next hdraftPlace =>
      obtain rfl := Option.some.inj hmoved
      rw [beq_iff_eq.1 hdraftPlace] at hplace
      exact .inr ⟨u.owns_artifact directory, .inr ⟨_, u.owns_draft directory, hplace⟩⟩
    · split at hmoved
      · simp at hmoved
      · obtain rfl := Option.some.inj hmoved
        exact .inl hplace
  · have hdraftPlace : l ≠ directory ++ [u.draftName] := fun heq => howns ⟨directory, .inl heq⟩
    have hartifactPlace : l ≠ directory ++ [u.outputName] := fun heq => howns ⟨directory, .inr heq⟩
    simp [hl, movedPlace, hdraftPlace, hartifactPlace]

theorem within_remove (u : ProgramUnit) (writer : Nat) (s : SharedDisk) :
    Within u writer s ((s.remove (o.draftPath u)).toOption.getD s) := by
  rcases hremove : s.remove (o.draftPath u) with err | s'
  · exact .refl u writer s
  · rcases remove_cases hremove with ⟨directory, content, hopen, hdraft, rfl⟩
    refine ⟨.erase (u.owns_draft directory) (by simp) hopen.draft_free, fun w l hl => ?_,
      fun w l _ howns hl => ?_⟩
    · exact .inl (Option.filter_eq_some_iff.1 hl).1
    · have hplace : l ≠ directory ++ [u.draftName] := fun heq => howns ⟨directory, .inl heq⟩
      exact Option.filter_eq_some_iff.2 ⟨hl, by simpa using hplace⟩

end SharedDisk

end LintMend
