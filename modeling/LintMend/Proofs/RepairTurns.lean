import LintMend.Proofs.SharedWriting

/-!
# Repairs in turns

One turn of a repair is one of ten steps. From the steps follow three things about repairs that share
their disk: the list of issues is conserved, a unit without a correction never writes, and a repair
whose names nobody else uses is not disturbed by the turns of others. A repair that is given all turns
does what it does without turns.
-/

namespace LintMend

namespace Engine

variable {e : Engine} {s s' : SharedDisk} {u v : ProgramUnit} {issues : List Issue}
  {writer amount : Nat} {stage stage' : RepairStage}

/-! ## Steps -/

/-- What a turn can do. -/
inductive Step (e : Engine) (writer amount : Nat) (u : ProgramUnit) :
    SharedDisk → RepairStage → SharedDisk → RepairStage → Prop
  | finish {s : SharedDisk} {passed : List Issue} :
    Step e writer amount u s (.trying passed []) s (.ended u { remaining := passed.reverse })
  | pass {s : SharedDisk} {passed rest : List Issue} {i : Issue} (h : e.offer? u i = none) :
    Step e writer amount u s (.trying passed (i :: rest)) s (.trying (i :: passed) rest)
  | create {s s' : SharedDisk} {w : Writing} (h : e.offer? u w.issue = some (w.issue, w.attempt))
    (hcreate : s.create writer (e.output.draftPath u) = .ok s') :
    Step e writer amount u s (.trying w.passed (w.issue :: w.rest)) s' (.filling w 0)
  | refuse {s : SharedDisk} {w : Writing} {err : FileError}
    (h : e.offer? u w.issue = some (w.issue, w.attempt))
    (hcreate : s.create writer (e.output.draftPath u) = .error err) :
    Step e writer amount u s (.trying w.passed (w.issue :: w.rest)) s (.dropping w)
  | fill {s : SharedDisk} {w : Writing} {written : Nat}
    (h : written < w.attempt.text.toUTF8.size) :
    Step e writer amount u s (.filling w written)
      (s.writeAt writer written (w.attempt.text.toUTF8.extract written (written + amount)))
      (.filling w (written + amount))
  | close {s : SharedDisk} {w : Writing} {written : Nat}
    (h : w.attempt.text.toUTF8.size ≤ written) :
    Step e writer amount u s (.filling w written) (s.close writer) (.moving w)
  | move {s s' : SharedDisk} {w : Writing}
    (h : s.move (e.output.draftPath u) (e.output.artifactPath u) = .ok s') :
    Step e writer amount u s (.moving w) s' (e.finish u w)
  | fail {s : SharedDisk} {w : Writing} {err : FileError}
    (h : s.move (e.output.draftPath u) (e.output.artifactPath u) = .error err) :
    Step e writer amount u s (.moving w) s (.dropping w)
  | drop {s : SharedDisk} {w : Writing} :
    Step e writer amount u s (.dropping w) ((s.remove (e.output.draftPath u)).toOption.getD s)
      (.trying (w.issue :: w.passed) w.rest)
  | stay {s : SharedDisk} {changed : ProgramUnit} {repair : Repair} :
    Step e writer amount u s (.ended changed repair) s (.ended changed repair)

theorem tryNext_of_offer {i : Issue} {a : Attempt} (h : e.offer? u i = some (i, a))
    (s : SharedDisk) (writer : Nat) (passed rest : List Issue) :
    e.tryNext s writer u passed (i :: rest) =
      match s.create writer (e.output.draftPath u) with
      | .ok s => .ok (s, .filling ⟨passed, i, a, rest⟩ 0)
      | .error _ => .ok (s, .dropping ⟨passed, i, a, rest⟩) := by
  rcases offer?_eq_some.1 h with ⟨-, hcandidate, hattempt⟩
  rw [tryNext, if_pos (isCandidate_iff.2 hcandidate), hattempt]
  simp only [bind, Except.bind]
  rcases s.create writer (e.output.draftPath u) with err | s' <;> rfl

/-- An issue that is tried is given up, offers nothing, or offers a text. -/
theorem tryNext_cons (e : Engine) (s : SharedDisk) (writer : Nat) (u : ProgramUnit) (i : Issue)
    (passed rest : List Issue) :
    (∃ x, e.GivesUp u i x ∧ e.tryNext s writer u passed (i :: rest) = .error x) ∨
      (e.offer? u i = none ∧
        e.tryNext s writer u passed (i :: rest) = .ok (s, .trying (i :: passed) rest)) ∨
      ∃ a, e.offer? u i = some (i, a) := by
  rw [tryNext]
  by_cases hcandidate : e.isCandidate i = true
  · rw [if_pos hcandidate]
    rcases hattempt : e.strategy.attempt u i with x | err | a
    · exact .inl ⟨x, ⟨isCandidate_iff.1 hcandidate, hattempt⟩, rfl⟩
    · refine .inr (.inl ⟨?_, rfl⟩)
      rw [offer?, if_pos hcandidate, hattempt]
    · exact .inr (.inr ⟨a, offer?_eq_some.2 ⟨rfl, isCandidate_iff.1 hcandidate, hattempt⟩⟩)
  · rw [if_neg hcandidate]
    refine .inr (.inl ⟨?_, rfl⟩)
    rw [offer?, if_neg hcandidate]

theorem step_of_tryNext {passed rest : List Issue}
    (h : e.tryNext s writer u passed rest = .ok (s', stage')) :
    e.Step writer amount u s (.trying passed rest) s' stage' := by
  cases rest with
  | nil =>
    cases h
    exact .finish
  | cons i rest =>
    rcases e.tryNext_cons s writer u i passed rest with
      ⟨x, -, hnext⟩ | ⟨hnone, hnext⟩ | ⟨a, hoffer⟩
    · rw [hnext] at h
      cases h
    · rw [hnext] at h
      cases h
      exact .pass hnone
    · rw [tryNext_of_offer hoffer] at h
      rcases hcreate : s.create writer (e.output.draftPath u) with err | made
      · rw [hcreate] at h
        cases h
        exact .refuse (w := ⟨passed, i, a, rest⟩) hoffer hcreate
      · rw [hcreate] at h
        cases h
        exact .create (w := ⟨passed, i, a, rest⟩) hoffer hcreate

theorem placeDraft_of_moved {w : Writing}
    (h : s.move (e.output.draftPath u) (e.output.artifactPath u) = .ok s') :
    e.placeDraft s u w = (s', e.finish u w) := by
  unfold placeDraft
  rw [h]

theorem placeDraft_of_unmoved {w : Writing} {err : FileError}
    (h : s.move (e.output.draftPath u) (e.output.artifactPath u) = .error err) :
    e.placeDraft s u w = (s, .dropping w) := by
  unfold placeDraft
  rw [h]

theorem step_of_turn (h : e.turn s writer amount u stage = .ok (s', stage')) :
    e.Step writer amount u s stage s' stage' := by
  cases stage with
  | trying passed rest => exact step_of_tryNext h
  | filling w written =>
    unfold turn fillDraft at h
    dsimp only at h
    split at h
    · next hleft =>
      cases h
      exact .fill hleft
    · next hleft =>
      cases h
      exact .close (Nat.le_of_not_lt hleft)
  | moving w =>
    rw [turn] at h
    rcases hmove : s.move (e.output.draftPath u) (e.output.artifactPath u) with err | moved
    · rw [placeDraft_of_unmoved hmove] at h
      cases h
      exact .fail hmove
    · rw [placeDraft_of_moved hmove] at h
      cases h
      exact .move hmove
  | dropping w =>
    rw [turn, discardDraft] at h
    rcases Prod.mk.inj (Except.ok.inj h) with ⟨rfl, rfl⟩
    exact .drop
  | ended changed repair =>
    cases h
    exact .stay

/-- A turn stays within the places of its unit. -/
theorem Step.within (h : e.Step writer amount u s stage s' stage')
    (hown : ∀ l, s.opened writer = some l → u.Owns l) : SharedDisk.Within u writer s s' := by
  cases h with
  | finish => exact .refl u writer s
  | pass _ => exact .refl u writer s
  | create _ hcreate => exact SharedDisk.within_create hcreate
  | refuse _ _ => exact .refl u writer s
  | fill _ => exact SharedDisk.within_writeAt hown _ _
  | close _ => exact SharedDisk.within_close u writer s
  | move hmove => exact SharedDisk.within_move hmove
  | fail _ => exact .refl u writer s
  | drop => exact SharedDisk.within_remove u writer s
  | stay => exact .refl u writer s

/-! ## Conservation -/

end Engine

/-- The writing is about an issue of the list that offers a text. -/
structure Writing.Fits (e : Engine) (u : ProgramUnit) (issues : List Issue) (w : Writing) : Prop where
  issues_eq : w.passed.reverse ++ w.issue :: w.rest = issues
  offer : e.offer? u w.issue = some (w.issue, w.attempt)

/-- The stage is one of a repair of the issues. One that is over has left them alone, or it has taken
one of them out that offers a text. -/
def RepairStage.Fits (e : Engine) (u : ProgramUnit) (issues : List Issue) : RepairStage → Prop
  | .trying passed rest => passed.reverse ++ rest = issues
  | .filling w _ => w.Fits e u issues
  | .moving w => w.Fits e u issues
  | .dropping w => w.Fits e u issues
  | .ended changed repair =>
    changed = u ∧ repair = { remaining := issues } ∨
      ∃ before i after a, issues = before ++ i :: after ∧ e.offer? u i = some (i, a) ∧
        changed = a.unit.getD u ∧
        repair = ⟨before ++ after, some i.markFixed, some (e.output.artifactPath u)⟩

namespace Engine

variable {e : Engine} {s s' : SharedDisk} {u v : ProgramUnit} {issues : List Issue}
  {writer amount : Nat} {stage stage' : RepairStage}

theorem Step.fits (h : e.Step writer amount u s stage s' stage') (hfits : stage.Fits e u issues) :
    stage'.Fits e u issues := by
  cases h with
  | finish =>
    rw [RepairStage.Fits, List.append_nil] at hfits
    exact .inl ⟨rfl, by rw [hfits]⟩
  | pass hnone =>
    rw [RepairStage.Fits, List.reverse_cons, List.append_assoc]
    exact hfits
  | create hoffer _ => exact ⟨hfits, hoffer⟩
  | refuse hoffer _ => exact ⟨hfits, hoffer⟩
  | fill _ => exact hfits
  | close _ => exact hfits
  | move _ => exact .inr ⟨_, _, _, _, hfits.issues_eq.symm, hfits.offer, rfl, rfl⟩
  | fail _ => exact hfits
  | drop =>
    rw [RepairStage.Fits, List.reverse_cons, List.append_assoc]
    exact hfits.issues_eq
  | stay => exact hfits

/-- Nothing is written for a unit without a correction. -/
theorem Step.eq_of_no_correction (h : e.Step writer amount u s stage s' stage')
    (hfits : stage.Fits e u issues) (hnone : e.correction? u issues = none) : s' = s := by
  rw [correction?, List.findSome?_eq_none_iff] at hnone
  have hoffers : ∀ w : Writing, ¬ w.Fits e u issues := by
    intro w hw
    have hmem : w.issue ∈ issues := by
      rw [← hw.issues_eq]
      exact List.mem_append_right _ List.mem_cons_self
    exact Option.some_ne_none _ (hw.offer.symm.trans (hnone _ hmem))
  cases h with
  | finish => rfl
  | pass _ => rfl
  | create hoffer _ => exact absurd ⟨hfits, hoffer⟩ (hoffers _)
  | refuse _ _ => rfl
  | fill _ => exact absurd hfits (hoffers _)
  | close _ => exact absurd hfits (hoffers _)
  | move _ => exact absurd hfits (hoffers _)
  | fail _ => rfl
  | drop => exact absurd hfits (hoffers _)
  | stay => rfl

/-! ## Repairs that are not disturbed -/

/-- The issues that were passed over offer nothing, or nothing can be written for the unit. -/
def Clear (e : Engine) (disk : Disk) (u : ProgramUnit) (passed : List Issue) : Prop :=
  (∀ j ∈ passed, e.offer? u j = none) ∨ ¬ e.output.Writable disk u

theorem Clear.of_altersOnly {d d' : Disk} {passed : List Issue} {places : Location → Prop}
    (h : e.Clear d u passed) (halters : Disk.AltersOnly places d d') : e.Clear d' u passed :=
  h.imp_right fun hclosed hwritable => hclosed (hwritable.of_altersOnly halters.symm)

end Engine

/-- The repair has gone as it would alone. What it has written is in its draft, and once it is over,
the artifact holds the correction if there is one to report. -/
def RepairStage.Undisturbed (e : Engine) (u : ProgramUnit) (issues : List Issue) (writer : Nat)
    (s : SharedDisk) : RepairStage → Prop
  | .trying passed _ => e.Clear s.disk u passed
  | .filling w written => e.Clear s.disk u w.passed ∧ ∃ directory,
      OutputDir.Open e.output s.disk u directory ∧
      s.opened writer = some (directory ++ [u.draftName]) ∧
      s.disk.node? (directory ++ [u.draftName]) =
        some (.file (w.attempt.text.toUTF8.extract 0 written))
  | .moving w => e.Clear s.disk u w.passed ∧ ∃ directory,
      OutputDir.Open e.output s.disk u directory ∧
      s.disk.node? (directory ++ [u.draftName]) = some (.file w.attempt.text.toUTF8)
  | .dropping _ => ¬ e.output.Writable s.disk u
  | .ended changed repair => repair.outputPath = none ∨
      ∃ i a, e.correction? u issues = some (i, a) ∧ changed = a.unit.getD u ∧
        repair.applied = some i.markFixed ∧
        repair.outputPath = some (e.output.artifactPath u) ∧
        s.disk.read (e.output.artifactPath u) = .ok a.text.toUTF8

namespace Engine

variable {e : Engine} {s s' : SharedDisk} {u v : ProgramUnit} {issues : List Issue}
  {writer other amount : Nat} {stage stage' : RepairStage}

/-- A repair of another unit does not disturb. -/
theorem undisturbed_of_within (h : stage.Undisturbed e u issues writer s)
    (hwithin : SharedDisk.Within v other s s') (hwriter : writer ≠ other)
    (hflat : v.flatName ≠ u.flatName) : stage.Undisturbed e u issues writer s' := by
  have hother : ∀ l, u.Owns l → ¬ v.Owns l := fun l hu hv =>
    hflat (ProgramUnit.flatName_eq_of_owns hv hu)
  cases stage with
  | trying passed rest => exact h.of_altersOnly hwithin.disk
  | filling w written =>
    rcases h with ⟨hclear, directory, hopen, hopened, hdraft⟩
    have hdraftPlace := hother _ (u.owns_draft directory)
    refine ⟨hclear.of_altersOnly hwithin.disk, directory, hopen.of_altersOnly hwithin.disk,
      hwithin.others _ _ hwriter hdraftPlace hopened, ?_⟩
    rw [hwithin.disk.node _ hdraftPlace, hdraft]
  | moving w =>
    rcases h with ⟨hclear, directory, hopen, hdraft⟩
    refine ⟨hclear.of_altersOnly hwithin.disk, directory, hopen.of_altersOnly hwithin.disk, ?_⟩
    rw [hwithin.disk.node _ (hother _ (u.owns_draft directory)), hdraft]
  | dropping w => exact fun hwritable => h (hwritable.of_altersOnly hwithin.disk.symm)
  | ended changed repair =>
    refine h.imp_right ?_
    rintro ⟨i, a, hcorrection, hchanged, happlied, hpath, hread⟩
    exact ⟨i, a, hcorrection, hchanged, happlied, hpath,
      OutputDir.read_of_altersOnly hread hwithin.disk hflat⟩

/-- A turn of its own does not disturb a repair either. -/
theorem Step.undisturbed (h : e.Step writer amount u s stage s' stage')
    (hfits : stage.Fits e u issues) (hstage : stage.Undisturbed e u issues writer s) :
    stage'.Undisturbed e u issues writer s' := by
  cases h with
  | finish => exact .inl rfl
  | pass hnone =>
    refine hstage.imp_left fun hpassed => ?_
    exact List.forall_mem_cons.2 ⟨hnone, hpassed⟩
  | create _ hcreate =>
    rcases SharedDisk.exists_open_of_create hcreate with ⟨directory, hopen⟩
    rw [SharedDisk.create_of_open hopen] at hcreate
    obtain rfl := Except.ok.inj hcreate
    refine ⟨hstage.of_altersOnly (hopen.altersOnly_drafted _), directory, hopen.of_drafted _,
      if_pos rfl, ?_⟩
    rw [OutputDir.node?_drafted, ByteArray.extract_same]
  | refuse _ hcreate =>
    intro hwritable
    rcases OutputDir.writable_iff.1 hwritable with ⟨directory, hopen, -⟩
    rw [SharedDisk.create_of_open hopen] at hcreate
    simp at hcreate
  | @fill w written hleft =>
    rcases hstage with ⟨hclear, directory, hopen, hopened, hdraft⟩
    rw [SharedDisk.writeAt_of_drafted hopened hdraft (Nat.le_of_lt hleft)]
    exact ⟨hclear.of_altersOnly (hopen.altersOnly_drafted _), directory, hopen.of_drafted _, hopened,
      OutputDir.node?_drafted _ _ _ _⟩
  | close hdone =>
    rcases hstage with ⟨hclear, directory, hopen, -, hdraft⟩
    rw [SharedDisk.extract_of_size_le hdone] at hdraft
    exact ⟨hclear, directory, hopen, hdraft⟩
  | @move _ w hmove =>
    rcases hstage with ⟨hclear, directory, hopen, hdraft⟩
    have hfree := SharedDisk.free_of_move hmove hopen
    have hnone := hclear.resolve_right (not_not_intro (OutputDir.writable_of_open hopen hfree))
    refine .inr ⟨w.issue, w.attempt, ?_, rfl, rfl, rfl, SharedDisk.read_of_move hmove hopen hdraft⟩
    rw [← hfits.issues_eq]
    exact correction?_append (fun j hj => hnone j (List.mem_reverse.1 hj)) hfits.offer
  | fail hmove =>
    rcases hstage with ⟨-, directory, hopen, hdraft⟩
    by_cases htaken : s.disk.node? (directory ++ [u.outputName]) = some .directory
    · exact hopen.not_writable htaken
    · rw [SharedDisk.move_of_open hopen hdraft htaken] at hmove
      simp at hmove
  | drop =>
    have hwithin : SharedDisk.Within u writer s _ := SharedDisk.within_remove (o := e.output) u writer s
    exact .inr fun hwritable => hstage (hwritable.of_altersOnly hwithin.disk.symm)
  | stay => exact hstage

/-! ## Repairs that are given all turns -/

/-- With turns of its own alone, the repair gets from the one state to the other. -/
def Reaches (e : Engine) (writer : Nat) (u : ProgramUnit) (state state' : SharedDisk × RepairStage) :
    Prop :=
  ∃ amounts : List Nat,
    amounts.foldlM (fun state amount => e.turn state.1 writer amount u state.2) state = .ok state'

theorem Reaches.refl (e : Engine) (writer : Nat) (u : ProgramUnit)
    (state : SharedDisk × RepairStage) : e.Reaches writer u state state :=
  ⟨[], rfl⟩

theorem Reaches.head {state next state' : SharedDisk × RepairStage} (amount : Nat)
    (h : e.turn state.1 writer amount u state.2 = .ok next) (h' : e.Reaches writer u next state') :
    e.Reaches writer u state state' := by
  rcases h' with ⟨amounts, hamounts⟩
  refine ⟨amount :: amounts, ?_⟩
  rw [List.foldlM_cons, h]
  exact hamounts

variable {disk disk' : Disk} {directory : Location} {w : Writing} {state : SharedDisk × RepairStage}

/-- A disk on which one writer has its draft open, or nobody has. -/
def drafting (disk : Disk) (l : Option Location) (writer : Nat) : SharedDisk :=
  ⟨disk, fun n => if n = writer then l else none⟩

theorem drafting_none (disk : Disk) (writer : Nat) : drafting disk none writer = { disk } := by
  simp [drafting]

/-- Where there is a place for the draft, it is made and filled. -/
theorem reaches_of_open (hopen : OutputDir.Open e.output disk u directory)
    (hoffer : e.offer? u w.issue = some (w.issue, w.attempt))
    (h : e.Reaches writer u
      ({ disk := OutputDir.drafted disk u directory w.attempt.text.toUTF8 }, .moving w) state) :
    e.Reaches writer u ({ disk }, .trying w.passed (w.issue :: w.rest)) state := by
  obtain ⟨content, hcontent⟩ : ∃ content, content = w.attempt.text.toUTF8 := ⟨_, rfl⟩
  obtain ⟨l, hl⟩ : ∃ l, l = some (directory ++ [u.draftName]) := ⟨_, rfl⟩
  have hclose : ∀ written, content.size ≤ written → e.Reaches writer u
      (drafting (OutputDir.drafted disk u directory content) l writer, .filling w written) state := by
    intro written hwritten
    refine .head 0 ?_ h
    have hclosed : (drafting (OutputDir.drafted disk u directory content) l writer).close writer =
        { disk := OutputDir.drafted disk u directory content } := by
      rw [← drafting_none _ writer]
      simp only [SharedDisk.close, drafting, SharedDisk.mk.injEq, true_and]
      funext n
      split <;> rfl
    rw [turn, fillDraft, ← hcontent, if_neg (Nat.not_lt.2 hwritten), hclosed]
    rfl
  have hcreate : SharedDisk.create { disk } writer (e.output.draftPath u) =
      .ok (drafting (OutputDir.drafted disk u directory .empty) l writer) := by
    rw [SharedDisk.create_of_open hopen writer, hl]
    rfl
  have hopened : e.turn { disk } writer 0 u (.trying w.passed (w.issue :: w.rest)) =
      .ok (drafting (OutputDir.drafted disk u directory .empty) l writer, .filling w 0) := by
    rw [turn, tryNext_of_offer hoffer, hcreate]
  refine .head 0 hopened ?_
  by_cases hsize : 0 < content.size
  · -- All bytes are written in one turn.
    refine .head content.size ?_ (hclose (0 + content.size) (by omega))
    have hwrite : (drafting (OutputDir.drafted disk u directory .empty) l writer).writeAt writer 0
        (content.extract 0 (0 + content.size)) =
        drafting (OutputDir.drafted disk u directory content) l writer := by
      have hdraft : (OutputDir.drafted disk u directory .empty).node? (directory ++ [u.draftName]) =
          some (.file (content.extract 0 0)) := by
        rw [OutputDir.node?_drafted, ByteArray.extract_same]
      rw [SharedDisk.writeAt_of_drafted ((if_pos rfl).trans hl) hdraft (Nat.zero_le _),
        SharedDisk.extract_of_size_le (Nat.le_add_left _ 0)]
      simp only [drafting, OutputDir.drafted, Disk.put_put]
    rw [turn, fillDraft, ← hcontent, if_pos hsize, hwrite]
    rfl
  · have hempty : content = .empty := by
      rw [← ByteArray.extract_zero_size (b := content), Nat.eq_zero_of_not_pos hsize,
        ByteArray.extract_same]
    rw [← hempty]
    exact hclose 0 (Nat.le_of_not_lt hsize)

theorem repairFrom_of_no_offer {i : Issue} {passed rest : List Issue}
    {result : Disk × ProgramUnit × Repair} (hnone : e.offer? u i = none)
    (h : e.repairFrom u passed disk (i :: rest) = .ok result) :
    e.repairFrom u (i :: passed) disk rest = .ok result := by
  rw [repairFrom] at h
  by_cases hcandidate : e.isCandidate i = true
  · rw [if_pos hcandidate, tryIssue] at h
    rw [offer?, if_pos hcandidate] at hnone
    rcases hattempt : e.strategy.attempt u i with x | err | a
    · rw [hattempt] at h
      cases h
    · rw [hattempt] at h
      exact h
    · rw [hattempt] at hnone
      cases hnone
  · rwa [if_neg hcandidate] at h

theorem repairFrom_of_unwritten {i : Issue} {a : Attempt} {passed rest : List Issue} {left : Disk}
    {err : FixError} (hoffer : e.offer? u i = some (i, a))
    (hwrite : e.output.write disk u a.text = (left, .error err)) :
    e.repairFrom u passed disk (i :: rest) = e.repairFrom u (i :: passed) left rest := by
  rcases offer?_eq_some.1 hoffer with ⟨-, hcandidate, hattempt⟩
  rw [repairFrom, if_pos (isCandidate_iff.2 hcandidate), tryIssue, hattempt]
  simp only [bind, Except.bind, pure, Except.pure, hwrite, Except.map]

theorem reaches_of_taken (hopen : OutputDir.Open e.output disk u directory)
    (htaken : disk.node? (directory ++ [u.outputName]) = some .directory)
    (h : e.Reaches writer u ({ disk := disk.erase (directory ++ [u.draftName]) },
      .trying (w.issue :: w.passed) w.rest) state) :
    e.Reaches writer u
      ({ disk := OutputDir.drafted disk u directory w.attempt.text.toUTF8 }, .moving w) state := by
  obtain ⟨s, hs⟩ : ∃ s : SharedDisk,
      s = { disk := OutputDir.drafted disk u directory w.attempt.text.toUTF8 } := ⟨_, rfl⟩
  have hmove : s.move (e.output.draftPath u) (e.output.artifactPath u) = .error .isDirectory := by
    rw [hs, SharedDisk.move, OutputDir.moveFile_of_taken hopen htaken]
    rfl
  have hremove : s.remove (e.output.draftPath u) =
      .ok { disk := disk.erase (directory ++ [u.draftName]) } := by
    have hlocate := (hopen.of_drafted w.attempt.text.toUTF8).locate_draft
      (OutputDir.node?_drafted disk u directory _)
    rw [hs, SharedDisk.remove, OutputDir.removeFile_drafted hopen]
    simp only [bind, Except.bind, hlocate]
    rfl
  rw [← hs]
  refine .head 0 (congrArg Except.ok (placeDraft_of_unmoved hmove)) (.head 0 rfl ?_)
  rw [discardDraft, hremove]
  exact h

theorem reaches_of_free (hopen : OutputDir.Open e.output disk u directory)
    (hfree : disk.node? (directory ++ [u.outputName]) ≠ some .directory) :
    e.Reaches writer u
      ({ disk := OutputDir.drafted disk u directory w.attempt.text.toUTF8 }, .moving w)
      ({ disk := OutputDir.finished disk u directory w.attempt.text.toUTF8 }, e.finish u w) := by
  rw [← OutputDir.node?_drafted_artifact disk u directory w.attempt.text.toUTF8] at hfree
  have hmove := SharedDisk.move_of_open (s := { disk := OutputDir.drafted disk u directory _ })
    (hopen.of_drafted w.attempt.text.toUTF8)
    (OutputDir.node?_drafted disk u directory w.attempt.text.toUTF8) hfree
  exact .head 0 (congrArg Except.ok (placeDraft_of_moved hmove)) (.refl e writer u _)

theorem reaches_of_closed (hclosed : ∀ directory, ¬ OutputDir.Open e.output disk u directory)
    (hoffer : e.offer? u w.issue = some (w.issue, w.attempt))
    (h : e.Reaches writer u ({ disk }, .trying (w.issue :: w.passed) w.rest) state) :
    e.Reaches writer u ({ disk }, .trying w.passed (w.issue :: w.rest)) state := by
  have hrefused : e.turn { disk } writer 0 u (.trying w.passed (w.issue :: w.rest)) =
      .ok ({ disk }, .dropping w) := by
    rcases hcreate : SharedDisk.create { disk } writer (e.output.draftPath u) with err | made
    · rw [turn, tryNext_of_offer hoffer, hcreate]
    · rcases SharedDisk.exists_open_of_create hcreate with ⟨directory, hdirectory⟩
      exact absurd hdirectory (hclosed directory)
  refine .head 0 hrefused (.head 0 rfl ?_)
  rcases hremove : SharedDisk.remove { disk } (e.output.draftPath u) with err | left
  · rw [discardDraft, hremove]
    exact h
  · rcases SharedDisk.remove_cases hremove with ⟨directory, content, hdirectory, -⟩
    exact absurd hdirectory (hclosed directory)

/-- A repair that is given all turns does what it does without turns. -/
theorem reaches_of_repairFrom (writer : Nat) {changed : ProgramUnit} {repair : Repair}
    {passed : List Issue} (h : e.repairFrom u passed disk issues = .ok (disk', changed, repair)) :
    e.Reaches writer u ({ disk }, .trying passed issues)
      ({ disk := disk' }, .ended changed repair) := by
  induction issues generalizing disk passed with
  | nil =>
    cases h
    exact .head 0 rfl (.refl _ _ _ _)
  | cons i rest ih =>
    rcases e.tryNext_cons { disk } writer u i passed rest with
      ⟨x, hgivesUp, -⟩ | ⟨hnone, hnext⟩ | ⟨a, hoffer⟩
    · rw [repairFrom_of_givesUp hgivesUp] at h
      simp at h
    · exact .head 0 hnext (ih (repairFrom_of_no_offer hnone h))
    · by_cases hopen : ∃ directory, OutputDir.Open e.output disk u directory
      · rcases hopen with ⟨directory, hopen⟩
        refine reaches_of_open (w := ⟨passed, i, a, rest⟩) hopen hoffer ?_
        by_cases htaken : disk.node? (directory ++ [u.outputName]) = some .directory
        · rw [repairFrom_of_unwritten hoffer (OutputDir.write_of_taken hopen htaken _)] at h
          exact reaches_of_taken (w := ⟨passed, i, a, rest⟩) hopen htaken (ih h)
        · have hwritten := OutputDir.write_of_free hopen htaken a.text
          have hsucceeds : e.Succeeds disk u i a := by
            rcases offer?_eq_some.1 hoffer with ⟨-, hcandidate, hattempt⟩
            exact ⟨hcandidate, hattempt, _, by rw [hwritten]⟩
          rw [repairFrom_of_succeeds hsucceeds, hwritten] at h
          simp only [Except.ok.injEq, Prod.mk.injEq] at h
          rcases h with ⟨rfl, rfl, rfl⟩
          exact reaches_of_free (w := ⟨passed, i, a, rest⟩) hopen htaken
      · have hclosed : ∀ directory, ¬ OutputDir.Open e.output disk u directory :=
          fun directory hdirectory => hopen ⟨directory, hdirectory⟩
        rcases OutputDir.write_of_closed hclosed a.text with ⟨err, hwrite⟩
        rw [repairFrom_of_unwritten hoffer hwrite] at h
        exact reaches_of_closed (w := ⟨passed, i, a, rest⟩) hclosed hoffer (ih h)

end Engine

end LintMend
