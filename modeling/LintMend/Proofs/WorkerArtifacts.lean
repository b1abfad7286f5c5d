import LintMend.Analysis.Workers
import LintMend.Proofs.RepairTurns
import Mathlib.Logic.Relation

/-!
# Artifacts of runs with several workers

The tasks of a run share the output directory, and nothing keeps one of them from writing while
another one does. Whatever the turns are, the artifact of a unit holds its correction if no other unit
is corrected under the same flat name. Units with one flat name have one draft, too: there the artifact
may hold what the other unit wrote even if only one fix is reported. Nothing is assumed about the
turns. A run with one worker is one of the lists of turns.
-/

namespace LintMend

/-- The task has been loaded and its repair has come to the stage. -/
def LoadedAt (tasks : List (String × Task)) (k : Nat) (u : ProgramUnit) (stage : RepairStage) : Prop :=
  ∃ file, tasks[k]? = some (file, .loaded u stage)

section LoadedAt

variable {tasks : List (String × Task)} {j k : Nat} {u v : ProgramUnit} {stage stage' : RepairStage}
  {x y : String × Task}

theorem LoadedAt.unique (h : LoadedAt tasks k u stage) (h' : LoadedAt tasks k v stage') : u = v := by
  rcases h with ⟨file, h⟩
  rcases h' with ⟨file', h'⟩
  rw [h] at h'
  simp only [Option.some.injEq, Prod.mk.injEq, Task.loaded.injEq] at h'
  exact h'.2.1

theorem loadedAt_set (h : tasks[k]? = some x) :
    LoadedAt (tasks.set k y) j u stage ↔
      j = k ∧ y.2 = .loaded u stage ∨ j ≠ k ∧ LoadedAt tasks j u stage := by
  rcases y with ⟨file, task⟩
  by_cases hj : j = k
  · subst hj
    have hlt := (List.getElem?_eq_some_iff.1 h).1
    simp only [LoadedAt, List.getElem?_set_self hlt, Option.some.injEq, Prod.mk.injEq, true_and,
      ne_eq, not_true_eq_false, false_and, or_false]
    exact ⟨fun ⟨_, _, heq⟩ => heq, fun heq => ⟨file, rfl, heq⟩⟩
  · simp only [LoadedAt, List.getElem?_set_ne (Ne.symm hj), hj, false_and, ne_eq, not_false_eq_true,
      true_and, false_or]

end LoadedAt

namespace Run

variable {r : Run} {e : Engine} {start : String} {p p' : Pool} {j k : Nat}

/-! ## Steps -/

/-- What a turn of a task can do to a pool: nothing happens but that its unit may be loaded, or its
repair takes a step. -/
inductive Step (r : Run) (e : Engine) (k : Nat) (p p' : Pool) : Prop
  | quiet (hshared : p'.shared = p.shared)
    (hkept : ∀ j u stage, LoadedAt p.tasks j u stage → LoadedAt p'.tasks j u stage)
    (hloaded : ∀ j u stage, LoadedAt p'.tasks j u stage → LoadedAt p.tasks j u stage ∨
      stage = .trying [] (r.check u).issues)
  | go {file : String} {u : ProgramUnit} {amount : Nat} {stage stage' : RepairStage}
    (h : p.tasks[k]? = some (file, .loaded u stage))
    (hstep : e.Step k amount u p.shared stage p'.shared stage')
    (htasks : p'.tasks = p.tasks.set k (file, .loaded u stage'))

theorem Step.stay (r : Run) (e : Engine) (k : Nat) (p : Pool) : r.Step e k p p :=
  .quiet rfl (fun _ _ _ h => h) fun _ _ _ h => .inl h

/-- A task that was waiting is loaded, or it fails. -/
theorem step_of_waiting {s : SharedDisk} {tasks : List (String × Task)} {file : String} {task : Task}
    (h : tasks[k]? = some (file, .waiting))
    (htask : ∀ u stage, task = .loaded u stage → stage = .trying [] (r.check u).issues) :
    r.Step e k ⟨s, tasks⟩ ⟨s, tasks.set k (file, task)⟩ := by
  refine .quiet rfl (fun j u stage hloaded => (loadedAt_set h).2 (.inr ⟨?_, hloaded⟩))
    fun j u stage hloaded => ?_
  · rintro rfl
    rcases hloaded with ⟨file', hloaded⟩
    simp [h] at hloaded
  · rcases (loadedAt_set h).1 hloaded with ⟨-, heq⟩ | ⟨-, hbefore⟩
    · exact .inr (htask u stage heq)
    · exact .inl hbefore

theorem step_of_turn (he : r.engine = some e) {t : Turn} (h : r.turn start p t = .ok p') :
    r.Step e t.task p p' := by
  rcases p with ⟨s, tasks⟩
  unfold turn at h
  rcases htask : tasks[t.task]? with - | ⟨file, task⟩
  · simp only [htask] at h
    cases h
    exact .stay _ _ _ _
  · simp only [htask] at h
    rcases Outcome.exists_of_bind_eq_ok h with ⟨⟨s', task'⟩, hresume, hreturn⟩
    cases hreturn
    cases task with
    | waiting =>
      unfold resume at hresume
      rcases hload : Frontend.load s.disk (Walk.unitName s.disk start file) file with err | u
      · simp only [hload] at hresume
        cases hresume
        exact step_of_waiting htask (by simp)
      · simp only [hload, he, Option.isSome_some, if_true] at hresume
        cases hresume
        refine step_of_waiting htask fun v stage heq => ?_
        cases heq
        rfl
    | failed err =>
      cases hresume
      rcases List.getElem?_eq_some_iff.1 htask with ⟨hlt, hget⟩
      rw [← hget, List.set_getElem_self]
      exact .stay _ _ _ _
    | loaded u stage =>
      unfold resume at hresume
      simp only [he] at hresume
      rcases Outcome.exists_of_bind_eq_ok hresume with ⟨⟨s'', stage'⟩, hturn, hreturn⟩
      cases hreturn
      exact .go htask (Engine.step_of_turn hturn) rfl

/-- Turns of any tasks, one after the other. -/
def Steps (r : Run) (e : Engine) : Pool → Pool → Prop :=
  Relation.ReflTransGen fun p p' => ∃ k, r.Step e k p p'

theorem steps_of_turns (he : r.engine = some e) {ts : List Turn} (h : r.turns start p ts = .ok p') :
    r.Steps e p p' := by
  induction ts generalizing p with
  | nil =>
    cases h
    exact .refl
  | cons t ts ih =>
    rw [turns, List.foldlM_cons] at h
    rcases Outcome.exists_of_bind_eq_ok h with ⟨next, hturn, hrest⟩
    exact .head ⟨t.task, step_of_turn he hturn⟩ (ih hrest)

/-! ## What all turns keep -/

/-- Every repair is one of the issues of its unit, and whoever has a file open has loaded the unit to
which the place of the file belongs. -/
structure Sound (r : Run) (e : Engine) (p : Pool) : Prop where
  fits : ∀ k u stage, LoadedAt p.tasks k u stage → stage.Fits e u (r.check u).issues
  owned : ∀ k l, p.shared.opened k = some l → ∃ u stage, LoadedAt p.tasks k u stage ∧ u.Owns l

theorem sound_ofFiles (r : Run) (e : Engine) (disk : Disk) (files : List String) :
    r.Sound e (.ofFiles disk files) := by
  refine ⟨?_, fun k l hl => ?_⟩
  · rintro k u stage ⟨file, htask⟩
    simp [Pool.ofFiles] at htask
  · simp [Pool.ofFiles] at hl

/-- The open file of a task is at a place of its unit. -/
theorem Sound.owns (h : r.Sound e p) {u : ProgramUnit} {stage : RepairStage}
    (hloaded : LoadedAt p.tasks k u stage) : ∀ l, p.shared.opened k = some l → u.Owns l := by
  intro l hl
  rcases h.owned k l hl with ⟨v, _, hv, howns⟩
  obtain rfl := hloaded.unique hv
  exact howns

/-- A unit that is loaded stays the unit of its task. -/
theorem Step.kept (h : r.Step e k p p') {u : ProgramUnit} {stage : RepairStage}
    (hloaded : LoadedAt p.tasks j u stage) : ∃ stage', LoadedAt p'.tasks j u stage' := by
  cases h with
  | quiet _ hkept _ => exact ⟨stage, hkept j u stage hloaded⟩
  | @go _ _ _ _ stage' htask _ htasks =>
    rw [htasks]
    by_cases hj : j = k
    · subst hj
      obtain rfl := hloaded.unique ⟨_, htask⟩
      exact ⟨stage', (loadedAt_set htask).2 (.inl ⟨rfl, rfl⟩)⟩
    · exact ⟨stage, (loadedAt_set htask).2 (.inr ⟨hj, hloaded⟩)⟩

/-- After a step of a repair its task has come to the next stage, and the others are where they
were. -/
theorem cases_of_set {file : String} {u v : ProgramUnit} {stage stage' stage'' : RepairStage}
    (h : p.tasks[k]? = some (file, .loaded u stage))
    (htasks : p'.tasks = p.tasks.set k (file, .loaded u stage'))
    (hloaded : LoadedAt p'.tasks j v stage'') :
    (j = k ∧ u = v ∧ stage' = stage'') ∨ j ≠ k ∧ LoadedAt p.tasks j v stage'' := by
  rw [htasks, loadedAt_set h] at hloaded
  simpa using hloaded

theorem Step.sound (h : r.Step e k p p') (hsound : r.Sound e p) : r.Sound e p' := by
  refine ⟨fun j u stage hloaded => ?_, fun j l hl => ?_⟩
  · cases h with
    | quiet _ _ hbefore =>
      rcases hbefore j u stage hloaded with hbefore | rfl
      · exact hsound.fits j u stage hbefore
      · rfl
    | go htask hstep htasks =>
      rcases cases_of_set htask htasks hloaded with ⟨-, rfl, rfl⟩ | ⟨-, hbefore⟩
      · exact hstep.fits (hsound.fits k _ _ ⟨_, htask⟩)
      · exact hsound.fits j u stage hbefore
  · -- The owner of a file stays its owner, so only where the files are has to be looked at.
    suffices hown : ∃ u stage, LoadedAt p.tasks j u stage ∧ u.Owns l by
      rcases hown with ⟨u, stage, hloaded, howns⟩
      rcases h.kept hloaded with ⟨stage', hloaded'⟩
      exact ⟨u, stage', hloaded', howns⟩
    cases h with
    | quiet hshared _ _ =>
      rw [hshared] at hl
      exact hsound.owned j l hl
    | @go _ v _ stage _ htask hstep _ =>
      rcases (hstep.within (hsound.owns ⟨_, htask⟩)).opened j l hl with
        hbefore | ⟨howns, rfl | ⟨place, hplace, hbefore⟩⟩
      · exact hsound.owned j l hbefore
      · exact ⟨v, stage, ⟨_, htask⟩, howns⟩
      · rcases hsound.owned j place hbefore with ⟨u, stage, hloaded, howns'⟩
        exact ⟨u, stage, hloaded, howns.congr (ProgramUnit.flatName_eq_of_owns hplace howns')⟩

theorem Steps.sound (h : r.Steps e p p') (hsound : r.Sound e p) : r.Sound e p' := by
  induction h with
  | refl => exact hsound
  | tail _ hstep ih =>
    rcases hstep with ⟨k, hstep⟩
    exact hstep.sound ih

/-! ## Units with a flat name of their own -/

/-- No other unit is corrected under the flat name of the task's unit. -/
def Alone (r : Run) (e : Engine) (j : Nat) (p : Pool) : Prop :=
  ∀ u stage, LoadedAt p.tasks j u stage → ∀ k v stage', k ≠ j → LoadedAt p.tasks k v stage' →
    (r.correction? e v).isSome → v.flatName ≠ u.flatName

theorem Step.alone (h : r.Step e k p p') (halone : r.Alone e j p') : r.Alone e j p := by
  intro u stage hu i v stage' hi hv hcorrection
  rcases h.kept hu with ⟨_, hu'⟩
  rcases h.kept hv with ⟨_, hv'⟩
  exact halone u _ hu' i v _ hi hv' hcorrection

/-- The repair of the task goes as it would alone. -/
def UndisturbedAt (r : Run) (e : Engine) (j : Nat) (p : Pool) : Prop :=
  ∀ u stage, LoadedAt p.tasks j u stage → stage.Undisturbed e u (r.check u).issues j p.shared

theorem Step.undisturbedAt (h : r.Step e k p p') (hsound : r.Sound e p) (halone : r.Alone e j p)
    (hj : r.UndisturbedAt e j p) : r.UndisturbedAt e j p' := by
  intro u stage hloaded
  cases h with
  | quiet hshared _ hbefore =>
    rw [hshared]
    rcases hbefore j u stage hloaded with hbefore | rfl
    · exact hj u stage hbefore
    · exact .inl (List.forall_mem_nil _)
  | @go _ v _ before _ htask hstep htasks =>
    have hfits := hsound.fits k _ _ ⟨_, htask⟩
    rcases cases_of_set htask htasks hloaded with ⟨rfl, rfl, rfl⟩ | ⟨hne, hbefore⟩
    · exact hstep.undisturbed hfits (hj _ _ ⟨_, htask⟩)
    · have hstage := hj u stage hbefore
      cases hcorrection : r.correction? e v with
      | none =>
        rw [hstep.eq_of_no_correction hfits hcorrection]
        exact hstage
      | some correction =>
        have hwithin := hstep.within (hsound.owns ⟨_, htask⟩)
        exact Engine.undisturbed_of_within hstage hwithin hne
          (halone u stage hbefore k v before (Ne.symm hne) ⟨_, htask⟩ (by rw [hcorrection]; rfl))

theorem Steps.undisturbedAt (h : r.Steps e p p') (hsound : r.Sound e p)
    (hj : r.UndisturbedAt e j p) (halone : r.Alone e j p') : r.UndisturbedAt e j p' := by
  induction h with
  | refl => exact hj
  | tail hsteps hstep ih =>
    rcases hstep with ⟨k, hstep⟩
    exact hstep.undisturbedAt (Steps.sound hsteps hsound) (hstep.alone halone)
      (ih (hstep.alone halone))

/-! ## Results -/

/-- What came of a file came of its task. -/
theorem exists_task_of_results? {results : List (String × Except LoadError UnitReport)}
    (h : r.results? p = some results) {file : String} {result : Except LoadError UnitReport}
    (hmem : (file, result) ∈ results) :
    ∃ (k : Nat) (task : Task), p.tasks[k]? = some (file, task) ∧ r.result? task = some result := by
  rcases exists_of_mem_mapM h hmem with ⟨k, ⟨file', task⟩, htask, hresult⟩
  rcases Option.map_eq_some_iff.1 hresult with ⟨result', hresult', heq⟩
  cases heq
  exact ⟨k, task, htask, hresult'⟩

/-- The fix belongs to one of the units, for an issue whose fix gives a text. If no other unit is
corrected under its flat name, this is the correction of the unit, and it is what is read in the
end. -/
def AccountsAlone (r : Run) (e : Engine) (units : List ProgramUnit) (final : Disk)
    (fix : AppliedFix) : Prop :=
  ∃ before u after i a, units = before ++ u :: after ∧ i ∈ (r.check u).issues ∧
    e.offer? u i = some (i, a) ∧ fix = fixOf e u i a ∧
    ((∀ v ∈ before ++ after, (r.correction? e v).isSome → v.flatName ≠ u.flatName) →
      r.correction? e u = some (i, a) ∧ final.read fix.outputPath = .ok a.text.toUTF8)

/-- The other units of a pool are those before and after the one of a task. -/
theorem units_eq_append {u : ProgramUnit} {stage : RepairStage} (h : LoadedAt p.tasks j u stage) :
    ∃ before after, p.units = before ++ u :: after ∧
      ∀ k v stage', k ≠ j → LoadedAt p.tasks k v stage' → v ∈ before ++ after := by
  rcases h with ⟨file, h⟩
  rcases List.getElem?_eq_some_iff.1 h with ⟨hlt, hget⟩
  refine ⟨(p.tasks.take j).filterMap (·.2.unit?), (p.tasks.drop (j + 1)).filterMap (·.2.unit?),
    ?_, ?_⟩
  · calc p.units
        = (p.tasks.take j ++ p.tasks.drop j).filterMap (·.2.unit?) := by
          rw [List.take_append_drop, Pool.units]
      _ = _ := by
          rw [List.drop_eq_getElem_cons hlt, hget, List.filterMap_append, List.filterMap_cons]
          rfl
  · rintro k v stage' hk ⟨file', hv⟩
    rw [List.mem_append]
    rcases Nat.lt_or_gt_of_ne hk with hlt | hgt
    · refine .inl (List.mem_filterMap.2 ⟨(file', .loaded v stage'), ?_, rfl⟩)
      refine List.mem_iff_getElem?.2 ⟨k, ?_⟩
      rw [List.getElem?_take_of_lt hlt, hv]
    · refine .inr (List.mem_filterMap.2 ⟨(file', .loaded v stage'), ?_, rfl⟩)
      refine List.mem_iff_getElem?.2 ⟨k - (j + 1), ?_⟩
      rw [List.getElem?_drop, Nat.add_sub_cancel' hgt, hv]

/-- A fix that is reported for a task is accounted for. -/
theorem accountsAlone_of_ended {u changed : ProgramUnit} {repair : Repair} {fix : AppliedFix}
    (hsound : r.Sound e p) (hloaded : LoadedAt p.tasks j u (.ended changed repair))
    (hundisturbed : r.Alone e j p → r.UndisturbedAt e j p)
    (hfix : (reportAfter (r.check u) changed repair).fixed = some fix) :
    r.AccountsAlone e p.units p.shared.disk fix := by
  rcases units_eq_append hloaded with ⟨before, after, hunits, hothers⟩
  by_cases halone : ∀ v ∈ before ++ after, (r.correction? e v).isSome → v.flatName ≠ u.flatName
  · have halone' : r.Alone e j p := by
      intro u' stage hu' k v stage' hk hv hcorrection
      obtain rfl := hloaded.unique hu'
      exact halone v (hothers k v stage' hk hv) hcorrection
    rcases hundisturbed halone' u _ hloaded with
      hnone | ⟨i, a, hcorrection, hchanged, happlied, hpath, hread⟩
    · rw [(fixed_reportAfter (e := e) (u := u)).1 hnone] at hfix
      simp at hfix
    · rw [fixed_reportAfter.2 i a hchanged happlied hpath] at hfix
      obtain rfl := Option.some.inj hfix
      rcases List.exists_of_findSome?_eq_some hcorrection with ⟨i', hmem, hoffer⟩
      obtain rfl := (Engine.offer?_eq_some.1 hoffer).1
      refine ⟨before, u, after, i', a, hunits, hmem, hoffer, rfl, fun _ => ⟨hcorrection, ?_⟩⟩
      rw [outputPath_fixOf]
      exact hread
  · rcases hsound.fits j u _ hloaded with
      ⟨-, rfl⟩ | ⟨front, i, back, a, hissues, hoffer, hchanged, rfl⟩
    · simp [reportAfter] at hfix
    · rw [fixed_reportAfter.2 i a hchanged rfl rfl] at hfix
      obtain rfl := Option.some.inj hfix
      refine ⟨before, u, after, i, a, hunits, ?_, hoffer, rfl, fun h => absurd h halone⟩
      rw [hissues]
      exact List.mem_append_right _ List.mem_cons_self

theorem accountsAlone_of_turns (he : r.engine = some e) {ts : List Turn} {disk : Disk}
    {files : List String} {results results' : List (String × Except LoadError UnitReport)}
    (h : r.turns start (.ofFiles disk files) ts = .ok p) (hresults : r.results? p = some results)
    (hperm : results.Perm results') :
    ∀ fix ∈ (Report.ofResults results').fixes, r.AccountsAlone e p.units p.shared.disk fix := by
  intro fix hfix
  have hsteps := steps_of_turns he h
  have hfiles := r.sound_ofFiles e disk files
  rcases mem_fixes_ofResults.1 hfix with ⟨file, report, hmem, hfixed⟩
  rcases exists_task_of_results? hresults (hperm.mem_iff.2 hmem) with ⟨k, task, htask, hresult⟩
  have hundisturbed : r.Alone e k p → r.UndisturbedAt e k p := by
    refine hsteps.undisturbedAt hfiles ?_
    rintro u stage ⟨file, hloaded⟩
    simp [Pool.ofFiles] at hloaded
  -- Only a repair that is over gives a report.
  cases task with
  | loaded u stage =>
    cases stage with
    | ended changed repair =>
      obtain rfl := Except.ok.inj (Option.some.inj hresult)
      exact accountsAlone_of_ended (hsteps.sound hfiles) ⟨file, htask⟩ hundisturbed hfixed
    | _ => simp [result?] at hresult
  | _ => simp [result?] at hresult

/-! ## One worker -/

/-- Some turns lead from the one pool to the other. -/
def Leads (r : Run) (start : String) (p p' : Pool) : Prop := ∃ ts, r.turns start p ts = .ok p'

theorem Leads.trans {p'' : Pool} (h : r.Leads start p p') (h' : r.Leads start p' p'') :
    r.Leads start p p'' := by
  rcases h with ⟨ts, h⟩
  rcases h' with ⟨ts', h'⟩
  refine ⟨ts ++ ts', ?_⟩
  unfold turns at h
  rw [turns, List.foldlM_append, h]
  exact h'

variable {s s' : SharedDisk} {tasks : List (String × Task)} {file : String} {u : ProgramUnit}
  {disk disk' final : Disk} {files : List String}
  {done results : List (String × Except LoadError UnitReport)}

theorem leads_of_resume {task task' : Task} (amount : Nat) (htask : tasks[k]? = some (file, task))
    (h : r.resume start s ⟨k, amount⟩ file task = .ok (s', task')) :
    r.Leads start ⟨s, tasks⟩ ⟨s', tasks.set k (file, task')⟩ := by
  refine ⟨[⟨k, amount⟩], ?_⟩
  simp only [turns, List.foldlM_cons, List.foldlM_nil, turn, htask, h, bind, Except.bind, pure,
    Except.pure]

/-- A task is given the turns of its repair. -/
theorem leads_of_reaches (he : r.engine = some e) (start : String) {stage stage' : RepairStage}
    (h : e.Reaches k u (s, stage) (s', stage')) (htask : tasks[k]? = some (file, .loaded u stage)) :
    r.Leads start ⟨s, tasks⟩ ⟨s', tasks.set k (file, .loaded u stage')⟩ := by
  rcases h with ⟨amounts, h⟩
  induction amounts generalizing s stage tasks with
  | nil =>
    cases h
    rcases List.getElem?_eq_some_iff.1 htask with ⟨hlt, hget⟩
    refine ⟨[], ?_⟩
    rw [← hget, List.set_getElem_self]
    rfl
  | cons amount amounts ih =>
    rw [List.foldlM_cons] at h
    rcases Outcome.exists_of_bind_eq_ok h with ⟨⟨next, between⟩, hturn, hrest⟩
    have hlt := (List.getElem?_eq_some_iff.1 htask).1
    have hnext := ih (List.getElem?_set_self hlt) hrest
    rw [List.set_set] at hnext
    refine (leads_of_resume amount htask ?_).trans hnext
    unfold resume
    simp only [he, hturn, bind, Except.bind, pure, Except.pure]

/-- A unit is processed in turns of its own. -/
theorem leads_of_process {report : UnitReport}
    (hload : Frontend.load disk (Walk.unitName disk start file) file = .ok u)
    (h : r.process disk u = .ok (disk', report)) (htask : tasks[k]? = some (file, .waiting)) :
    ∃ changed repair, r.Leads start ⟨{ disk }, tasks⟩
        ⟨{ disk := disk' }, tasks.set k (file, .loaded u (.ended changed repair))⟩ ∧
      reportAfter (r.check u) changed repair = report := by
  unfold process at h
  cases he : r.engine with
  | none =>
    rw [he] at h
    cases h
    refine ⟨u, ⟨(r.check u).issues, none, none⟩, leads_of_resume 0 htask ?_, rfl⟩
    unfold resume
    simp only [hload, he]
    rfl
  | some e =>
    rw [he] at h
    rcases Outcome.exists_of_bind_eq_ok h with ⟨⟨next, changed, repair⟩, hrepair, hreturn⟩
    cases hreturn
    have hfirst : r.Leads start ⟨{ disk }, tasks⟩
        ⟨{ disk }, tasks.set k (file, .loaded u (.trying [] (r.check u).issues))⟩ := by
      refine leads_of_resume 0 htask ?_
      unfold resume
      simp only [hload, he]
      rfl
    have hloaded : (tasks.set k (file, .loaded u (.trying [] (r.check u).issues)))[k]? =
        some (file, .loaded u (.trying [] (r.check u).issues)) :=
      List.getElem?_set_self (List.getElem?_eq_some_iff.1 htask).1
    have hrest := leads_of_reaches he start (Engine.reaches_of_repairFrom k hrepair) hloaded
    rw [List.set_set] at hrest
    exact ⟨changed, repair, hfirst.trans hrest, rfl⟩

/-- The first of several files comes to an end in turns of its own. -/
theorem leads_of_processFiles_cons
    (h : r.processFiles start disk done (file :: files) = .ok (final, results))
    (htask : tasks[k]? = some (file, .waiting)) :
    ∃ task result next,
      r.Leads start ⟨{ disk }, tasks⟩ ⟨{ disk := next }, tasks.set k (file, task)⟩ ∧
      r.result? task = some result ∧
      r.processFiles start next ((file, result) :: done) files = .ok (final, results) ∧
      r.units start disk (file :: files) = task.unit?.toList ++ r.units start next files := by
  rcases processFiles_cons h with
    ⟨err, hload, hnext, hunits⟩ | ⟨u, next, report, hload, hprocess, hnext, hunits⟩
  · refine ⟨.failed err, .error err, disk, leads_of_resume 0 htask ?_, rfl, hnext, hunits⟩
    unfold resume
    simp only [hload]
    rfl
  · rcases leads_of_process hload hprocess htask with ⟨changed, repair, hfirst, rfl⟩
    exact ⟨.loaded u (.ended changed repair), _, next, hfirst, rfl, hnext, hunits⟩

/-- Files that are processed one after the other are processed in turns. -/
theorem leads_of_processFiles (before : List (String × Task))
    (h : r.processFiles start disk done files = .ok (final, results))
    (hbefore : r.results? ⟨{ disk }, before⟩ = some done.reverse) :
    ∃ after, r.Leads start ⟨{ disk }, before ++ files.map fun file => (file, .waiting)⟩
        ⟨{ disk := final }, before ++ after⟩ ∧
      r.results? ⟨{ disk := final }, before ++ after⟩ = some results ∧
      after.filterMap (·.2.unit?) = r.units start disk files := by
  induction files generalizing disk done before with
  | nil =>
    cases h
    exact ⟨[], ⟨[], rfl⟩, by rwa [List.append_nil], rfl⟩
  | cons file files ih =>
    rw [List.map_cons]
    have htask : (before ++ (file, Task.waiting) :: files.map fun file => (file, Task.waiting))[
        before.length]? = some (file, .waiting) := by
      rw [List.getElem?_append_right (Nat.le_refl _), Nat.sub_self]
      rfl
    rcases leads_of_processFiles_cons h htask with
      ⟨task, result, next, hfirst, hresult, hnext, hunits⟩
    have hended : r.results? ⟨{ disk := next }, before ++ [(file, task)]⟩ =
        some ((file, result) :: done).reverse := by
      unfold results? at hbefore ⊢
      simp only [List.mapM_append, List.mapM_cons, List.mapM_nil, hbefore, hresult, List.reverse_cons]
      rfl
    rcases ih _ hnext hended with ⟨after, hrest, hafter, hloaded⟩
    rw [List.set_append_right _ _ (Nat.le_refl _), Nat.sub_self, List.set_cons_zero] at hfirst
    rw [← List.append_cons] at hrest hafter
    refine ⟨(file, task) :: after, hfirst.trans ?_, hafter, ?_⟩
    · rwa [← List.append_cons] at hrest
    · rw [hunits, ← hloaded, List.filterMap_cons]
      cases task.unit? <;> rfl

theorem analyseInTurns_eq_ok {ts : List Turn} {path : String} {pool : Pool} :
    r.analyseInTurns ts disk path = .ok (final, .ok pool) ↔
      ∃ files prepared, Walk.files disk r.config.ignore path = .ok files ∧
        r.prepare disk path = (prepared, none) ∧
        r.turns path (.ofFiles prepared files) ts = .ok pool ∧ final = pool.shared.disk := by
  rw [analyseInTurns, onFiles_eq_ok]
  refine exists_congr fun files => exists_congr fun prepared => ?_
  rcases r.turns path (.ofFiles prepared files) ts with x | found
  · simp [bind, Except.bind]
  · simp only [bind, Except.bind, pure, Except.pure, Except.ok.injEq, Prod.mk.injEq]
    grind

/-- What one worker does is what the tasks do in some list of turns. -/
theorem exists_turns_of_analyse {path : String} {report : Report}
    (h : r.analyse disk path = .ok (final, .ok report)) :
    ∃ ts pool results, r.analyseInTurns ts disk path = .ok (final, .ok pool) ∧
      r.results? pool = some results ∧ report = Report.ofResults results ∧
      pool.units = r.unitsBelow disk path := by
  rcases analyse_eq_ok.1 h with ⟨files, prepared, results, hfiles, hprepare, hprocess, rfl⟩
  rcases leads_of_processFiles [] hprocess rfl with ⟨tasks, ⟨ts, hts⟩, hresults, hunits⟩
  refine ⟨ts, _, results, analyseInTurns_eq_ok.2 ⟨files, prepared, hfiles, hprepare, hts, rfl⟩,
    hresults, rfl, ?_⟩
  simp only [unitsBelow, hfiles, hprepare]
  exact hunits

/-! ## Artifacts -/

/-- Two units have the same artifact exactly if they have the same flat name. Every fix that is
reported belongs to a unit. With one worker its artifact holds the corrected unit if none with the
same flat name was corrected after it. With several workers, whatever their turns are and in whatever
order the results come, it does so if no other unit with the same flat name is corrected. -/
theorem artifacts_by_flatName (he : r.engine = some e) (disk : Disk) (path : String) :
    (∀ u v, e.output.artifactPath u = e.output.artifactPath v ↔ u.flatName = v.flatName) ∧
      (∀ final report, r.analyse disk path = .ok (final, .ok report) →
        ∀ fix ∈ report.fixes, r.Accounts e (r.unitsBelow disk path) final fix) ∧
      ∀ ts final pool results results', r.analyseInTurns ts disk path = .ok (final, .ok pool) →
        r.results? pool = some results → results.Perm results' →
        ∀ fix ∈ (Report.ofResults results').fixes, r.AccountsAlone e pool.units final fix := by
  refine ⟨e.output.artifactPath_eq_iff, fun _ _ h => accounts_of_analyse he h, ?_⟩
  intro ts final pool results results' h hresults hperm
  rcases analyseInTurns_eq_ok.1 h with ⟨files, prepared, -, -, hturns, rfl⟩
  exact accountsAlone_of_turns he hturns hresults hperm

theorem files_filePair {second : String} (h : second = "a.b.rs" ∨ second = "c.rs") :
    Walk.files (filePair second) [] "/" = .ok ["/a/b.rs", "/" ++ second] := by
  have hchildren : (filePair second).children [] = ["a", second] := by
    rcases h with rfl | rfl
    · apply List.mergeSort_of_pairwise
      decide
    · apply List.mergeSort_of_pairwise
      decide
  have hbelow : Walk.filesBelow (filePair second) [] [] 4 (Walk.levelsOf (filePair second) []) [] "/" =
      ["/a/b.rs", "/" ++ second] := by
    unfold Walk.filesBelow
    refine (congrArg (List.flatMap _) hchildren).trans ?_
    rcases h with rfl | rfl <;> decide +kernel
  have hfile : (filePair second).isFile "/" = false := by
    rcases h with rfl | rfl <;> decide +kernel
  have hlocate : (filePair second).locate "/" = .ok [] := rfl
  have hsettings : Walk.settingsRules [] = .ok [] := rfl
  have hlength : (filePair second).nodes.length + 1 = 4 := rfl
  have hsorted : (["/a/b.rs", "/" ++ second].filter fun p => (Format.ofPath? p).isSome).mergeSort
      Path.le = ["/a/b.rs", "/" ++ second] := by
    have hfilter : (["/a/b.rs", "/" ++ second].filter fun p => (Format.ofPath? p).isSome) =
        ["/a/b.rs", "/" ++ second] := by
      rcases h with rfl | rfl <;> decide +kernel
    rw [hfilter]
    apply List.mergeSort_of_pairwise
    rcases h with rfl | rfl <;> decide +kernel
  unfold Walk.files
  simp only [hfile, hsettings, hlocate, hlength, hbelow, hsorted, bind, Except.bind, pure,
    Except.pure, Bool.false_eq_true, if_false]

theorem prepare_filePair {second : String} (h : second = "a.b.rs" ∨ second = "c.rs") :
    removals.prepare (filePair second) "/" = ((removals.prepare (filePair second) "/").1, none) := by
  refine Prod.ext rfl (Option.isNone_iff_eq_none.1 ?_)
  rcases h with rfl | rfl <;> decide +kernel

/-- What becomes of two such files with one worker. -/
theorem analyse_filePair {second : String} (h : second = "a.b.rs" ∨ second = "c.rs") {α : Type}
    (view : Disk → α) (fixes : List AppliedFix) (seen : α)
    (heval : ((removals.processFiles "/" (removals.prepare (filePair second) "/").1 []
      ["/a/b.rs", "/" ++ second]).toOption.map fun p =>
        (p.2.filterMap Report.fixOf, view p.1)) = some (fixes, seen))
    (hsorted : fixes.Pairwise fun a b => Path.le a.file b.file = true) :
    ∃ final report, removals.analyse (filePair second) "/" = .ok (final, .ok report) ∧
      report.fixes = fixes ∧ view final = seen := by
  rcases Option.map_eq_some_iff.1 heval with ⟨⟨final, results⟩, hrun, hfound⟩
  rcases Prod.mk.inj hfound with ⟨hfixes, hseen⟩
  refine ⟨final, Report.ofResults results, analyse_eq_ok.2 ⟨_, _, results, files_filePair h,
    prepare_filePair h, eq_ok_of_toOption hrun, rfl⟩, ?_, hseen⟩
  rw [Report.fixes_ofResults, hfixes, List.mergeSort_of_pairwise hsorted]

/-- What becomes of two such files in turns. -/
theorem analyseInTurns_filePair {second : String} (h : second = "a.b.rs" ∨ second = "c.rs")
    {α : Type} (ts : List Turn) (view : Pool → α) (fixes : List AppliedFix) (seen : α)
    (heval : ((removals.turns "/" (.ofFiles (removals.prepare (filePair second) "/").1
      ["/a/b.rs", "/" ++ second]) ts).toOption.bind fun p => (removals.results? p).map fun results =>
        (results.filterMap Report.fixOf, view p)) = some (fixes, seen))
    (hsorted : fixes.Pairwise fun a b => Path.le a.file b.file = true) :
    ∃ pool results, removals.analyseInTurns ts (filePair second) "/" =
        .ok (pool.shared.disk, .ok pool) ∧
      removals.results? pool = some results ∧ (Report.ofResults results).fixes = fixes ∧
      view pool = seen := by
  rcases Option.bind_eq_some_iff.1 heval with ⟨pool, hrun, hended⟩
  rcases Option.map_eq_some_iff.1 hended with ⟨results, hresults, hfound⟩
  rcases Prod.mk.inj hfound with ⟨hfixes, hseen⟩
  refine ⟨pool, results, analyseInTurns_eq_ok.2 ⟨_, _, files_filePair h, prepare_filePair h,
    eq_ok_of_toOption hrun, rfl⟩, hresults, ?_, hseen⟩
  rw [Report.fixes_ofResults, hfixes, List.mergeSort_of_pairwise hsorted]

/-- Two files whose units have different flat names. -/
def apartFiles : Disk := filePair "c.rs"

/-- Turns in which two repairs are at work at the same time. -/
def alternating : List Turn :=
  [⟨0, 0⟩, ⟨1, 0⟩, ⟨0, 0⟩, ⟨1, 0⟩, ⟨0, 3⟩, ⟨1, 5⟩, ⟨0, 5⟩, ⟨1, 3⟩, ⟨0, 0⟩, ⟨1, 0⟩, ⟨0, 0⟩, ⟨1, 0⟩]

/-- The texts of both artifacts. -/
def artifactsOf (disk : Disk) : List (Option ByteArray) :=
  ["/out/a.b.rs.fix", "/out/c.rs.fix"].map fun path => (disk.read path).toOption

/-- Both units are corrected, by one worker and by two of them at the same time, and each artifact
holds its own unit. -/
theorem artifacts_apart :
    (∃ final report, removals.analyse apartFiles "/" = .ok (final, .ok report) ∧
      report.fixes.map (·.outputPath) = ["/out/a.b.rs.fix", "/out/c.rs.fix"] ∧
      artifactsOf final = [some "fn f()\x7b\x7d".toUTF8, some "fn g()\x7b\x7d".toUTF8] ∧
      ∀ fix ∈ report.fixes,
        removals.Accounts outEngine (removals.unitsBelow apartFiles "/") final fix) ∧
    ∃ final pool results,
      removals.analyseInTurns alternating apartFiles "/" = .ok (final, .ok pool) ∧
      removals.results? pool = some results ∧
      (Report.ofResults results).fixes.map (·.outputPath) = ["/out/a.b.rs.fix", "/out/c.rs.fix"] ∧
      artifactsOf final = [some "fn f()\x7b\x7d".toUTF8, some "fn g()\x7b\x7d".toUTF8] ∧
      ∀ fix ∈ (Report.ofResults results.reverse).fixes,
        removals.AccountsAlone outEngine pool.units final fix := by
  have hmain := artifacts_by_flatName (r := removals) (e := outEngine) rfl apartFiles "/"
  have hsorted : [(⟨"/a/b.rs", "console-output", 1, "/out/a.b.rs.fix"⟩ : AppliedFix),
      ⟨"/c.rs", "console-output", 1, "/out/c.rs.fix"⟩].Pairwise
        fun a b => Path.le a.file b.file = true := by
    decide +kernel
  constructor
  · rcases analyse_filePair (.inr rfl) artifactsOf _
      [some "fn f()\x7b\x7d".toUTF8, some "fn g()\x7b\x7d".toUTF8] (by decide +kernel)
      hsorted with ⟨final, report, hanalyse, hfixes, hseen⟩
    exact ⟨final, report, hanalyse, by rw [hfixes]; rfl, hseen, hmain.2.1 _ _ hanalyse⟩
  · rcases analyseInTurns_filePair (.inr rfl) alternating (fun p => artifactsOf p.shared.disk) _
      [some "fn f()\x7b\x7d".toUTF8, some "fn g()\x7b\x7d".toUTF8] (by decide +kernel)
      hsorted with ⟨pool, results, hanalyse, hresults, hfixes, hseen⟩
    exact ⟨_, pool, results, hanalyse, hresults, by rw [hfixes]; rfl, hseen,
      hmain.2.2 _ _ _ _ _ hanalyse hresults results.reverse_perm.symm⟩

/-- Turns in which a draft is moved away while another repair writes to it. -/
def crossing : List Turn :=
  [⟨0, 0⟩, ⟨1, 0⟩, ⟨0, 0⟩, ⟨1, 0⟩, ⟨0, 8⟩, ⟨1, 4⟩, ⟨0, 0⟩, ⟨0, 0⟩, ⟨1, 4⟩, ⟨1, 0⟩, ⟨1, 0⟩, ⟨1, 0⟩,
    ⟨1, 0⟩]

/-- The names of units and the texts to which they are corrected. -/
def corrections (units : List ProgramUnit) : List (String × Option String) :=
  units.map fun u => (u.name, (removals.correction? outEngine u).map (·.2.text))

/-- Both files are found, their units have different names and are corrected to different texts. With
one worker both fixes are reported with the same artifact, which holds the second unit only. With two
of them it may be that only the fix of the first unit is reported, and still its artifact holds the
second one. -/
theorem two_files_one_artifact :
    (∃ final report, removals.analyse twoFiles "/" = .ok (final, .ok report) ∧
      corrections (removals.unitsBelow twoFiles "/") =
        [("a/b.rs", some "fn f()\x7b\x7d"), ("a.b.rs", some "fn g()\x7b\x7d")] ∧
      report.fixes.map (fun fix => (fix.file, fix.outputPath)) =
        [("/a/b.rs", "/out/a.b.rs.fix"), ("/a.b.rs", "/out/a.b.rs.fix")] ∧
      final.read "/out/a.b.rs.fix" = .ok "fn g()\x7b\x7d".toUTF8) ∧
    ∃ final pool results,
      removals.analyseInTurns crossing twoFiles "/" = .ok (final, .ok pool) ∧
      removals.results? pool = some results ∧
      corrections pool.units =
        [("a/b.rs", some "fn f()\x7b\x7d"), ("a.b.rs", some "fn g()\x7b\x7d")] ∧
      (Report.ofResults results).fixes.map (fun fix => (fix.file, fix.outputPath)) =
        [("/a/b.rs", "/out/a.b.rs.fix")] ∧
      final.read "/out/a.b.rs.fix" = .ok "fn g()\x7b\x7d".toUTF8 := by
  constructor
  · rcases analyse_filePair (.inl rfl) (fun d => (d.read "/out/a.b.rs.fix").toOption)
      [⟨"/a/b.rs", "console-output", 1, "/out/a.b.rs.fix"⟩,
        ⟨"/a.b.rs", "console-output", 1, "/out/a.b.rs.fix"⟩]
      (some "fn g()\x7b\x7d".toUTF8) (by decide +kernel) (by decide +kernel) with
      ⟨final, report, hanalyse, hfixes, hread⟩
    refine ⟨final, report, hanalyse, ?_, by rw [hfixes]; rfl, eq_ok_of_toOption hread⟩
    have hfiles : Walk.files twoFiles removals.config.ignore "/" = .ok ["/a/b.rs", "/a.b.rs"] :=
      files_filePair (.inl rfl)
    unfold unitsBelow
    rw [hfiles]
    decide +kernel
  · rcases analyseInTurns_filePair (.inl rfl) crossing
      (fun p => (corrections p.units, (p.shared.disk.read "/out/a.b.rs.fix").toOption))
      [⟨"/a/b.rs", "console-output", 1, "/out/a.b.rs.fix"⟩]
      ([("a/b.rs", some "fn f()\x7b\x7d"), ("a.b.rs", some "fn g()\x7b\x7d")],
        some "fn g()\x7b\x7d".toUTF8) (by decide +kernel) (by decide +kernel) with
      ⟨pool, results, hanalyse, hresults, hfixes, hseen⟩
    rcases Prod.mk.inj hseen with ⟨hunits, hread⟩
    exact ⟨_, pool, results, hanalyse, hresults, hunits, by rw [hfixes]; rfl, eq_ok_of_toOption hread⟩

end Run

end LintMend
