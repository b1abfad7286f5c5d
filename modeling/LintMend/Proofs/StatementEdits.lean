import LintMend.Rules.ConsoleOutput
import Mathlib.Data.List.Nodup

/-!
# Editing single statements

A statement is changed by going down the tree of a unit to the first place where its id stands. If no
id stands twice, this changes all statements with the id, and it can be told without the tree. The fix
that removes console output is such a change.
-/

namespace LintMend

/-! ## Changing what stands first -/

theorem map_eq_self {α : Type} {f : α → α} {l : List α} (h : ∀ a ∈ l, f a = a) : l.map f = l := by
  conv_rhs => rw [← List.map_id l]
  exact List.map_congr_left h

/-- Where at most one element is meant, changing the first one is changing all that are meant. -/
theorem modifyFirst_eq_map {α : Type} {p : α → Bool} {f g : α → α} {l : List α}
    (hone : l.Pairwise fun a b => p a = true → p b = false)
    (hmeant : ∀ a ∈ l, p a = true → f a = g a) (hrest : ∀ a ∈ l, p a = false → a = g a) :
    modifyFirst p f l = l.map g := by
  induction l with
  | nil => rfl
  | cons a l ih =>
    rw [List.pairwise_cons] at hone
    rw [List.forall_mem_cons] at hmeant hrest
    rw [modifyFirst, List.map_cons]
    cases ha : p a with
    | false =>
      rw [if_neg (by simp), ih hone.2 hmeant.2 hrest.2, ← hrest.1 ha]
    | true =>
      have hsame : l.map g = l := by
        apply map_eq_self
        intro b hb
        exact (hrest.2 b hb (hone.1 b hb ha)).symm
      rw [if_pos rfl, hmeant.1 ha, hsame]

/-- The same for elements that hold ids, of which no one is held twice. -/
theorem modifyFirst_eq_map_of_nodup {α : Type} {ids : α → List Nat} {id : Nat} {p : α → Bool}
    {f g : α → α} {l : List α} (hp : ∀ a, p a = true ↔ id ∈ ids a) (h : (l.flatMap ids).Nodup)
    (hmeant : ∀ a, (ids a).Nodup → id ∈ ids a → f a = g a) (hrest : ∀ a, id ∉ ids a → a = g a) :
    modifyFirst p f l = l.map g := by
  rw [List.nodup_flatMap] at h
  apply modifyFirst_eq_map
  · refine h.2.imp fun {a b} hdisjoint ha => ?_
    rw [Bool.eq_false_iff, ne_eq, hp]
    exact hdisjoint ((hp a).1 ha)
  · intro a hmem ha
    exact hmeant a (h.1 a hmem) ((hp a).1 ha)
  · intro a _ ha
    rw [Bool.eq_false_iff, ne_eq, hp] at ha
    exact hrest a ha

/-! ## Changing all statements -/

def FlowBlock.ids (b : FlowBlock) : List Nat := b.statements.map (·.id)

def Method.ids (m : Method) : List Nat := m.graph.blocks.flatMap FlowBlock.ids

def Class.ids (c : Class) : List Nat := c.methods.flatMap Method.ids

/-- The ids of the statements, in the order in which they are stored. -/
def ProgramUnit.ids (u : ProgramUnit) : List Nat := u.classes.flatMap Class.ids

theorem ProgramUnit.map_id_statements (u : ProgramUnit) : u.statements.map (·.id) = u.ids := by
  simp only [statements, FlowGraph.stored, List.map_flatMap]
  rfl

def FlowBlock.mapStatements (f : Statement → Statement) (b : FlowBlock) : FlowBlock :=
  { b with statements := b.statements.map f }

def Method.mapStatements (f : Statement → Statement) (m : Method) : Method :=
  { m with graph := { m.graph with blocks := m.graph.blocks.map (FlowBlock.mapStatements f) } }

def Class.mapStatements (f : Statement → Statement) (c : Class) : Class :=
  { c with methods := c.methods.map (Method.mapStatements f) }

/-- The unit with all its statements changed and all else as it is. -/
def ProgramUnit.mapStatements (f : Statement → Statement) (u : ProgramUnit) : ProgramUnit :=
  { u with classes := u.classes.map (Class.mapStatements f) }

namespace ProgramUnit

variable (f g : Statement → Statement) (u : ProgramUnit)

@[simp] theorem name_mapStatements : (u.mapStatements f).name = u.name := rfl

@[simp] theorem source_mapStatements : (u.mapStatements f).source = u.source := rfl

theorem statements_mapStatements : (u.mapStatements f).statements = u.statements.map f := by
  simp [statements, mapStatements, Class.mapStatements, Method.mapStatements,
    FlowBlock.mapStatements, FlowGraph.stored, List.flatMap_map, List.map_flatMap]

theorem mapStatements_mapStatements :
    (u.mapStatements f).mapStatements g = u.mapStatements (g ∘ f) := by
  simp [mapStatements, Class.mapStatements, Method.mapStatements, FlowBlock.mapStatements]

theorem mapStatements_id : u.mapStatements id = u := by
  have hblock : FlowBlock.mapStatements id = id := by
    funext b
    simp [FlowBlock.mapStatements]
  have hmethod : Method.mapStatements id = id := by
    funext m
    simp [Method.mapStatements, hblock]
  have hclass : Class.mapStatements id = id := by
    funext c
    simp [Class.mapStatements, hmethod]
  simp [mapStatements, hclass]

variable {f g u}

theorem mapStatements_congr (h : ∀ s ∈ u.statements, f s = g s) :
    u.mapStatements f = u.mapStatements g := by
  unfold mapStatements
  congr 1
  apply List.map_congr_left
  intro c hc
  unfold Class.mapStatements
  congr 1
  apply List.map_congr_left
  intro m hm
  unfold Method.mapStatements
  dsimp only
  congr 2
  apply List.map_congr_left
  intro b hb
  unfold FlowBlock.mapStatements
  congr 1
  apply List.map_congr_left
  intro s hs
  apply h
  exact List.mem_flatMap.2 ⟨c, hc, List.mem_flatMap.2 ⟨m, hm, List.mem_flatMap.2 ⟨b, hb, hs⟩⟩⟩

theorem mapStatements_eq_self (h : ∀ s ∈ u.statements, f s = s) : u.mapStatements f = u := by
  rw [mapStatements_congr h]
  exact mapStatements_id u

variable (u)

theorem ids_mapStatements (hid : ∀ s, (f s).id = s.id) : (u.mapStatements f).ids = u.ids := by
  have hcomp : (fun s : Statement => s.id) ∘ f = fun s => s.id := funext hid
  rw [← map_id_statements, ← map_id_statements, statements_mapStatements, List.map_map, hcomp]

/-- Pending edits do not show in the origins. -/
theorem origins_mapStatements (hid : ∀ s, (f s).id = s.id) (horigin : ∀ s, (f s).origin = s.origin)
    (hexpressions : ∀ s, (f s).expressions = s.expressions) :
    (u.mapStatements f).origins = u.origins := by
  simp only [origins, mapStatements, Class.mapStatements, Method.mapStatements,
    FlowBlock.mapStatements, FlowGraph.stored, List.flatMap_map, List.flatMap_assoc, hid, horigin,
    hexpressions]

end ProgramUnit

/-! ## Changing the statement with an id -/

/-- Changes the statement if it has the id. -/
def Statement.onId (id : Nat) (f : Statement → Statement) (s : Statement) : Statement :=
  if s.id == id then f s else s

section

variable {id : Nat} {f : Statement → Statement}

theorem FlowBlock.mapStatements_onId_of_notMem {b : FlowBlock} (h : id ∉ b.ids) :
    b.mapStatements (Statement.onId id f) = b := by
  have hsame : b.statements.map (Statement.onId id f) = b.statements := by
    apply map_eq_self
    intro s hs
    have hne : s.id ≠ id := fun heq => h (heq ▸ List.mem_map_of_mem hs)
    simp [Statement.onId, hne]
  unfold mapStatements
  rw [hsame]

theorem Method.mapStatements_onId_of_notMem {m : Method} (h : id ∉ m.ids) :
    m.mapStatements (Statement.onId id f) = m := by
  have hsame : m.graph.blocks.map (FlowBlock.mapStatements (Statement.onId id f)) =
      m.graph.blocks := by
    apply map_eq_self
    intro b hb
    exact FlowBlock.mapStatements_onId_of_notMem fun hmem =>
      h (List.mem_flatMap.2 ⟨b, hb, hmem⟩)
  unfold mapStatements
  rw [hsame]

theorem Class.mapStatements_onId_of_notMem {c : Class} (h : id ∉ c.ids) :
    c.mapStatements (Statement.onId id f) = c := by
  have hsame : c.methods.map (Method.mapStatements (Statement.onId id f)) = c.methods := by
    apply map_eq_self
    intro m hm
    exact Method.mapStatements_onId_of_notMem fun hmem => h (List.mem_flatMap.2 ⟨m, hm, hmem⟩)
  unfold mapStatements
  rw [hsame]

end

namespace ProgramUnit

variable {id : Nat} {f : Statement → Statement}

theorem modifyFirst_statements {b : FlowBlock} (h : b.ids.Nodup) :
    { b with statements := modifyFirst (·.id == id) f b.statements } =
      b.mapStatements (Statement.onId id f) := by
  have hids : b.ids = b.statements.flatMap fun s => [s.id] := List.map_eq_flatMap
  have hmeant : ∀ s : Statement, [s.id].Nodup → id ∈ [s.id] → f s = Statement.onId id f s := by
    intro s _ hid
    have heq : s.id = id := (List.mem_singleton.1 hid).symm
    simp [Statement.onId, heq]
  have hrest : ∀ s : Statement, id ∉ [s.id] → s = Statement.onId id f s := by
    intro s hid
    have hne : s.id ≠ id := fun heq => hid (by simp [heq])
    simp [Statement.onId, hne]
  have hp : ∀ s : Statement, (s.id == id) = true ↔ id ∈ [s.id] := by
    intro s
    rw [beq_iff_eq, List.mem_singleton]
    exact eq_comm
  rw [hids] at h
  unfold FlowBlock.mapStatements
  rw [modifyFirst_eq_map_of_nodup hp h hmeant hrest]

/-- With unique ids, changing the first statement of an id changes this statement only. -/
theorem modifyStatement_eq_mapStatements {u : ProgramUnit} (h : u.ids.Nodup) (id : Nat)
    (f : Statement → Statement) :
    u.modifyStatement id f = u.mapStatements (Statement.onId id f) := by
  have hblock : ∀ b : FlowBlock, (b.statements.any (·.id == id)) = true ↔ id ∈ b.ids := by
    intro b
    simp [FlowBlock.ids]
  have hmethod : ∀ m : Method,
      (m.graph.blocks.any fun b => b.statements.any (·.id == id)) = true ↔ id ∈ m.ids := by
    intro m
    rw [List.any_eq_true, Method.ids, List.mem_flatMap]
    simp only [hblock]
  have hclass : ∀ c : Class,
      (c.methods.any fun m => m.graph.blocks.any fun b => b.statements.any (·.id == id)) = true ↔
        id ∈ c.ids := by
    intro c
    rw [List.any_eq_true, Class.ids, List.mem_flatMap]
    simp only [hmethod]
  unfold modifyStatement mapStatements
  dsimp only
  congr 1
  -- One level of the tree after the other: at each the ids of the parts are disjoint.
  refine modifyFirst_eq_map_of_nodup hclass h (fun c hc _ => ?_) fun c hc =>
    (Class.mapStatements_onId_of_notMem hc).symm
  unfold Class.mapStatements
  congr 1
  refine modifyFirst_eq_map_of_nodup hmethod hc (fun m hm _ => ?_) fun m hm =>
    (Method.mapStatements_onId_of_notMem hm).symm
  unfold Method.mapStatements
  congr 2
  exact modifyFirst_eq_map_of_nodup hblock hm (fun b hb _ => modifyFirst_statements hb) fun b hb =>
    (FlowBlock.mapStatements_onId_of_notMem hb).symm

/-- With unique ids, statements with the same id are the same. -/
theorem eq_of_id_eq {u : ProgramUnit} (h : u.ids.Nodup) {s t : Statement} (hs : s ∈ u.statements)
    (ht : t ∈ u.statements) (hid : s.id = t.id) : s = t := by
  rw [← map_id_statements] at h
  exact List.inj_on_of_nodup_map h hs ht hid

theorem isSome_statement?_iff (u : ProgramUnit) (id : Nat) :
    (u.statement? id).isSome = true ↔ id ∈ u.ids := by
  rw [statement?, List.find?_isSome, ← map_id_statements, List.mem_map]
  simp only [beq_iff_eq]

theorem modifyStatement?_eq {u : ProgramUnit} (h : u.ids.Nodup) (id : Nat)
    (f : Statement → Statement) :
    u.modifyStatement? id f =
      if id ∈ u.ids then some (u.mapStatements (Statement.onId id f)) else none := by
  unfold modifyStatement?
  rw [modifyStatement_eq_mapStatements h]
  by_cases hid : id ∈ u.ids
  · rw [if_pos ((u.isSome_statement?_iff id).2 hid), if_pos hid]
  · rw [if_neg fun hsome => hid ((u.isSome_statement?_iff id).1 hsome), if_neg hid]

/-- With unique ids, a statement is the one that is found by its id. -/
theorem statement?_eq_some_iff {u : ProgramUnit} (h : u.ids.Nodup) {s : Statement} {id : Nat} :
    u.statement? id = some s ↔ s ∈ u.statements ∧ s.id = id := by
  have hfound : ∀ {t}, u.statement? id = some t → t ∈ u.statements ∧ t.id = id := by
    intro t hfind
    have hid := List.find?_some hfind
    exact ⟨List.mem_of_find?_eq_some hfind, by simpa using hid⟩
  refine ⟨hfound, ?_⟩
  rintro ⟨hs, hid⟩
  have hmem : id ∈ u.ids := by
    rw [← map_id_statements, ← hid]
    exact List.mem_map_of_mem hs
  rcases Option.isSome_iff_exists.1 ((u.isSome_statement?_iff id).2 hmem) with ⟨t, hfind⟩
  rcases hfound hfind with ⟨ht, htid⟩
  rw [hfind, eq_of_id_eq h hs ht (hid.trans htid.symm)]

end ProgramUnit

/-! ## Setting edits -/

/-- The statement with a pending edit. -/
def Statement.setEdit (edit : Edit) (s : Statement) : Statement := { s with edit := some edit }

/-- Removing console output sets the edit of the statement that the key names, unless there is one
already. -/
theorem ConsoleOutput.remove?_eq_some_iff {u changed : ProgramUnit} (h : u.ids.Nodup)
    {key : String} :
    remove? u key = some changed ↔
      ∃ s ∈ u.statements, wordOfText? key = some s.id ∧ s.isEdited = false ∧
        changed = u.mapStatements (Statement.onId s.id (Statement.setEdit .remove)) := by
  have hmodify : ∀ s ∈ u.statements, u.modifyStatement? s.id (Statement.setEdit .remove) =
      some (u.mapStatements (Statement.onId s.id (Statement.setEdit .remove))) := by
    intro s hs
    rw [ProgramUnit.modifyStatement?_eq h, if_pos (u.map_id_statements ▸ List.mem_map_of_mem hs)]
  simp only [remove?, Option.bind_eq_bind, Option.bind_eq_some_iff]
  constructor
  · rintro ⟨id, hkey, s, hfind, hchange⟩
    rcases (ProgramUnit.statement?_eq_some_iff h).1 hfind with ⟨hs, rfl⟩
    cases hedit : s.isEdited with
    | true => simp [hedit] at hchange
    | false =>
      rw [if_neg (by simp [hedit])] at hchange
      have hsome := (hmodify s hs).symm.trans hchange
      exact ⟨s, hs, hkey, hedit, (Option.some.inj hsome).symm⟩
  · rintro ⟨s, hs, hkey, hedit, rfl⟩
    refine ⟨s.id, hkey, s, (ProgramUnit.statement?_eq_some_iff h).2 ⟨hs, rfl⟩, ?_⟩
    rw [if_neg (by simp [hedit])]
    exact hmodify s hs

end LintMend
