import LintMend.Check.Checker

/-!
# Dispatch

A unit is walked once. Each entity is shown to the checkers that want to see it. A checker that is
given up on one entity leaves a fault, loses what it reported about the entity, and goes on with the
next.
-/

namespace LintMend

/-- A checker was given up on an entity. -/
structure Fault where
  ruleId : String
  entity : String
  message : String
deriving DecidableEq, Repr

/-- A checker that takes part, with its settings and its matchers by the kind they are for. -/
structure Entry where
  checker : Checker
  settings : RuleSettings
  matchers : Granularity.Table (List Matcher)

namespace Entry

def ofChecker (c : Checker) (settings : RuleSettings) : Entry where
  checker := c
  settings := settings
  matchers := c.matchers.foldl (fun t m => t.modify m.granularity (· ++ [m])) (.fill [])

/-- Some matcher for the kind of the entity accepts it. -/
def accepts (n : Entry) (e : Entity) : Bool := (n.matchers.get e.granularity).any (·.accepts e)

def context (n : Entry) (u : ProgramUnit) : Context := n.checker.context u n.settings

end Entry

/-- The checkers that take part, in order, and for each kind of entity the places of those that have
matchers for it. -/
structure Dispatcher where
  entries : List Entry := []
  interested : Granularity.Table (List Nat) := .fill []

/-- What a dispatch finds. Issues are grouped by checker, in the order of the checkers. -/
structure Findings where
  issues : List Issue
  faults : List Fault

/-- How far a walk has come: what each checker has reported, and the faults, last first. -/
structure Progress where
  sinks : List Sink
  faults : List Fault := []

namespace Dispatcher

/-- The dispatcher with one more checker. -/
def add (d : Dispatcher) (n : Entry) : Dispatcher where
  entries := d.entries ++ [n]
  interested := Granularity.all.foldl (fun t g =>
    if (n.matchers.get g).isEmpty then t else t.modify g (· ++ [d.entries.length])) d.interested

/-- The checkers that the settings enable. -/
def ofCheckers (checkers : List Checker) (config : Config) : Dispatcher :=
  checkers.foldl (fun d c =>
    if config.isEnabled c.id then d.add (.ofChecker c (config.rule c.id)) else d) {}

def ids (d : Dispatcher) : List String := d.entries.map (·.checker.id)

def size (d : Dispatcher) : Nat := d.entries.length

/-! ## The walk -/

/-- Shows an entity to the checker at a place, if it accepts the entity. What a checker reports
before it is given up is taken back. -/
def call (d : Dispatcher) (u : ProgramUnit) (e : Entity) (p : Progress) (place : Nat) : Progress :=
  match d.entries[place]?, p.sinks[place]? with
  | some n, some sink =>
    if n.accepts e then
      match n.checker.check (n.context u) e sink with
      | (reported, none) => { p with sinks := p.sinks.set place reported }
      | (reported, some a) =>
        { sinks := p.sinks.set place (reported.truncate sink.count)
          faults := ⟨n.checker.id, e.describe, a.message⟩ :: p.faults }
    else p
  | _, _ => p

/-- Shows an entity to the checkers that are interested in its kind. -/
def visit (d : Dispatcher) (u : ProgramUnit) (p : Progress) (e : Entity) : Progress :=
  (d.interested.get e.granularity).foldl (d.call u e) p

/-- A statement, then its expressions. -/
def visitStatement (d : Dispatcher) (u : ProgramUnit) (m : Method) (p : Progress) (s : Statement) :
    Progress :=
  s.inOrder.foldl (fun p x => d.visit u p (.expression s x)) (d.visit u p (.statement m s))

/-- A method, then its statements. Synthetic methods are passed over with all that is in them. -/
def visitMethod (d : Dispatcher) (u : ProgramUnit) (c : Class) (p : Progress) (m : Method) :
    Progress :=
  if m.isSynthetic then p
  else m.graph.statements.foldl (d.visitStatement u m) (d.visit u p (.method c m))

/-- A class, then its methods. -/
def visitClass (d : Dispatcher) (u : ProgramUnit) (p : Progress) (c : Class) : Progress :=
  c.methods.foldl (d.visitMethod u c) (d.visit u p (.classDef c))

/-- Walks a unit. -/
def dispatch (d : Dispatcher) (u : ProgramUnit) : Findings :=
  let start : Progress := ⟨d.entries.map fun _ => {}, []⟩
  let walked := u.classes.foldl (d.visitClass u) (d.visit u start (.file u))
  ⟨walked.sinks.flatMap Sink.issues, walked.faults.reverse⟩

end Dispatcher

end LintMend
