import LintMend.Disk.Shared
import LintMend.Repair.Engine

/-!
# Repairs in turns

A repair that shares its disk with others goes in turns, and between any two of them others may have
had theirs. A turn does one thing to the disk: it opens the draft, writes some bytes to it, closes it,
moves it to its place, or removes it.
-/

namespace LintMend

/-- A fix that is being written: the issues passed over before it, last first, the issue with its
attempt, and the issues after it. -/
structure Writing where
  passed : List Issue
  issue : Issue
  attempt : Attempt
  rest : List Issue

/-- How far a repair has come. -/
inductive RepairStage where
  /-- The next of the issues left is to be tried. -/
  | trying (passed rest : List Issue)
  /-- Some bytes of the text have been written to the draft. -/
  | filling (w : Writing) (written : Nat)
  /-- The draft is closed and is to be moved to its place. -/
  | moving (w : Writing)
  /-- Writing has failed, and the draft is to be removed. -/
  | dropping (w : Writing)
  /-- The repair is over. -/
  | ended (unit : ProgramUnit) (repair : Repair)

namespace Engine

/-- The end of a repair that has put a text in its place. -/
def finish (e : Engine) (u : ProgramUnit) (w : Writing) : RepairStage :=
  .ended (w.attempt.unit.getD u)
    { remaining := w.passed.reverse ++ w.rest, applied := some w.issue.markFixed,
      outputPath := some (e.output.artifactPath u) }

/-- Tries the next issue. If its fix gives a text, the draft is opened for it. -/
def tryNext (e : Engine) (s : SharedDisk) (writer : Nat) (u : ProgramUnit) (passed : List Issue) :
    List Issue → Outcome (SharedDisk × RepairStage)
  | [] => return (s, .ended u { remaining := passed.reverse })
  | i :: rest =>
    if e.isCandidate i then do
      match ← e.strategy.attempt u i with
      | .error _ => return (s, .trying (i :: passed) rest)
      | .ok attempt =>
        match s.create writer (e.output.draftPath u) with
        | .ok s => return (s, .filling ⟨passed, i, attempt, rest⟩ 0)
        | .error _ => return (s, .dropping ⟨passed, i, attempt, rest⟩)
    else return (s, .trying (i :: passed) rest)

/-- Writes the next bytes to the draft, or closes it if there are none left. -/
def fillDraft (s : SharedDisk) (writer amount : Nat) (w : Writing) (written : Nat) :
    SharedDisk × RepairStage :=
  let content := w.attempt.text.toUTF8
  if written < content.size then
    (s.writeAt writer written (content.extract written (written + amount)),
      .filling w (written + amount))
  else (s.close writer, .moving w)

/-- Moves the draft to its place. Then the repair is over. -/
def placeDraft (e : Engine) (s : SharedDisk) (u : ProgramUnit) (w : Writing) :
    SharedDisk × RepairStage :=
  match s.move (e.output.draftPath u) (e.output.artifactPath u) with
  | .ok s => (s, e.finish u w)
  | .error _ => (s, .dropping w)

/-- Removes the draft, if that can be done, and passes the issue over. -/
def discardDraft (e : Engine) (s : SharedDisk) (u : ProgramUnit) (w : Writing) :
    SharedDisk × RepairStage :=
  ((s.remove (e.output.draftPath u)).toOption.getD s, .trying (w.issue :: w.passed) w.rest)

/-- One turn of the repair of a unit, for which the draft is opened by a writer of its own. A turn
that writes takes `amount` bytes. -/
def turn (e : Engine) (s : SharedDisk) (writer amount : Nat) (u : ProgramUnit) :
    RepairStage → Outcome (SharedDisk × RepairStage)
  | .trying passed rest => e.tryNext s writer u passed rest
  | .filling w written => return fillDraft s writer amount w written
  | .moving w => return e.placeDraft s u w
  | .dropping w => return e.discardDraft s u w
  | .ended unit repair => return (s, .ended unit repair)

end Engine

end LintMend
