import LintMend.Defect.Issue
import LintMend.Outcome
import LintMend.Text.Blank

/-!
# Suggestions from outside

A backend is asked for the corrected text of a whole unit. What goes wrong on its side is an error
of the suggestion and no more.
-/

namespace LintMend

/-- Why there is no suggestion. -/
inductive SuggestionError where
  | unavailable
  | timeout (millis : Nat)
  | empty
  | backend (reason : String)
deriving DecidableEq, Repr

def SuggestionError.message : SuggestionError → String
  | .unavailable => "suggestion backend is unavailable"
  | .timeout millis => s!"suggestion timed out after {millis} ms"
  | .empty => "suggestion backend returned no content"
  | .backend reason => s!"suggestion backend failed: {reason}"

/-- What a backend gets to see. -/
structure SuggestionInput where
  unitName : String
  source : String
  defect : Defect
  hint : String

/-- What a backend does when it is asked, with times in milliseconds. It works for a while. Then it
answers, is given up, or lets go of its thread: for a pause, or for good. -/
inductive Course where
  | answer (work : Nat) (result : Except SuggestionError String)
  | giveUp (work : Nat)
  | pause (work length : Nat) (next : Course)
  | stall (work : Nat)

/-- What the caller hears: an answer, that the backend was given up, or that it took too long. -/
inductive BackendReply where
  | answer (result : Except SuggestionError String)
  | givenUp
  | tooLate

/-- What the caller hears of a course from a time on. Nothing stops a backend that works, so the limit
matters only once it lets go of its thread. It goes on if it is woken by the limit, or at once where
the limit has passed meanwhile; but what begins after the limit is its last chance. -/
def Course.replyFrom (limit now : Nat) : Course → BackendReply
  | .answer _ result => .answer result
  | .giveUp _ => .givenUp
  | .pause work length next =>
    let woken := now + work + length
    if now ≤ limit && woken ≤ max limit (now + work) then next.replyFrom limit woken else .tooLate
  | .stall _ => .tooLate

/-- What a reply comes to, from a backend with a name. A limit that does not fit a word is reported as
the last number that does. -/
def BackendReply.result (name : String) (limit : Nat) :
    BackendReply → Except SuggestionError String
  | .answer result => result
  | .givenUp => .error (.backend s!"backend {name} panicked")
  | .tooLate => .error (.timeout (min limit (wordLimit - 1)))

/-- A suggestion has to have content. -/
def withContent : Except SuggestionError String → Except SuggestionError String
  | .ok text => if isBlankText text then .error .empty else .ok text
  | .error e => .error e

/-- Whoever is asked for suggestions. Even asking for its name can be given up. -/
structure Backend where
  name : Outcome String
  course : SuggestionInput → Course

namespace Backend

/-- The backend that is used when there is none. -/
def missing : Backend where
  name := .ok "unavailable"
  course _ := .answer 0 (.error .unavailable)

/-- What the caller hears within a limit in milliseconds. -/
def reply (b : Backend) (limit : Nat) (input : SuggestionInput) : BackendReply :=
  (b.course input).replyFrom limit 0

/-- Asks the backend, with a limit in milliseconds. -/
def run (b : Backend) (limit : Nat) (input : SuggestionInput) :
    Outcome (Except SuggestionError String) := do
  let name ← b.name
  return (b.reply limit input).result name limit

/-- Asks the backend. With `apart` it is asked from a place of its own, so that it cannot take the
caller down with it. -/
def ask (b : Backend) (apart : Bool) (limit : Nat) (input : SuggestionInput) :
    Outcome (Except SuggestionError String) := do
  let result ←
    match b.run limit input with
    | .error a =>
      if apart then .ok (.error (.backend "suggestion thread panicked")) else .error a
    | ok => ok
  return withContent result

end Backend

end LintMend
