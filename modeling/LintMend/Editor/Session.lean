import LintMend.Analysis.Run
import LintMend.Config.Load
import LintMend.Editor.Cursor
import LintMend.Editor.Uri

/-!
# Sessions with an editor

An editor opens a session, tells which documents it shows and how they change, and is told what is
found in them. A document that is open is checked as the editor has it, any other as it is on disk.
-/

namespace LintMend

/-- A finding as an editor shows it. -/
structure Diagnostic where
  range : CursorRange
  severity : Severity
  code : String
  message : String
deriving DecidableEq, Repr

/-- A replacement in a document. -/
structure DocumentEdit where
  range : CursorRange
  replacement : String
deriving DecidableEq, Repr

/-- A fix that an editor can offer. -/
structure QuickFix where
  title : String
  diagnostic : Diagnostic
  uri : Uri
  edits : List DocumentEdit
deriving DecidableEq, Repr

/-- What an editor says. -/
inductive EditorMessage where
  | greeting (folders : List Uri) (root : Option Uri)
  | ready
  | opened (uri : Uri) (text : String)
  | changed (uri : Uri) (texts : List String)
  | saved (uri : Uri)
  | closed (uri : Uri)
  | fixesFor (uri : Uri) (range : CursorRange)
  | shutdown

/-- Why a request is refused. -/
inductive Refusal where
  | notInitialized
  | invalidRequest
deriving DecidableEq, Repr

/-- The number of a refusal in messages. -/
def Refusal.code : Refusal → Int
  | .notInitialized => -32002
  | .invalidRequest => -32600

/-- What an editor is told. -/
inductive EditorReply where
  | welcome
  | log (text : String)
  | diagnostics (uri : Uri) (found : List Diagnostic)
  | fixes (offered : Option (List QuickFix))
  | farewell
  | refused (reason : Refusal)
  | silence

/-- How far a session is. -/
inductive Phase where
  | fresh
  | running
  | stopped
deriving DecidableEq, Repr

/-- A session: its phase, the settings it works with, and the documents that are open. -/
structure Session where
  phase : Phase := .fresh
  run : Run
  documents : List (Uri × String) := []

namespace Session

/-- The name and the version that a session gives itself. -/
def serverName : String := "checkfix"

def serverVersion : String := "0.1.0"

/-- A new session has the settings of the directory in which it is started. -/
def start (disk : Disk) : Session where
  run := Run.ofConfig (Config.loadOrDefault disk ".")

/-! ## Documents -/

/-- The text of an open document. -/
def document? (s : Session) (uri : Uri) : Option String :=
  (s.documents.find? (·.1 == uri)).map (·.2)

/-- The session with a text for a document. -/
def keep (s : Session) (uri : Uri) (text : String) : Session :=
  { s with documents := (uri, text) :: s.documents.filter (·.1 != uri) }

/-- The session without a document. -/
def forget (s : Session) (uri : Uri) : Session :=
  { s with documents := s.documents.filter (·.1 != uri) }

/-- The text of a document and what is found in it. -/
def issuesFor (s : Session) (disk : Disk) (uri : Uri) : Option (String × List Issue) := do
  let path ← uri.filePath?
  let text ← (s.document? uri).orElse fun _ => (disk.readText path).toOption
  let name ← Path.fileName? path
  let report ← (s.run.checkSource name path text).toOption
  return (text, report.issues)

/-! ## Findings -/

/-- The line of a finding; findings without a place are put on the first line. -/
def lineOf (d : Defect) : Nat := if d.startLine < 0 then 1 else d.startLine.toNat

/-- A finding in a text as an editor shows it. -/
def diagnostic (text : String) (d : Defect) : Diagnostic where
  range := ⟨.ofColumn text (lineOf d) d.startColumn, .ofColumn text (lineOf d) d.endColumn⟩
  severity := d.severity
  code := d.ruleId
  message := d.description

/-- What the editor is told about a document. A document that cannot be checked has no findings. -/
def diagnostics (s : Session) (disk : Disk) (uri : Uri) : List Diagnostic :=
  match s.issuesFor disk uri with
  | some (text, issues) => issues.map fun i => diagnostic text i.defect
  | none => []

/-- The fix of an issue, if it is a replacement of text and its finding touches the range. -/
def quickFix? (text : String) (index : LineIndex) (uri : Uri) (range : CursorRange) (i : Issue) :
    Option QuickFix :=
  match i.fix with
  | some (.patch patch) =>
    let found := diagnostic text i.defect
    if found.range.touches range then
      some ⟨patch.description, found, uri, patch.edits.map fun e =>
        ⟨⟨.ofOffset text index e.span.start, .ofOffset text index e.span.stop⟩, e.replacement⟩⟩
    else none
  | _ => none

/-- The fixes that are offered for a range of a document. -/
def quickFixes (s : Session) (disk : Disk) (uri : Uri) (range : CursorRange) :
    Option (List QuickFix) :=
  (s.issuesFor disk uri).map fun (text, issues) =>
    issues.filterMap (quickFix? text (LineIndex.ofText text) uri range)

/-! ## Messages -/

/-- The directory that an editor works in: the first folder, or else the root. -/
def workspaceRoot? (folders : List Uri) (root : Option Uri) : Option String :=
  (folders.head?.bind Uri.filePath?).orElse fun _ => root.bind Uri.filePath?

/-- The session at work in a directory, whose settings it takes. -/
def enter (s : Session) (disk : Disk) (root : Option String) : Session :=
  match root with
  | some root => { s with phase := .running, run := Run.ofConfig (Config.loadOrDefault disk root) }
  | none => { s with phase := .running }

/-- Tells the editor what is found in a document. -/
def publish (s : Session) (disk : Disk) (uri : Uri) : Session × EditorReply :=
  (s, .diagnostics uri (s.diagnostics disk uri))

/-- A message in a session that runs. -/
def handleRunning (s : Session) (disk : Disk) : EditorMessage → Session × EditorReply
  | .greeting _ _ => (s, .refused .invalidRequest)
  | .ready => (s, .log "checkfix LSP server initialized")
  | .opened uri text => (s.keep uri text).publish disk uri
  | .changed uri texts =>
    match texts.getLast? with
    | some text => (s.keep uri text).publish disk uri
    | none => s.publish disk uri
  | .saved uri => s.publish disk uri
  | .closed uri => (s.forget uri, .diagnostics uri [])
  | .fixesFor uri range => (s, .fixes (s.quickFixes disk uri range))
  | .shutdown => ({ s with phase := .stopped }, .farewell)

/-- What a session that does not run says to a message: it refuses requests and passes over
all else. -/
def refuse (reason : Refusal) : EditorMessage → EditorReply
  | .greeting _ _ => .refused reason
  | .fixesFor _ _ => .refused reason
  | .shutdown => .refused reason
  | _ => .silence

/-- Takes in a message. -/
def handle (s : Session) (disk : Disk) (m : EditorMessage) : Session × EditorReply :=
  match s.phase, m with
  | .fresh, .greeting folders root => (s.enter disk (workspaceRoot? folders root), .welcome)
  | .fresh, m => (s, refuse .notInitialized m)
  | .running, m => s.handleRunning disk m
  | .stopped, m => (s, refuse .invalidRequest m)

end Session

/-- The number of a severity in messages. -/
def Severity.editorCode : Severity → Nat
  | .error => 1
  | .warning => 2
  | .info => 3

end LintMend
