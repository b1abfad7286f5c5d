import LintMend.Editor.Session
import LintMend.Proofs.DiskPlaces
import Mathlib.Data.List.Induction

/-!
# Published diagnostics

An editor tells what becomes of its documents, and after each message about a document it is told
what is found there. The texts that a session keeps are the last ones that it has received. What was
published last about a document that is kept belongs to the text that is kept, and the last list for
a document that was closed is empty. Messages about one document leave all others alone.
-/

namespace LintMend

/-! ## The last event -/

/-- An event has happened, and all that came after it was quiet. -/
def Since {α : Type} (event quiet : α → Prop) (history : List α) : Prop :=
  ∃ before a after, history = before ++ a :: after ∧ event a ∧ ∀ b ∈ after, quiet b

/-- What comes next is the event itself, or it is quiet after an earlier one. -/
theorem since_concat {α : Type} {event quiet : α → Prop} {history : List α} {a : α} :
    Since event quiet (history ++ [a]) ↔ event a ∨ quiet a ∧ Since event quiet history := by
  constructor
  · rintro ⟨before, b, after, hhistory, hb, hafter⟩
    induction after using List.reverseRecOn with
    | nil =>
      have hlast : a = b := List.singleton_inj.1 (List.append_inj' hhistory rfl).2
      exact .inl (hlast ▸ hb)
    | append_singleton after c _ =>
      rw [← List.cons_append, ← List.append_assoc] at hhistory
      have hparts := List.append_inj' hhistory rfl
      have hlast : a = c := List.singleton_inj.1 hparts.2
      refine .inr ⟨hlast ▸ hafter c (by simp), before, b, after, hparts.1, hb, ?_⟩
      intro d hd
      exact hafter d (List.mem_append_left _ hd)
  · rintro (ha | ⟨ha, before, b, after, rfl, hb, hafter⟩)
    · exact ⟨history, a, [], rfl, ha, by simp⟩
    · refine ⟨before, b, after ++ [a], by simp, hb, ?_⟩
      intro d hd
      rcases List.mem_append.1 hd with hd | hd
      · exact hafter d hd
      · exact List.mem_singleton.1 hd ▸ ha

/-! ## What messages and replies say about a document -/

namespace EditorMessage

/-- The text that a message brings for a document. A change without texts brings none. -/
def text? (uri : Uri) : EditorMessage → Option String
  | .opened v text => if v = uri then some text else none
  | .changed v texts => if v = uri then texts.getLast? else none
  | _ => none

/-- The message closes the document. -/
def closes (uri : Uri) : EditorMessage → Bool
  | .closed v => v = uri
  | _ => false

/-- The message tells what has become of the document. -/
def mentions (uri : Uri) : EditorMessage → Bool
  | .opened v _ | .changed v _ | .saved v | .closed v => v = uri
  | _ => false

theorem closes_iff {uri : Uri} {m : EditorMessage} : m.closes uri = true ↔ m = .closed uri := by
  cases m <;> simp [closes]

theorem mentions_of_text? {uri : Uri} {m : EditorMessage} (h : m.mentions uri = false) :
    m.text? uri = none ∧ m.closes uri = false := by
  cases m <;> simp_all [mentions, text?, closes]

end EditorMessage

/-- The text is the last one received for the document, and the document was not closed since. -/
def LastText (heard : List EditorMessage) (uri : Uri) (text : String) : Prop :=
  Since (fun m => m.text? uri = some text) (fun m => m.text? uri = none ∧ m.closes uri = false) heard

/-- The document was closed, and it was not mentioned since. -/
def ClosedSince (heard : List EditorMessage) (uri : Uri) : Prop :=
  Since (fun m => m = .closed uri) (fun m => m.mentions uri = false) heard

/-- The list is the last one published for the document. -/
def LastPublished (said : List EditorReply) (uri : Uri) (found : List Diagnostic) : Prop :=
  Since (fun r => r = .diagnostics uri found) (fun r => ∀ other, r ≠ .diagnostics uri other) said

/-- What is found in the text that an editor has for a document. Nothing is found if the document is
no file or if its text cannot be read as a unit. -/
def Run.diagnosticsOf (r : Run) (uri : Uri) (text : String) : List Diagnostic :=
  match uri.filePath? with
  | none => []
  | some path =>
    match Path.fileName? path with
    | none => []
    | some name =>
      match Frontend.parse name path text with
      | .error _ => []
      | .ok u => (r.check u).issues.map fun i => Session.diagnostic text i.defect

namespace Session

/-! ## The documents that are kept -/

variable {s : Session} {m : EditorMessage}

theorem document?_keep (s : Session) (uri v : Uri) (text : String) :
    (s.keep uri text).document? v = if uri = v then some text else s.document? v := by
  simp only [document?, keep, List.find?_cons]
  by_cases h : uri = v
  · simp [h]
  · have hkey : (uri == v) = false := by simpa using h
    simp only [hkey, find?_filter_ne (Ne.symm h), if_neg h]

theorem document?_forget (s : Session) (uri v : Uri) :
    (s.forget uri).document? v = if uri = v then none else s.document? v := by
  simp only [document?, forget]
  by_cases h : uri = v
  · simp [h, List.find?_filter]
  · simp only [find?_filter_ne (Ne.symm h), if_neg h]

/-- What is found in a document that is kept depends on its text only, and not on the disk. -/
theorem diagnostics_of_document? {uri : Uri} {text : String} (h : s.document? uri = some text)
    (disk : Disk) : s.diagnostics disk uri = s.run.diagnosticsOf uri text := by
  unfold diagnostics issuesFor Run.diagnosticsOf Run.checkSource
  cases uri.filePath? with
  | none => rfl
  | some path =>
    cases hname : Path.fileName? path with
    | none => simp [h, hname]
    | some name =>
      cases hparse : Frontend.parse name path text with
      | error e => simp [h, hname, hparse, Except.map, Except.toOption]
      | ok u => simp [h, hname, hparse, Except.map, Except.toOption]

/-! ## One message -/

theorem phase_handle (h : s.phase = .running) (hm : m ≠ .shutdown) (disk : Disk) :
    (s.handle disk m).1.phase = .running ∧ (s.handle disk m).1.run = s.run := by
  simp only [handle, h]
  cases m with
  | changed uri texts =>
    simp only [handleRunning]
    cases texts.getLast? <;> exact ⟨h, rfl⟩
  | shutdown => exact absurd rfl hm
  | _ => exact ⟨h, rfl⟩

/-- A message changes what is kept for the documents that it brings a text for or closes. -/
theorem document?_handle (h : s.phase = .running) (disk : Disk) (uri : Uri) :
    (s.handle disk m).1.document? uri =
      if m.closes uri then none else (m.text? uri).or (s.document? uri) := by
  simp only [handle, h]
  cases m with
  | opened v text =>
    simp only [handleRunning, publish, document?_keep, EditorMessage.closes, EditorMessage.text?]
    by_cases hv : v = uri <;> simp [hv]
  | changed v texts =>
    simp only [handleRunning, EditorMessage.closes, EditorMessage.text?]
    cases texts.getLast? with
    | none => simp [publish]
    | some text =>
      simp only [publish, document?_keep]
      by_cases hv : v = uri <;> simp [hv]
  | closed v =>
    simp only [handleRunning, document?_forget, EditorMessage.closes, EditorMessage.text?]
    by_cases hv : v = uri <;> simp [hv]
  | _ => rfl

/-- A message that mentions a document is answered with what is found there now. -/
theorem reply_of_mentions (h : s.phase = .running) (disk : Disk) {uri : Uri}
    (hmentions : m.mentions uri = true) :
    (s.handle disk m).2 = .diagnostics uri
      (if m.closes uri then [] else (s.handle disk m).1.diagnostics disk uri) := by
  simp only [handle, h]
  cases m with
  | changed v texts =>
    obtain rfl : v = uri := by simpa [EditorMessage.mentions] using hmentions
    simp only [handleRunning, EditorMessage.closes]
    cases texts.getLast? <;> rfl
  | opened v text =>
    obtain rfl : v = uri := by simpa [EditorMessage.mentions] using hmentions
    rfl
  | saved v =>
    obtain rfl : v = uri := by simpa [EditorMessage.mentions] using hmentions
    rfl
  | closed v =>
    obtain rfl : v = uri := by simpa [EditorMessage.mentions] using hmentions
    simp [handleRunning, EditorMessage.closes]
  | _ => simp [EditorMessage.mentions] at hmentions

theorem reply_of_not_mentions (h : s.phase = .running) (disk : Disk) {uri : Uri}
    (hmentions : m.mentions uri = false) (found : List Diagnostic) :
    (s.handle disk m).2 ≠ .diagnostics uri found := by
  intro hreply
  simp only [handle, h] at hreply
  cases m with
  | changed v texts =>
    simp only [handleRunning] at hreply
    have hv : v = uri := by
      cases hlast : texts.getLast? <;> simp_all [publish]
    simp [EditorMessage.mentions, hv] at hmentions
  | _ => simp_all [handleRunning, publish, EditorMessage.mentions]

/-! ## A conversation -/

/-- The session after messages, each of which meets the disk as it is then, and what was said. -/
def converse (s : Session) (messages : List (Disk × EditorMessage)) : Session × List EditorReply :=
  messages.foldl
    (fun c m => ((c.1.handle m.1 m.2).1, c.2 ++ [(c.1.handle m.1 m.2).2])) (s, [])

/-- What a session keeps and what it has published agree with what it has heard. -/
structure Answers (r : Run) (heard : List EditorMessage) (said : List EditorReply) (s : Session) :
    Prop where
  running : s.phase = .running
  run : s.run = r
  kept : ∀ uri text, s.document? uri = some text ↔ LastText heard uri text
  published : ∀ uri text, s.document? uri = some text →
    LastPublished said uri (r.diagnosticsOf uri text)
  closed : ∀ uri, ClosedSince heard uri → LastPublished said uri []

namespace Answers

variable {r : Run} {heard : List EditorMessage} {said : List EditorReply}

theorem start (r : Run) : Answers r [] [] ⟨.running, r, []⟩ where
  running := rfl
  run := rfl
  kept uri text := by simp [document?, LastText, Since]
  published uri text h := by simp [document?] at h
  closed uri h := by simp [ClosedSince, Since] at h

theorem handle (h : Answers r heard said s) (disk : Disk) (hm : m ≠ .shutdown) :
    Answers r (heard ++ [m]) (said ++ [(s.handle disk m).2]) (s.handle disk m).1 := by
  have hphase := phase_handle h.running hm disk
  have hdocument := fun uri => document?_handle (m := m) h.running disk uri
  refine ⟨hphase.1, hphase.2.trans h.run, ?_, ?_, ?_⟩
  · intro uri text
    rw [hdocument, LastText, since_concat]
    change _ ↔ _ ∨ _ ∧ LastText heard uri text
    rw [← h.kept]
    cases hcloses : m.closes uri with
    | true =>
      rw [EditorMessage.closes_iff] at hcloses
      simp [hcloses, EditorMessage.text?]
    | false => cases m.text? uri <;> simp
  · intro uri text htext
    rw [LastPublished, since_concat]
    cases hmentions : m.mentions uri with
    | false =>
      refine .inr ⟨reply_of_not_mentions h.running disk hmentions, h.published uri text ?_⟩
      simpa [hdocument, EditorMessage.mentions_of_text? hmentions] using htext
    | true =>
      have hcloses : m.closes uri = false := by
        rw [Bool.eq_false_iff]
        intro hcloses
        simp [hdocument, hcloses] at htext
      left
      rw [reply_of_mentions h.running disk hmentions, hcloses, if_neg Bool.false_ne_true,
        diagnostics_of_document? htext, hphase.2, h.run]
  · intro uri hclosed
    rw [ClosedSince, since_concat] at hclosed
    rw [LastPublished, since_concat]
    rcases hclosed with rfl | ⟨hmentions, hclosed⟩
    · left
      have hmentions : (EditorMessage.closed uri).mentions uri = true := by
        simp [EditorMessage.mentions]
      rw [reply_of_mentions h.running disk hmentions, EditorMessage.closes_iff.2 rfl, if_pos rfl]
    · exact .inr ⟨reply_of_not_mentions h.running disk hmentions, h.closed uri hclosed⟩

theorem converse {messages : List (Disk × EditorMessage)} (hm : ∀ m ∈ messages, m.2 ≠ .shutdown) :
    Answers r (messages.map (·.2)) (Session.converse ⟨.running, r, []⟩ messages).2
      (Session.converse ⟨.running, r, []⟩ messages).1 := by
  induction messages using List.reverseRecOn with
  | nil => exact start r
  | append_singleton messages m ih =>
    have hlast := hm m (by simp)
    have hearlier := ih fun n hn => hm n (List.mem_append_left _ hn)
    simp only [Session.converse, List.foldl_append, List.map_append] at hearlier ⊢
    exact hearlier.handle m.1 hlast

end Answers

/-- Whatever an editor says to a running session that starts without documents, short of ending it:
the session keeps for each document the last text received since it was closed, what it has
published last for a document that it keeps is what is found in that text, and what it has published
last for a document that was closed and not mentioned since is nothing. -/
theorem published_match_kept (r : Run) (messages : List (Disk × EditorMessage))
    (h : ∀ m ∈ messages, m.2 ≠ .shutdown) :
    let heard := messages.map (·.2)
    let said := (converse ⟨.running, r, []⟩ messages).2
    let s := (converse ⟨.running, r, []⟩ messages).1
    (∀ uri text, s.document? uri = some text ↔ LastText heard uri text) ∧
      (∀ uri text, s.document? uri = some text →
        LastPublished said uri (r.diagnosticsOf uri text)) ∧
      ∀ uri, ClosedSince heard uri → LastPublished said uri [] := by
  have hanswers : Answers r _ _ _ := Answers.converse h
  exact ⟨hanswers.kept, hanswers.published, hanswers.closed⟩

def shownUri : Uri := ⟨"file", some "", "/a.rs", ""⟩

def otherUri : Uri := ⟨"file", some "", "/b.rs", ""⟩

/-- A document with a weak call. -/
def weakDocument : String := "fn f() \x7b md5(); \x7d\n"

/-- A document is opened and later changed without a text. Another one is saved, which was never
opened, and closed. -/
def exchange : List (Disk × EditorMessage) :=
  [({}, .opened shownUri weakDocument), ({}, .saved otherUri), ({}, .changed shownUri []),
    ({}, .closed otherUri)]

theorem published_match_kept_exchange :
    (∀ m ∈ exchange, m.2 ≠ .shutdown) ∧
      (let said := (converse ⟨.running, Run.ofConfig {}, []⟩ exchange).2
      LastPublished said shownUri [⟨⟨⟨0, 9⟩, ⟨0, 12⟩⟩, .error, "weak-crypto",
        "`md5` is cryptographically broken"⟩] ∧
      LastPublished said otherUri []) := by
  have h : ∀ m ∈ exchange, m.2 ≠ .shutdown := by simp [exchange]
  have hkept : (converse ⟨.running, Run.ofConfig {}, []⟩ exchange).1.document? shownUri =
      some weakDocument := by decide +kernel
  have hfound : (Run.ofConfig {}).diagnosticsOf shownUri weakDocument =
      [⟨⟨⟨0, 9⟩, ⟨0, 12⟩⟩, .error, "weak-crypto", "`md5` is cryptographically broken"⟩] := by
    decide +kernel
  have hclosed : ClosedSince (exchange.map (·.2)) otherUri :=
    ⟨[.opened shownUri weakDocument, .saved otherUri, .changed shownUri []], .closed otherUri, [],
      rfl, rfl, by simp⟩
  have hmatch := published_match_kept (Run.ofConfig {}) exchange h
  exact ⟨h, hfound ▸ hmatch.2.1 shownUri weakDocument hkept, hmatch.2.2 otherUri hclosed⟩

end Session

end LintMend
