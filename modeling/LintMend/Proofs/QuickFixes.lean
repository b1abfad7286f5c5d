import LintMend.Editor.Session
import LintMend.Proofs.EditorPositions
import LintMend.Proofs.ProposedFixes

/-!
# Quick fixes

A quick fix is a patch whose offsets have become cursors. An editor that makes the edits of a quick fix
comes to the text that applying the patch gives exactly if both ends of the patched span are
addressable. Otherwise it replaces something that stands before the span, and that never comes to the
same text.
-/

namespace LintMend

/-! ## Misplaced replacements -/

/-- A replacement that is longer than what it replaces, and in which its first element does not recur,
gives another list when it is made too early. -/
theorem replaced_ne {α : Type} {front part back tail : List α} {head : α} {a : Nat}
    (hhead : head ∉ tail) (hpos : 0 < part.length) (hlt : part.length < (head :: tail).length)
    (ha : a < front.length) :
    (front ++ (part ++ back)).take a ++
        ((head :: tail) ++ (front ++ (part ++ back)).drop (a + part.length)) ≠
      front ++ ((head :: tail) ++ back) := by
  intro heq
  have hlength : ((front ++ (part ++ back)).take a).length = a := by
    rw [List.length_take, List.length_append]
    omega
  -- Behind the early replacement, the elements up to the right place repeat those of its tail.
  have hrepeat : ∀ j, a < j → j ≤ front.length → ∃ i, 1 ≤ i ∧
      (front ++ ((head :: tail) ++ back))[j]? = (head :: tail)[i]? := by
    intro j
    induction j using Nat.strong_induction_on with
    | h j ih =>
      intro haj hj
      by_cases hinside : j - a < (head :: tail).length
      · refine ⟨j - a, by omega, ?_⟩
        rw [← heq, List.getElem?_append_right (by omega), hlength, List.getElem?_append_left hinside]
      · have hback : a + part.length + (j - a - (head :: tail).length) < front.length := by omega
        rcases ih _ (by omega) (by omega) hback.le with ⟨i, hi, hsame⟩
        refine ⟨i, hi, ?_⟩
        calc (front ++ ((head :: tail) ++ back))[j]?
            = (front ++ (part ++ back))[a + part.length + (j - a - (head :: tail).length)]? := by
              rw [← heq, List.getElem?_append_right (by omega), hlength,
                List.getElem?_append_right (Nat.not_lt.1 hinside), List.getElem?_drop]
          _ = (front ++ ((head :: tail) ++ back))[a + part.length +
                (j - a - (head :: tail).length)]? := by
              rw [List.getElem?_append_left hback, List.getElem?_append_left hback]
          _ = (head :: tail)[i]? := hsame
  rcases hrepeat front.length ha (Nat.le_refl _) with ⟨i, hi, hsame⟩
  rw [List.getElem?_append_right (Nat.le_refl _), Nat.sub_self] at hsame
  cases i with
  | zero => omega
  | succ i => exact hhead (List.mem_of_getElem? hsame.symm)

/-! ## The editor's edits -/

namespace Client

open Text

/-- Where an edit is made in a document, and what it puts there. -/
def placed (us : List Nat) (e : DocumentEdit) : Nat × Nat × List Nat :=
  (min (offset us e.range.start) (offset us e.range.stop),
    max (offset us e.range.start) (offset us e.range.stop), units e.replacement.toList)

/-- The document from an offset on, with edits made. -/
def weave (us : List Nat) (last : Nat) : List (Nat × Nat × List Nat) → List Nat
  | [] => us.drop last
  | (start, stop, new) :: rest => (us.take start).drop last ++ (new ++ weave us stop rest)

/-- The document with all edits made. Offsets are those of the document as it was. -/
def apply (us : List Nat) (edits : List DocumentEdit) : List Nat :=
  weave us 0 ((edits.map (placed us)).mergeSort fun a b => a.1 ≤ b.1)

theorem apply_singleton (us : List Nat) (e : DocumentEdit) :
    apply us [e] = us.take (placed us e).1 ++ ((placed us e).2.2 ++ us.drop (placed us e).2.1) := by
  rw [apply, List.map_singleton, List.mergeSort_singleton]
  rfl

/-- An editor replaces the right part exactly if it finds both ends of it. -/
theorem apply_eq_iff {text : String} {front part back : List Char}
    (htext : text.toList = front ++ (part ++ back)) {replacement : String} {head : Nat}
    {tail : List Nat} (hnew : units replacement.toList = head :: tail) (hhead : head ∉ tail)
    (hpos : 0 < (units part).length) (hlt : (units part).length < (units replacement.toList).length) :
    let index := LineIndex.ofText text
    apply (units text.toList) [⟨⟨.ofOffset text index (bytes front),
        .ofOffset text index (bytes front + bytes part)⟩, replacement⟩] =
      units (front ++ (replacement.toList ++ back)) ↔
        Addressable front ∧ Addressable (front ++ part) := by
  have hstart := offset_ofOffset htext
  have hstop := offset_ofOffset (htext.trans (List.append_assoc front part back).symm)
  have hunits : units text.toList = units front ++ (units part ++ units back) := by
    rw [htext, units_append, units_append]
  rw [bytes_append, length_units_append] at hstop
  dsimp only at hstart hstop ⊢
  rw [← hstart.2, ← hstop.2, apply_singleton]
  simp only [placed]
  generalize offset (units text.toList) (Cursor.ofOffset text (LineIndex.ofText text) (bytes front)) = a
    at hstart ⊢
  generalize offset (units text.toList) (Cursor.ofOffset text (LineIndex.ofText text)
    (bytes front + bytes part)) = b at hstop ⊢
  rw [hunits, units_append, units_append]
  constructor
  · intro heq
    have hlengths := congrArg List.length heq
    simp only [List.length_append, List.length_take, List.length_drop] at hlengths
    by_cases hearly : min a b < (units front).length
    · -- Lengths agree only if as much is replaced as should be, and then the place is wrong.
      have hwidth : max a b = min a b + (units part).length := by omega
      rw [hwidth, hnew] at heq
      rw [hnew] at hlt
      exact absurd heq (replaced_ne hhead hpos hlt hearly)
    · omega
  · rintro ⟨rfl, rfl⟩
    have hdrop : (units front ++ (units part ++ units back)).drop
        ((units front).length + (units part).length) = units back := by
      rw [← List.append_assoc, ← List.length_append, List.drop_left]
    rw [Nat.min_eq_left (Nat.le_add_right _ _), Nat.max_eq_right (Nat.le_add_right _ _),
      List.take_left, hdrop]

end Client

/-- A proposed name is longer than what it replaces, and its first letter does not recur. -/
theorem WeakCrypto.Proposes.widths {c : Context} {x : Expression} {p : Patch}
    {segment replacement : String} {offset : Nat} (h : Proposes c x p segment replacement offset) :
    0 < byteLength segment ∧ byteLength segment ≤ 4 ∧ ∃ head tail,
      Text.units (matchCase segment replacement).toList = head :: tail ∧ head ∉ tail ∧
        tail.length = 5 := by
  rcases h.known with ⟨rfl, weak, hweak, hletters⟩
  have hknown : ∀ known ∈ ["md5", "md4", "sha1"], 0 < byteLength known ∧ byteLength known ≤ 4 := by
    decide +kernel
  rw [byteLength_eq hletters, matchCase_eq, strongName]
  refine ⟨(hknown weak hweak).1, (hknown weak hweak).2, ?_⟩
  split
  · exact ⟨83, [104, 97, 50, 53, 54], by decide +kernel, by decide, rfl⟩
  · exact ⟨115, [104, 97, 50, 53, 54], by decide +kernel, by decide, rfl⟩

/-! ## Sessions -/

/-- The sessions that messages can lead to. -/
inductive Session.Reached : Session → Prop
  | start (disk : Disk) : Reached (Session.start disk)
  | handle {s : Session} (h : Reached s) (disk : Disk) (message : EditorMessage) :
    Reached (s.handle disk message).1

namespace Session

theorem run_handle (s : Session) (disk : Disk) (message : EditorMessage) :
    (s.handle disk message).1.run = s.run ∨
      ∃ config, (s.handle disk message).1.run = Run.ofConfig config := by
  unfold handle
  cases s.phase with
  | fresh =>
    cases message with
    | greeting folders root =>
      simp only [enter]
      cases workspaceRoot? folders root with
      | none => exact .inl rfl
      | some root => exact .inr ⟨_, rfl⟩
    | _ => exact .inl rfl
  | running =>
    cases message with
    | changed uri texts =>
      simp only [handleRunning]
      cases texts.getLast? <;> exact .inl rfl
    | _ => exact .inl rfl
  | stopped => exact .inl rfl

/-- A session works with the built-in rules. -/
theorem Reached.exists_run {s : Session} (h : s.Reached) : ∃ config, s.run = Run.ofConfig config := by
  induction h with
  | start disk => exact ⟨_, rfl⟩
  | handle h disk message ih =>
    cases run_handle _ disk message with
    | inl hsame => rwa [hsame]
    | inr hnew => exact hnew

theorem quickFixes_of_handle {s : Session} {disk : Disk} {uri : Uri} {range : CursorRange}
    {offered : List QuickFix}
    (h : (s.handle disk (.fixesFor uri range)).2 = .fixes (some offered)) :
    s.quickFixes disk uri range = some offered := by
  unfold handle at h
  cases hphase : s.phase with
  | running =>
    rw [hphase] at h
    exact EditorReply.fixes.inj h
  | fresh =>
    rw [hphase] at h
    cases h
  | stopped =>
    rw [hphase] at h
    cases h

theorem exists_patch_of_quickFix? {text : String} {index : LineIndex} {uri : Uri} {range : CursorRange}
    {i : Issue} {q : QuickFix} (h : quickFix? text index uri range i = some q) :
    ∃ patch, i.fix = some (.patch patch) ∧ q.edits = patch.edits.map fun e =>
      ⟨⟨.ofOffset text index e.span.start, .ofOffset text index e.span.stop⟩, e.replacement⟩ := by
  rw [quickFix?] at h
  split at h
  · next patch hpatch =>
    dsimp only at h
    split at h
    · cases h
      exact ⟨patch, hpatch, rfl⟩
    · cases h
  · cases h

/-- What is found in a document is found by the built-in rules in the unit that it is read as. -/
theorem exists_unit_of_issuesFor {s : Session} {config : Config} (hrun : s.run = Run.ofConfig config)
    {disk : Disk} {uri : Uri} {text : String} {issues : List Issue}
    (h : s.issuesFor disk uri = some (text, issues)) :
    ∃ path name u, uri.filePath? = some path ∧ Frontend.parse name path text = .ok u ∧
      issues = ((Run.ofConfig config).check u).issues := by
  simp only [issuesFor, Option.bind_eq_bind, Option.bind_eq_some_iff, Option.pure_def,
    Option.some.injEq, Prod.mk.injEq] at h
  rcases h with ⟨path, hpath, document, -, name, -, report, hreport, rfl, rfl⟩
  rw [hrun, Run.checkSource] at hreport
  cases hparse : Frontend.parse name path document with
  | error err =>
    rw [hparse] at hreport
    cases hreport
  | ok u =>
    refine ⟨path, name, u, hpath, hparse, ?_⟩
    rw [hparse] at hreport
    cases hreport
    rfl

end Session

/-! ## What an editor makes of a quick fix -/

/-- The place behind so many bytes of the text is addressable. -/
def AddressableAt (text : String) (offset : Nat) : Prop :=
  ∃ front back, text.toList = front ++ back ∧ Text.bytes front = offset ∧ Addressable front

theorem addressableAt_iff {text : String} {front back : List Char} {offset : Nat}
    (htext : text.toList = front ++ back) (hoffset : Text.bytes front = offset) :
    AddressableAt text offset ↔ Addressable front := by
  constructor
  · rintro ⟨front', back', htext', hoffset', h⟩
    have hsame := Text.append_inj_of_bytes (htext.symm.trans htext') (hoffset.trans hoffset'.symm)
    rwa [hsame.1]
  · exact fun h => ⟨front, back, htext, hoffset, h⟩

namespace WeakCrypto

variable {c : Context} {x : Expression} {p : Patch} {segment replacement : String} {offset : Nat}

/-- An editor makes of the patch what applying it makes, exactly if both ends are addressable. -/
theorem Proposes.apply_iff (h : Proposes c x p segment replacement offset) {text patched : String}
    (hpatched : p.apply text = .ok (.ok patched)) {e : PatchEdit} (he : p.edits = [e]) :
    Client.apply (Text.units text.toList) (p.edits.map fun e =>
        ⟨⟨.ofOffset text (LineIndex.ofText text) e.span.start,
          .ofOffset text (LineIndex.ofText text) e.span.stop⟩, e.replacement⟩) =
      Text.units patched.toList ↔ AddressableAt text e.span.start ∧ AddressableAt text e.span.stop := by
  rcases h.widths with ⟨hpos, hshort, head, tail, hnew, hhead, htail⟩
  rcases p with ⟨description, edits⟩
  cases he
  rcases Patch.apply_singleton_iff.1 hpatched with
    ⟨front, part, back, htext, hstart, hstop, -, rfl⟩
  cases List.singleton_inj.1 h.edits
  have hwidth : Text.bytes part = byteLength segment := by
    have hspan : Text.bytes front + Text.bytes part =
      x.origin.span.start + offset + byteLength segment := hstop
    have hfront : Text.bytes front = x.origin.span.start + offset := hstart
    omega
  have hlower : part.length ≤ (Text.units part).length := Text.length_le_length_units part
  have hupper := Text.length_units_le_bytes part
  have hne : 0 < part.length := by
    rw [List.length_pos_iff]
    rintro rfl
    rw [← hwidth] at hpos
    exact absurd hpos (Nat.lt_irrefl 0)
  have hlonger : (Text.units part).length <
      (Text.units (matchCase segment replacement).toList).length := by
    rw [hnew, List.length_cons]
    omega
  rw [addressableAt_iff htext hstart,
    addressableAt_iff (htext.trans (List.append_assoc front part back).symm)
      ((Text.bytes_append front part).trans hstop),
    List.map_singleton, String.toList_ofList, ← hstart, ← hstop]
  exact Client.apply_eq_iff htext hnew hhead (by omega) hlonger

end WeakCrypto

/-- For every quick fix that a session offers, an editor comes to the patched text exactly if both
ends of the patched span are addressable. The patch of a document in source text always applies. -/
theorem Session.quickFix_iff_addressable {s : Session} (hs : s.Reached) {disk : Disk} {uri : Uri}
    {range : CursorRange} {offered : List QuickFix}
    (h : (s.handle disk (.fixesFor uri range)).2 = .fixes (some offered)) {q : QuickFix}
    (hq : q ∈ offered) :
    ∃ text issues i patch e, s.issuesFor disk uri = some (text, issues) ∧ i ∈ issues ∧
      quickFix? text (LineIndex.ofText text) uri range i = some q ∧ i.fix = some (.patch patch) ∧
      patch.edits = [e] ∧
      (∀ patched, patch.apply text = .ok (.ok patched) →
        (Client.apply (Text.units text.toList) q.edits = Text.units patched.toList ↔
          AddressableAt text e.span.start ∧ AddressableAt text e.span.stop)) ∧
      (uri.filePath?.bind Format.ofPath? = some .rust →
        ∃ patched, patch.apply text = .ok (.ok patched)) := by
  have hoffered : s.quickFixes disk uri range = some offered := quickFixes_of_handle h
  rcases Option.map_eq_some_iff.1 hoffered with ⟨⟨text, issues⟩, hissues, rfl⟩
  rcases List.mem_filterMap.1 hq with ⟨i, hi, hfix⟩
  rcases exists_patch_of_quickFix? hfix with ⟨patch, hpatch, hedits⟩
  rcases hs.exists_run with ⟨config, hrun⟩
  rcases exists_unit_of_issuesFor hrun hissues with ⟨path, name, u, hpath, hparse, rfl⟩
  rcases mem_builtin_of_mem_issues hi with ⟨r, hr, e, he, hfound⟩
  rcases WeakCrypto.proposes_of_mem hr hfound hpatch with
    ⟨statement, x, segment, replacement, offset, rfl, hproposes⟩
  refine ⟨text, _, i, patch, _, hissues, hi, hfix, hpatch, hproposes.edits, ?_, ?_⟩
  · intro patched hpatched
    rw [hedits]
    exact hproposes.apply_iff hpatched hproposes.edits
  · intro hformat
    rw [hpath] at hformat
    rcases Dispatcher.exists_unitOf hformat hparse with ⟨items, rfl⟩
    have hin := Entity.in_of_mem_walk he
    have hstands := (Rust.stands_of_mem_statements hin.1).expressions x hin.2
    rcases hproposes.exists_apply hstands.2 with ⟨front, back, -, -, happly⟩
    exact ⟨_, happly⟩

namespace Session

/-- A document with a character beyond the basic plane in front of a weak call. -/
def smiling : String := "fn f() \x7b /*😀*/ md5(); \x7d\n"

def smilingUri : Uri := ⟨"file", some "", "/a.rs", ""⟩

/-- A session in which the document has been opened. -/
def smilingSession : Session where
  phase := .running
  run := Run.ofConfig (({} : Config).anchorTo ".")
  documents := [(smilingUri, smiling)]

/-- The patch for the weak call. -/
def smilingPatch : Patch := ⟨"Replace `md5` with `sha256`", [⟨⟨18, 21⟩, "md5", "sha256"⟩]⟩

/-- The quick fix for the weak call. -/
def smilingFix : QuickFix where
  title := "Replace `md5` with `sha256`"
  diagnostic :=
    ⟨⟨⟨0, 15⟩, ⟨0, 18⟩⟩, .error, "weak-crypto", "`md5` is cryptographically broken"⟩
  uri := smilingUri
  edits := [⟨⟨⟨0, 15⟩, ⟨0, 18⟩⟩, "sha256"⟩]

theorem reached_smilingSession : smilingSession.Reached := by
  have hmissing : ({} : Disk).exists? (Path.join "." Config.fileName) = false := by decide +kernel
  have hconfig : Config.loadOrDefault {} "." = ({} : Config).anchorTo "." := by
    simp [Config.loadOrDefault, Config.load, hmissing, Except.toOption]
  have hreached := ((Reached.start {}).handle {} (.greeting [] none)).handle {}
    (.opened smilingUri smiling)
  rw [start, hconfig] at hreached
  exact hreached

theorem handle_smilingSession :
    (smilingSession.handle {} (.fixesFor smilingUri ⟨⟨0, 0⟩, ⟨1, 0⟩⟩)).2 =
      .fixes (some [smilingFix]) := by
  have hfixes : smilingSession.quickFixes {} smilingUri ⟨⟨0, 0⟩, ⟨1, 0⟩⟩ = some [smilingFix] := by
    decide +kernel
  exact congrArg EditorReply.fixes hfixes

theorem quickFix_iff_addressable_smiling :
    smilingSession.Reached ∧
      (smilingSession.handle {} (.fixesFor smilingUri ⟨⟨0, 0⟩, ⟨1, 0⟩⟩)).2 =
        .fixes (some [smilingFix]) ∧
      ∃ text issues i patch e patched, smilingSession.issuesFor {} smilingUri = some (text, issues) ∧
        i ∈ issues ∧ i.fix = some (.patch patch) ∧ patch.edits = [e] ∧
        patch.apply text = .ok (.ok patched) ∧
        (Client.apply (Text.units text.toList) smilingFix.edits = Text.units patched.toList ↔
          AddressableAt text e.span.start ∧ AddressableAt text e.span.stop) := by
  refine ⟨reached_smilingSession, handle_smilingSession, ?_⟩
  rcases quickFix_iff_addressable reached_smilingSession handle_smilingSession List.mem_cons_self with
    ⟨text, issues, i, patch, e, hissues, hi, -, hpatch, he, hiff, hrust⟩
  rcases hrust (by decide +kernel) with ⟨patched, hpatched⟩
  exact ⟨text, issues, i, patch, e, patched, hissues, hi, hpatch, he, hpatched, hiff patched hpatched⟩

/-- The editor begins one unit too early, since the server counts the two units of the character in
front of the call as one. -/
theorem quickFix_misses_smiling :
    (smilingSession.handle {} (.fixesFor smilingUri ⟨⟨0, 0⟩, ⟨1, 0⟩⟩)).2 =
        .fixes (some [smilingFix]) ∧
      (smilingSession.issuesFor {} smilingUri).map
        (fun found => (found.1, found.2.filterMap Issue.patch?)) = some (smiling, [smilingPatch]) ∧
      smilingPatch.apply smiling = .ok (.ok "fn f() \x7b /*😀*/ sha256(); \x7d\n") ∧
      Client.apply (Text.units smiling.toList) smilingFix.edits =
        Text.units "fn f() \x7b /*😀*/sha2565(); \x7d\n".toList ∧
      Text.units "fn f() \x7b /*😀*/sha2565(); \x7d\n".toList ≠
        Text.units "fn f() \x7b /*😀*/ sha256(); \x7d\n".toList := by
  refine ⟨handle_smilingSession, by decide +kernel, ?_, ?_, by decide +kernel⟩
  · apply Patch.apply_singleton_iff.2
    exact ⟨"fn f() \x7b /*😀*/ ".toList, "md5".toList, "(); \x7d\n".toList, by decide +kernel,
      by decide +kernel, by decide +kernel, by decide +kernel, by decide +kernel⟩
  · rw [smilingFix, Client.apply_singleton]
    decide +kernel

end Session

end LintMend
