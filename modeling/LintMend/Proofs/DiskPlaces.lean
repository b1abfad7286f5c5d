import LintMend.Disk.Tree
import LintMend.Proofs.Cutting

/-!
# Places on a disk

A path whose last piece is a name leads to a place in a directory, whether something stands there or
not. Reading, writing and removing a file are described by that place and by what stands there. The
place does not move as long as all directories stay where they are.
-/

namespace LintMend

/-! ## Pieces of paths -/

theorem Text.splitWhen_ne_nil (p : Char → Bool) (cs : List Char) : splitWhen p cs ≠ [] := by
  cases cs with
  | nil => simp [splitWhen]
  | cons c cs =>
    unfold splitWhen
    split
    · simp
    · split <;> simp

theorem Text.splitWhen_append_cons {p : Char → Bool} {c : Char} (hc : p c = true)
    (pre post : List Char) : splitWhen p (pre ++ c :: post) = splitWhen p pre ++ splitWhen p post := by
  induction pre with
  | nil => simp [splitWhen, hc]
  | cons a pre ih =>
    rw [List.cons_append, splitWhen, ih]
    cases hpre : splitWhen p pre with
    | nil => exact absurd hpre (splitWhen_ne_nil p pre)
    | cons piece pieces =>
      by_cases ha : p a = true
      · simp [splitWhen, ha, hpre]
      · simp [splitWhen, ha, hpre]

theorem Text.splitWhen_eq_singleton {p : Char → Bool} {cs : List Char}
    (h : ∀ c ∈ cs, p c = false) : splitWhen p cs = [cs] := by
  induction cs with
  | nil => rfl
  | cons c cs ih =>
    rw [List.forall_mem_cons] at h
    simp [splitWhen, h.1, ih h.2]

namespace Path

/-- A piece of a path that names something in a directory. -/
structure IsName (piece : String) : Prop where
  slashless : '/' ∉ piece.toList
  ne_empty : piece ≠ ""
  ne_here : piece ≠ "."
  ne_up : piece ≠ ".."

/-- The pieces that lead to the directory in which the paths joined to `root` end. -/
def within (root : String) : List String :=
  if root == "" then []
  else if endsWithText root "/" then (splitAtChar root '/').dropLast
  else splitAtChar root '/'

theorem splitAtChar_of_slashless {s : String} (h : '/' ∉ s.toList) : splitAtChar s '/' = [s] := by
  have hnone : ∀ c ∈ s.toList, (c == '/') = false := by
    intro c hc
    rw [beq_eq_false_iff_ne]
    rintro rfl
    exact h hc
  rw [splitAtChar, Text.splitWhen_eq_singleton hnone]
  simp

theorem isAbsolute_of_slashless {s : String} (h : '/' ∉ s.toList) : isAbsolute s = false := by
  unfold isAbsolute startsWithText
  cases hs : s.toList with
  | nil => rfl
  | cons c cs =>
    rw [hs] at h
    have hc : c ≠ '/' := by
      rintro rfl
      exact h List.mem_cons_self
    simp [List.isPrefixOf, hc.symm]

theorem endsWithText_slash_iff {s : String} :
    endsWithText s "/" = true ↔ ∃ pre, s.toList = pre ++ ['/'] := by
  unfold endsWithText
  rw [List.isSuffixOf_iff_suffix]
  constructor
  · rintro ⟨pre, hpre⟩
    exact ⟨pre, hpre.symm⟩
  · rintro ⟨pre, hpre⟩
    exact ⟨pre, hpre.symm⟩

theorem splitAtChar_append_slash {s root name : String}
    (hs : s.toList = root.toList ++ '/' :: name.toList) (hname : '/' ∉ name.toList) :
    splitAtChar s '/' = splitAtChar root '/' ++ [name] := by
  have hsplit := splitAtChar_of_slashless hname
  unfold splitAtChar at hsplit ⊢
  rw [hs, Text.splitWhen_append_cons (by simp), List.map_append, hsplit]

theorem splitAtChar_join {root name : String} (hname : '/' ∉ name.toList) :
    splitAtChar (join root name) '/' = within root ++ [name] := by
  unfold join within
  rw [if_neg (by simp [isAbsolute_of_slashless hname])]
  by_cases hempty : root = ""
  · subst hempty
    simpa using splitAtChar_of_slashless hname
  · by_cases hslash : endsWithText root "/" = true
    · rcases endsWithText_slash_iff.1 hslash with ⟨pre, hpre⟩
      have hroot : splitAtChar root '/' = splitAtChar (String.ofList pre) '/' ++ [""] :=
        splitAtChar_append_slash (by simp [hpre]) (by simp)
      simp only [hempty, beq_iff_eq, hslash, Bool.or_true, if_true, if_false]
      rw [hroot, List.dropLast_concat]
      exact splitAtChar_append_slash (by simp [hpre]) hname
    · simp only [hempty, beq_iff_eq, hslash, Bool.or_false, if_false]
      exact splitAtChar_append_slash (by simp) hname

theorem isAbsolute_join {root name : String} (hname : '/' ∉ name.toList) :
    isAbsolute (join root name) = isAbsolute root := by
  unfold join
  rw [if_neg (by simp [isAbsolute_of_slashless hname])]
  by_cases hempty : root = ""
  · have hroot : isAbsolute "" = false := rfl
    subst hempty
    simpa [hroot] using isAbsolute_of_slashless hname
  · have hcons : ∃ c cs, root.toList = c :: cs := by
      cases hroot : root.toList with
      | nil => exact absurd (String.toList_eq_nil_iff.1 hroot) hempty
      | cons c cs => exact ⟨c, cs, rfl⟩
    rcases hcons with ⟨c, cs, hroot⟩
    split <;> simp [isAbsolute, startsWithText, hroot, List.isPrefixOf]

/-- What is joined to a path stands at the end. -/
theorem exists_toList_join (root : String) :
    ∃ pre : List Char, ∀ name : String, '/' ∉ name.toList →
      (join root name).toList = pre ++ name.toList := by
  by_cases hplain : (root == "" || endsWithText root "/") = true
  · refine ⟨root.toList, fun name hname => ?_⟩
    rw [join, if_neg (by simp [isAbsolute_of_slashless hname]), if_pos hplain, String.toList_append]
  · refine ⟨root.toList ++ ['/'], fun name hname => ?_⟩
    rw [join, if_neg (by simp [isAbsolute_of_slashless hname]), if_neg hplain]
    simp

/-- The path goes through the pieces and ends with a name. -/
structure LeadsTo (path : String) (pieces : List String) (name : String) : Prop where
  split_eq : splitAtChar path '/' = pieces ++ [name]
  isName : IsName name

theorem leadsTo_join {name : String} (h : IsName name) (root : String) :
    LeadsTo (join root name) (within root) name where
  split_eq := splitAtChar_join h.slashless
  isName := h

theorem LeadsTo.endsWithText_slash {path name : String} {pieces : List String}
    (h : LeadsTo path pieces name) : endsWithText path "/" = false := by
  cases hslash : endsWithText path "/" with
  | false => rfl
  | true =>
    rcases endsWithText_slash_iff.1 hslash with ⟨pre, hpre⟩
    have hsplit : splitAtChar path '/' = splitAtChar (String.ofList pre) '/' ++ [""] :=
      splitAtChar_append_slash (by simp [hpre]) (by simp)
    rw [h.split_eq] at hsplit
    have hlast := (List.append_inj' hsplit rfl).2
    exact absurd (List.singleton_inj.1 hlast) h.isName.ne_empty

end Path

/-- Taking out the entries of one key leaves what is found for another one. -/
theorem find?_filter_ne {κ α : Type} [BEq κ] [LawfulBEq κ] {l m : κ} (h : m ≠ l)
    (entries : List (κ × α)) :
    (entries.filter (·.1 != l)).find? (·.1 == m) = entries.find? (·.1 == m) := by
  rw [List.find?_filter]
  congr 1
  funext n
  by_cases hn : n.1 = m
  · simp [hn, h]
  · simp [hn]

namespace Disk

/-! ## What stands where -/

theorem node?_put_self {l : Location} (hl : l ≠ []) (d : Disk) (n : DiskNode) :
    (d.put l n).node? l = some n := by
  have hnone : (d.nodes.filter (·.1 != l)).find? (·.1 == l) = none := by
    rw [List.find?_eq_none]
    intro m hm
    simpa using (List.mem_filter.1 hm).2
  simp [node?, put, hl, List.find?_append, hnone]

theorem node?_put_of_ne {l m : Location} (h : m ≠ l) (d : Disk) (n : DiskNode) :
    (d.put l n).node? m = d.node? m := by
  simp only [node?, put, List.find?_append, find?_filter_ne h]
  have hother : ([(l, n)].find? fun x => x.1 == m) = none := by simp [h.symm]
  rw [hother, Option.or_none]

theorem node?_erase_self {l : Location} (hl : l ≠ []) (d : Disk) : (d.erase l).node? l = none := by
  have hnone : (d.nodes.filter (·.1 != l)).find? (·.1 == l) = none := by
    rw [List.find?_eq_none]
    intro m hm
    simpa using (List.mem_filter.1 hm).2
  simp [node?, erase, hl, hnone]

theorem node?_erase_of_ne {l m : Location} (h : m ≠ l) (d : Disk) :
    (d.erase l).node? m = d.node? m := by
  simp only [node?, erase, find?_filter_ne h]

theorem erase_put (d : Disk) (l : Location) (n : DiskNode) : (d.put l n).erase l = d.erase l := by
  simp [put, erase, List.filter_filter]

theorem put_put (d : Disk) (l : Location) (n m : DiskNode) : (d.put l n).put l m = d.put l m := by
  simp [put, List.filter_filter]

theorem erase_erase (d : Disk) (l : Location) : (d.erase l).erase l = d.erase l := by
  simp [erase, List.filter_filter]

/-- Every directory of the first disk is one of the second disk, and relative paths lead from the
same location. -/
structure Keeps (d d' : Disk) : Prop where
  here_eq : d'.here = d.here
  directory : ∀ l, d.node? l = some .directory → d'.node? l = some .directory

theorem Keeps.trans {d d' d'' : Disk} (h : Keeps d d') (h' : Keeps d' d'') : Keeps d d'' where
  here_eq := h'.here_eq.trans h.here_eq
  directory l hl := h'.directory l (h.directory l hl)

theorem keeps_of_node? {d d' : Disk} {l : Location} (hhere : d'.here = d.here)
    (hfree : d.node? l ≠ some .directory) (hnode : ∀ m, m ≠ l → d'.node? m = d.node? m) :
    Keeps d d' where
  here_eq := hhere
  directory m hm := by
    have hne : m ≠ l := by
      rintro rfl
      exact hfree hm
    rw [hnode m hne, hm]

theorem keeps_put {d : Disk} {l : Location} (h : d.node? l ≠ some .directory) (n : DiskNode) :
    Keeps d (d.put l n) :=
  keeps_of_node? rfl h fun _ hm => node?_put_of_ne hm d n

theorem keeps_erase {d : Disk} {l : Location} (h : d.node? l ≠ some .directory) :
    Keeps d (d.erase l) :=
  keeps_of_node? rfl h fun _ hm => node?_erase_of_ne hm d

/-- The disks have the same directories, and they differ at the places only. -/
structure AltersOnly (places : Location → Prop) (d d' : Disk) : Prop where
  keeps : d.Keeps d'
  kept : d'.Keeps d
  node : ∀ l, ¬ places l → d'.node? l = d.node? l

namespace AltersOnly

variable {places : Location → Prop} {d d' d'' : Disk} {l : Location}

theorem refl (places : Location → Prop) (d : Disk) : AltersOnly places d d :=
  ⟨⟨rfl, fun _ h => h⟩, ⟨rfl, fun _ h => h⟩, fun _ _ => rfl⟩

theorem trans (h : AltersOnly places d d') (h' : AltersOnly places d' d'') :
    AltersOnly places d d'' :=
  ⟨h.keeps.trans h'.keeps, h'.kept.trans h.kept, fun l hl => (h'.node l hl).trans (h.node l hl)⟩

theorem symm (h : AltersOnly places d d') : AltersOnly places d' d :=
  ⟨h.kept, h.keeps, fun l hl => (h.node l hl).symm⟩

theorem of_node? (hl : places l) (hhere : d'.here = d.here) (hfree : d.node? l ≠ some .directory)
    (hfree' : d'.node? l ≠ some .directory) (hnode : ∀ m, m ≠ l → d'.node? m = d.node? m) :
    AltersOnly places d d' where
  keeps := keeps_of_node? hhere hfree hnode
  kept := keeps_of_node? hhere.symm hfree' fun m hm => (hnode m hm).symm
  node m hm := hnode m fun heq => hm (heq ▸ hl)

theorem put (hl : places l) (hroot : l ≠ []) (hfree : d.node? l ≠ some .directory)
    (content : ByteArray) : AltersOnly places d (d.put l (.file content)) :=
  of_node? hl rfl hfree (by simp [node?_put_self hroot]) fun _ hm => node?_put_of_ne hm d _

theorem erase (hl : places l) (hroot : l ≠ []) (hfree : d.node? l ≠ some .directory) :
    AltersOnly places d (d.erase l) :=
  of_node? hl rfl hfree (by simp [node?_erase_self hroot]) fun _ hm => node?_erase_of_ne hm d

end AltersOnly

/-! ## Following paths to directories -/

theorem node?_of_step {d : Disk} {l m : Location} {piece : String} (h : d.step l piece = .ok m) :
    d.node? l = some .directory := by
  unfold step at h
  split at h
  · assumption
  · simp at h

/-- A step into a directory stays possible. -/
theorem step_of_keeps {d d' : Disk} (hkeeps : Keeps d d') {l m : Location} {piece : String}
    (h : d.step l piece = .ok m) (hm : d.node? m = some .directory) : d'.step l piece = .ok m := by
  have hl := node?_of_step h
  unfold step at h ⊢
  rw [hl] at h
  rw [hkeeps.directory l hl]
  simp only at h ⊢
  by_cases hhere : (piece == "" || piece == ".") = true
  · rwa [if_pos hhere] at h ⊢
  · rw [if_neg hhere] at h ⊢
    by_cases hup : (piece == "..") = true
    · rwa [if_pos hup] at h ⊢
    · rw [if_neg hup] at h ⊢
      by_cases hlong : 255 < byteLength piece
      · rwa [if_pos hlong] at h ⊢
      · rw [if_neg hlong] at h ⊢
        split at h
        · cases h
          rw [hkeeps.directory _ hm]
          rfl
        · simp at h

theorem follow_cons {d : Disk} {l m : Location} {piece : String} {pieces : List String} :
    d.follow l (piece :: pieces) = .ok m ↔
      ∃ next, d.step l piece = .ok next ∧ d.follow next pieces = .ok m := by
  unfold follow
  rw [List.foldlM_cons]
  cases d.step l piece with
  | error e => simp [bind, Except.bind]
  | ok next => simp [bind, Except.bind]

/-- A path to a directory leads to it on every disk that keeps the directories. -/
theorem follow_of_keeps {d d' : Disk} (hkeeps : Keeps d d') {l m : Location} {pieces : List String}
    (h : d.follow l pieces = .ok m) (hm : d.node? m = some .directory) :
    d'.follow l pieces = .ok m := by
  induction pieces generalizing l with
  | nil => exact h
  | cons piece pieces ih =>
    rcases follow_cons.1 h with ⟨next, hstep, hrest⟩
    -- What is passed on the way is a directory, and so is where the path ends.
    have hnext : d.node? next = some .directory := by
      cases pieces with
      | nil =>
        cases hrest
        exact hm
      | cons piece' pieces =>
        rcases follow_cons.1 hrest with ⟨after, hafter, -⟩
        exact node?_of_step hafter
    rw [follow_cons]
    exact ⟨next, step_of_keeps hkeeps hstep hnext, ih hrest⟩

theorem pathError?_eq_none_iff {path : String} :
    pathError? path = none ↔ path ≠ "" ∧ '\x00' ∉ path.toList ∧ byteLength path ≤ 4095 := by
  unfold pathError?
  by_cases hempty : path = ""
  · simp [hempty]
  · by_cases hnul : '\x00' ∈ path.toList
    · simp [hempty, hnul]
    · by_cases hlong : 4095 < byteLength path
      · simp [hempty, hnul, hlong]
      · simp [hempty, hnul, hlong, Nat.le_of_not_lt hlong]

/-! ## Places

The operations on a path that ends with a name, in terms of its place. -/

section

variable {path name : String} {pieces : List String} (h : Path.LeadsTo path pieces name)
include h

theorem newPlace_eq (d : Disk) :
    d.newPlace path =
      match pathError? path with
      | some e => .error e
      | none => (d.follow (d.startOf path) pieces).bind fun directory =>
        match d.node? directory with
        | some .directory =>
          if 255 < byteLength name then .error .nameTooLong else .ok (directory ++ [name])
        | _ => .error .notDirectory := by
  have hname : (name == "" || name == "." || name == "..") = false := by
    simp [h.isName.ne_empty, h.isName.ne_here, h.isName.ne_up]
  unfold newPlace
  cases pathError? path with
  | some e => rfl
  | none =>
    simp only [h.split_eq, List.dropLast_concat, List.getLastD_concat, hname]
    rfl

theorem exists_directory_of_newPlace {d : Disk} {l : Location} (hl : d.newPlace path = .ok l) :
    ∃ directory, l = directory ++ [name] := by
  rw [newPlace_eq h] at hl
  cases hpath : pathError? path with
  | some e => simp [hpath] at hl
  | none =>
    cases hfollow : d.follow (d.startOf path) pieces with
    | error e => simp [hpath, hfollow, Except.bind] at hl
    | ok directory =>
      simp only [hpath, hfollow, Except.bind] at hl
      split at hl
      · split at hl
        · simp at hl
        · exact ⟨directory, (Except.ok.inj hl).symm⟩
      · simp at hl

theorem locate_eq (d : Disk) :
    d.locate path = (d.newPlace path).bind fun l =>
      if (d.node? l).isSome then .ok l else .error .notFound := by
  rw [newPlace_eq h]
  unfold locate
  cases pathError? path with
  | some e => rfl
  | none =>
    simp only [h.split_eq, follow, List.foldlM_append, List.foldlM_cons, List.foldlM_nil, bind_pure]
    cases List.foldlM d.step (d.startOf path) pieces with
    | error e => rfl
    | ok directory =>
      have hhere : (name == "" || name == ".") = false := by
        simp [h.isName.ne_empty, h.isName.ne_here]
      have hup : (name == "..") = false := by simp [h.isName.ne_up]
      simp only [Except.bind, bind, step, hhere, hup]
      cases d.node? directory with
      | none => rfl
      | some node =>
        cases node with
        | file content => rfl
        | directory =>
          by_cases hlong : 255 < byteLength name
          · simp [hlong]
          · simp [hlong]

/-- The place stays the same if all directories do. -/
theorem newPlace_of_keeps {d d' : Disk} (hkeeps : Keeps d d') {l : Location}
    (hl : d.newPlace path = .ok l) : d'.newPlace path = .ok l := by
  have hstart : d'.startOf path = d.startOf path := by
    unfold startOf
    rw [hkeeps.here_eq]
  rw [newPlace_eq h] at hl ⊢
  cases hpath : pathError? path with
  | some e => simp [hpath] at hl
  | none =>
    simp only [hpath] at hl
    cases hfollow : d.follow (d.startOf path) pieces with
    | error e => simp [hfollow, Except.bind] at hl
    | ok directory =>
      simp only [hfollow, Except.bind] at hl
      cases hnode : d.node? directory with
      | none => simp [hnode] at hl
      | some node =>
        cases node with
        | file content => simp [hnode] at hl
        | directory =>
          simp only [hnode] at hl
          simp only [hstart, follow_of_keeps hkeeps hfollow hnode, Except.bind,
            hkeeps.directory directory hnode]
          exact hl

theorem write_eq (d : Disk) (content : ByteArray) :
    d.write path content = (d.newPlace path).bind fun l =>
      match d.node? l with
      | some .directory => .error .isDirectory
      | _ => .ok (d.put l (.file content)) := by
  unfold write
  rw [locate_eq h]
  cases hplace : d.newPlace path with
  | error e =>
    simp only [Except.bind]
    cases e <;> simp [h.endsWithText_slash, bind, Except.bind]
  | ok l =>
    simp only [Except.bind]
    cases hnode : d.node? l with
    | none => simp [h.endsWithText_slash, bind, Except.bind, pure, Except.pure]
    | some node => cases node <;> simp [hnode]

/-- A file can be written wherever no directory stands. -/
theorem write_of_free {d : Disk} {l : Location} (hl : d.newPlace path = .ok l)
    (hfree : d.node? l ≠ some .directory) (content : ByteArray) :
    d.write path content = .ok (d.put l (.file content)) := by
  rw [write_eq h, hl]
  cases hnode : d.node? l with
  | none => simp [Except.bind, hnode]
  | some node =>
    cases node with
    | file old => simp [Except.bind, hnode]
    | directory => exact absurd hnode hfree

/-- Whether a file can be written does not depend on its content. -/
theorem write_error {d : Disk} {e : FileError} {content : ByteArray}
    (herror : d.write path content = .error e) (content' : ByteArray) :
    d.write path content' = .error e := by
  rw [write_eq h] at herror ⊢
  cases hplace : d.newPlace path with
  | error e' =>
    rw [hplace] at herror
    exact herror
  | ok l =>
    simp only [hplace, Except.bind] at herror ⊢
    split at herror
    · exact herror
    · simp at herror

/-- Of two contents that are written one after the other, the second one stays. -/
theorem write_of_write {d written : Disk} {content : ByteArray}
    (hwritten : d.write path content = .ok written) (content' : ByteArray) :
    ∃ l, d.newPlace path = .ok l ∧ d.node? l ≠ some .directory ∧
      written = d.put l (.file content) ∧
      written.write path content' = .ok (d.put l (.file content')) := by
  cases hplace : d.newPlace path with
  | error e =>
    rw [write_eq h, hplace] at hwritten
    simp [Except.bind] at hwritten
  | ok l =>
    have hfree : d.node? l ≠ some .directory := by
      intro htaken
      rw [write_eq h, hplace] at hwritten
      simp [Except.bind, htaken] at hwritten
    have hput := write_of_free h hplace hfree content
    obtain rfl : d.put l (.file content) = written := Except.ok.inj (hput.symm.trans hwritten)
    have hname : l ≠ [] := by
      obtain ⟨directory, rfl⟩ := exists_directory_of_newPlace h hplace
      simp
    refine ⟨l, rfl, hfree, rfl, ?_⟩
    rw [write_of_free h (newPlace_of_keeps h (keeps_put hfree _) hplace), put_put]
    rw [node?_put_self hname]
    simp

theorem read_eq (d : Disk) :
    d.read path = (d.newPlace path).bind fun l =>
      match d.node? l with
      | some (.file content) => .ok content
      | some .directory => .error .isDirectory
      | none => .error .notFound := by
  unfold read
  rw [locate_eq h]
  cases d.newPlace path with
  | error e => rfl
  | ok l =>
    simp only [Except.bind]
    cases hnode : d.node? l with
    | none => simp [bind, Except.bind]
    | some node => cases node <;> simp [hnode, bind, Except.bind]

theorem removeFile_eq (d : Disk) :
    d.removeFile path = (d.newPlace path).bind fun l =>
      match d.node? l with
      | some (.file _) => .ok (d.erase l)
      | some .directory => .error .isDirectory
      | none => .error .notFound := by
  unfold removeFile
  rw [locate_eq h]
  cases d.newPlace path with
  | error e => rfl
  | ok l =>
    simp only [Except.bind]
    cases hnode : d.node? l with
    | none => simp [bind, Except.bind]
    | some node => cases node <;> simp [hnode, bind, Except.bind]

end

end Disk

end LintMend
