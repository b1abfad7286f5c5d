import LintMend.Proofs.TomlLines

/-!
# Sections

The lines of sections are taken one by one into the table that is being put together. Sections are
described by what they add to the table at a path, wherever that table stands, so that those of a tree
follow from those of its parts.
-/

namespace LintMend.Toml

/-! ## Filling -/

/-- Reading the sections takes the one filling to the other. -/
def Fills (sections : List Section) (f f' : Filling) : Prop :=
  ∃ lines, (∀ first, Reads (sectionsText first sections) lines) ∧
    lines.foldlM Filling.step? f = some f'

theorem Fills.nil (f : Filling) : Fills [] f f := ⟨[], fun _ => .nil, rfl⟩

theorem Fills.append {sections sections' : List Section} {f f' f'' : Filling}
    (h : Fills sections f f') (h' : Fills sections' f' f'') : Fills (sections ++ sections') f f'' := by
  rcases h with ⟨lines, hread, hfold⟩
  rcases h' with ⟨lines', hread', hfold'⟩
  refine ⟨lines ++ lines', ?_, ?_⟩
  · intro first
    rw [sectionsText_append]
    exact (hread first).append (hread' _)
  · rw [List.foldlM_append, hfold]
    exact hfold'

/-- A section that is left out changes nothing. -/
theorem Fills.omitted (f : Filling) : Fills [⟨none, []⟩] f f := ⟨[], fun _ => .nil, rfl⟩

/-- The pair of an entry as a line. -/
def Line.ofEntry (e : String × Toml) : Line := .pair ([], e.1) e.2

/-- The section holds the lines of these entries. -/
structure Section.Holds (s : Section) (entries : List (String × Toml)) : Prop where
  lines : s.lines.map String.toList = entries.map assignment
  readBack : ∀ e ∈ entries, ReadBack 0 e.2

theorem Section.Holds.reads {s : Section} {entries : List (String × Toml)} (h : s.Holds entries) :
    Reads (ended s.lines) (entries.map .ofEntry) := by
  have htext : ended s.lines = entries.flatMap fun e => assignment e ++ ['\n'] := by
    calc
      _ = (s.lines.map String.toList).flatMap (· ++ ['\n']) := by rw [List.flatMap_map]; rfl
      _ = _ := by rw [h.lines, List.flatMap_map]
  have hback := h.readBack
  rw [htext]
  clear htext h
  induction entries with
  | nil => exact .nil
  | cons e entries ih =>
    rw [List.forall_mem_cons] at hback
    rw [List.flatMap_cons, List.map_cons]
    exact (Reads.pair hback.1).append (ih hback.2)

/-- Pairs with new keys go behind the others. -/
theorem foldlM_ofEntry {f : Filling} {entries : List (String × Toml)}
    (h : (f.current.map (·.1) ++ entries.map (·.1)).Nodup) :
    (entries.map Line.ofEntry).foldlM Filling.step? f =
      some { f with current := f.current ++ entries.map fun e => (e.1, .value e.2) } := by
  have hfold : (entries.map Line.ofEntry).foldlM Filling.step? f =
      (Draft.addPairs (entries.map undotted) f.current).map fun current => { f with current } := by
    clear h
    induction entries generalizing f with
    | nil => rfl
    | cons e entries ih =>
      have hstep : f.step? (.ofEntry e) =
          (Draft.addPair [] e.1 e.2 f.current).map fun current => { f with current } := rfl
      rw [List.map_cons, List.map_cons, List.foldlM_cons, Draft.addPairs, List.foldlM_cons, hstep,
        undotted]
      dsimp only
      cases Draft.addPair [] e.1 e.2 f.current with
      | none => rfl
      | some current => exact ih
  rw [hfold, addPairs_undotted h, Option.map_some]

/-! ## The table at a path -/

section Focus

variable {path path' : List String} {key : String}

theorem descend_append
    (change : Bool → List (String × Draft) → Option (List (String × Draft)))
    (path path' : List String) (here : Bool) (entries : List (String × Draft)) :
    Draft.descend false change (path ++ path') here entries =
      Draft.descend false (Draft.descend false change path') path here entries := by
  induction path generalizing here entries with
  | nil => rfl
  | cons key path ih =>
    rw [List.cons_append, Draft.descend, Draft.descend]
    simp only [ih]

theorem descend_singleton
    (change : Bool → List (String × Draft) → Option (List (String × Draft))) (key : String) :
    Draft.descend false change [key] = fun _ => Draft.descend false change [key] false := rfl

theorem follow?_append (path path' : List String) (entries : List (String × Draft)) :
    Filling.follow? (path ++ path') entries =
      (Filling.follow? path entries).bind (Filling.follow? path') := by
  induction path generalizing entries with
  | nil => rfl
  | cons key path ih =>
    rw [List.cons_append, Filling.follow?, Filling.follow?]
    cases lookup? entries key with
    | none =>
      cases path' with
      | nil => rfl
      | cons key' path' => rfl
    | some d =>
      cases d with
      | value v => rfl
      | table passing dotted inner => exact ih inner
      | tables items =>
        dsimp only
        rw [Option.bind_assoc]
        simp only [ih]

/-- The table at the path, if there is one, is where the rest leaves room: it can be found, and a
change of it changes nothing else. -/
structure Focus (path : List String)
    (around : Option (List (String × Draft)) → List (String × Draft)) : Prop where
  follow : ∀ table, Filling.follow? path (around table) = some (table.getD [])
  descend : ∀ table change, Draft.descend false (fun _ => change) path false (around table) =
    (change (table.getD [])).map fun table => around (some table)

variable {around : Option (List (String × Draft)) → List (String × Draft)}
  {base : List (String × Draft)}

theorem Focus.root : Focus [] (Option.getD · []) := by
  refine ⟨fun _ => rfl, ?_⟩
  intro table change
  exact (Option.map_id' ..).symm

theorem lookup?_concat (h : key ∉ base.map (·.1)) (d : Draft) :
    lookup? (base ++ [(key, d)]) key = some d := by
  have hfound : base.find? (·.1 == key) = none := Option.map_eq_none_iff.1 (lookup?_eq_none_iff.2 h)
  rw [lookup?, List.find?_append, hfound]
  simp

theorem set_concat (h : key ∉ base.map (·.1)) (d d' : Draft) :
    Draft.set key d' (base ++ [(key, d)]) = base ++ [(key, d')] := by
  induction base with
  | nil => simp [Draft.set]
  | cons e base ih =>
    rw [List.map_cons, List.mem_cons, not_or] at h
    rw [List.cons_append, Draft.set, if_neg (by simpa using Ne.symm h.1), ih h.2, List.cons_append]

/-- What stands under a key leads to a table inside it. -/
structure Slot (slot : List (String × Draft) → Draft) : Prop where
  follow : ∀ {key entries inner}, lookup? entries key = some (slot inner) →
    Filling.follow? [key] entries = some inner
  descend : ∀ {key entries inner} change here, lookup? entries key = some (slot inner) →
    Draft.descend false (fun _ => change) [key] here entries =
      (change inner).map fun inner => Draft.set key (slot inner) entries

theorem Slot.table (passing : Bool) : Slot (.table passing false) := by
  refine ⟨?_, ?_⟩
  · intro key entries inner hfound
    simp [Filling.follow?, hfound]
  · intro key entries inner change here hfound
    simp only [Draft.descend, hfound]
    cases change inner <;> rfl

/-- The last item of an array of tables. -/
theorem Slot.item (items : List (List (String × Draft))) :
    Slot fun inner => .tables (items ++ [inner]) := by
  refine ⟨?_, ?_⟩
  · intro key entries inner hfound
    simp [Filling.follow?, hfound]
  · intro key entries inner change here hfound
    simp only [Draft.descend, hfound, List.getLast?_concat, List.dropLast_concat,
      Option.bind_eq_bind, Option.bind_some]
    cases change inner <;> rfl

/-- A table inside the last entry of the table at the path. -/
theorem Focus.into (h : Focus path around) {slot : List (String × Draft) → Draft} (hslot : Slot slot)
    (hkey : key ∉ base.map (·.1)) :
    Focus (path ++ [key]) fun table => around (some (base ++ [(key, slot (table.getD []))])) := by
  have hfound := fun inner => lookup?_concat hkey (slot inner)
  refine ⟨?_, ?_⟩
  · intro table
    rw [follow?_append, h.follow, Option.getD_some, Option.bind_some, hslot.follow (hfound _)]
  · intro table change
    have hinner := hslot.descend change false (hfound (table.getD []))
    rw [descend_append, descend_singleton, h.descend, Option.getD_some, hinner, Option.map_map]
    simp only [Function.comp_def, set_concat hkey, Option.getD_some]

/-- What stands around a table inside a table that only the first header below it makes. -/
def through (key : String) (around : Option (List (String × Draft)) → List (String × Draft))
    (table : Option (List (String × Draft))) : Option (List (String × Draft)) → List (String × Draft)
  | none => around table
  | some inner => around (some (table.getD [] ++ [(key, .table true false inner)]))

theorem Focus.through (h : Focus path around) {table : Option (List (String × Draft))}
    (hkey : key ∉ (table.getD []).map (·.1)) : Focus (path ++ [key]) (through key around table) := by
  have hfound := fun inner => lookup?_concat hkey (.table true false inner)
  have hmissing := lookup?_eq_none_iff.2 hkey
  refine ⟨?_, ?_⟩
  · intro inner
    cases inner with
    | none =>
      rw [Toml.through, follow?_append, h.follow, Option.bind_some, Filling.follow?, hmissing]
      rfl
    | some inner =>
      rw [Toml.through, follow?_append, h.follow, Option.getD_some, Option.bind_some,
        (Slot.table true).follow (hfound _)]
      rfl
  · intro inner change
    rw [descend_append, descend_singleton]
    cases inner with
    | none =>
      have hnew : Draft.descend false (fun _ => change) [key] false (table.getD []) =
          (change []).map fun inner => table.getD [] ++ [(key, .table true false inner)] := by
        simp only [Draft.descend, hmissing, Draft.set_of_notMem hkey]
        cases change [] <;> rfl
      rw [Toml.through, h.descend, hnew, Option.map_map]
      rfl
    | some inner =>
      rw [Toml.through, h.descend, Option.getD_some,
        (Slot.table true).descend change false (hfound _), Option.map_map]
      simp only [Function.comp_def, set_concat hkey, Option.getD_some, Toml.through]

end Focus

/-! ## What sections add -/

/-- The table with further entries. A table that is not there is made by the first of them. -/
def extended (table : Option (List (String × Draft))) (drafts : List (String × Draft)) :
    Option (List (String × Draft)) :=
  if drafts.isEmpty then table else some (table.getD [] ++ drafts)

theorem extended_of_ne_nil (table : Option (List (String × Draft))) {drafts : List (String × Draft)}
    (h : drafts ≠ []) : extended table drafts = some (table.getD [] ++ drafts) := by
  simp [extended, h]

theorem getD_extended (table : Option (List (String × Draft))) (drafts : List (String × Draft)) :
    (extended table drafts).getD [] = table.getD [] ++ drafts := by
  cases drafts with
  | nil => simp [extended]
  | cons d drafts => simp [extended]

theorem extended_extended (table : Option (List (String × Draft)))
    (drafts drafts' : List (String × Draft)) :
    extended (extended table drafts) drafts' = extended table (drafts ++ drafts') := by
  cases drafts' with
  | nil => simp [extended]
  | cons d drafts' =>
    rw [extended_of_ne_nil _ (List.cons_ne_nil d drafts'), getD_extended, List.append_assoc,
      extended_of_ne_nil _ (by simp)]

/-- Wherever the table at the path stands, reading the sections adds the entries to it. -/
def Adds (path : List String) (sections : List Section) (entries : List (String × Toml)) : Prop :=
  ∀ ⦃around : Option (List (String × Draft)) → List (String × Draft)⦄
    ⦃table : Option (List (String × Draft))⦄ ⦃f : Filling⦄, Focus path around →
    ((table.getD []).map (·.1) ++ entries.map (·.1)).Nodup → f.close? = some (around table) →
    ∃ f' drafts, Fills sections f f' ∧ f'.close? = some (around (extended table drafts)) ∧
      Draft.entriesToToml drafts = entries

section Adds

variable {path : List String} {key : String} {sections sections' : List Section}
  {plain entries entries' : List (String × Toml)}

theorem notMem_of_nodup {keys : List String} (h : (keys ++ [key]).Nodup) : key ∉ keys := by
  intro hmem
  exact (List.nodup_append.1 h).2.2 key hmem key List.mem_cons_self rfl

theorem Adds.nil (path : List String) : Adds path [] [] := by
  intro around table f _ _ hclose
  exact ⟨f, [], .nil f, hclose, rfl⟩

theorem entriesToToml_append (drafts drafts' : List (String × Draft)) :
    Draft.entriesToToml (drafts ++ drafts') =
      Draft.entriesToToml drafts ++ Draft.entriesToToml drafts' := by
  rw [Draft.entriesToToml_eq_map, Draft.entriesToToml_eq_map, Draft.entriesToToml_eq_map,
    List.map_append]

theorem keys_values (entries : List (String × Toml)) :
    (entries.map fun e => (e.1, Draft.value e.2)).map (·.1) = entries.map (·.1) := by
  rw [List.map_map]
  rfl

theorem Adds.append (h : Adds path sections entries) (h' : Adds path sections' entries') :
    Adds path (sections ++ sections') (entries ++ entries') := by
  intro around table f hfocus hkeys hclose
  rw [List.map_append, ← List.append_assoc] at hkeys
  rcases h hfocus (List.nodup_append.1 hkeys).1 hclose with ⟨f₁, drafts, hfills, hclose, hentries⟩
  have hkeys' : (((extended table drafts).getD []).map (·.1) ++ entries'.map (·.1)).Nodup := by
    rw [getD_extended, List.map_append, ← Draft.keys_entriesToToml drafts, hentries]
    exact hkeys
  rcases h' hfocus hkeys' hclose with ⟨f₂, drafts', hfills', hclose', hentries'⟩
  refine ⟨f₂, drafts ++ drafts', hfills.append hfills', ?_, ?_⟩
  · rw [hclose', extended_extended]
  · rw [entriesToToml_append, hentries, hentries']

/-- A section that is left out adds nothing. -/
theorem Adds.omitted (h : Adds path sections entries) :
    Adds path (⟨none, []⟩ :: sections) entries := by
  intro around table f hfocus hkeys hclose
  rcases h hfocus hkeys hclose with ⟨f', drafts, hfills, hclose, hentries⟩
  exact ⟨f', drafts, (Fills.omitted f).append hfills, hclose, hentries⟩

/-- Reading a header and the lines under it. -/
theorem Fills.opened {s : Section} {header : String} {line : Line} {f f' : Filling}
    (hheader : s.header = some header) (hreads : Reads (header.toList ++ ['\n']) [line])
    (hstep : f.step? line = some f') (hcurrent : f'.current = []) (hplain : s.Holds plain)
    (hkeys : (plain.map (·.1)).Nodup) :
    Fills [s] f { f' with current := plain.map fun e => (e.1, .value e.2) } := by
  have hblank : ∀ first : Bool, Reads (if first then [] else ['\n']) [] := by
    intro first
    cases first with
    | true => exact .nil
    | false => exact .blank
  refine ⟨line :: plain.map .ofEntry, ?_, ?_⟩
  · intro first
    rw [sectionsText, sectionsText, List.append_nil, Section.text, hheader]
    exact ((hblank first).append hreads).append hplain.reads
  · rw [List.foldlM_cons, hstep]
    refine (foldlM_ofEntry ?_).trans ?_
    · rw [hcurrent]
      exact hkeys
    · rw [hcurrent, List.nil_append]

/-- A header makes a table of the lines under it and of what the sections below add. -/
theorem Adds.headed {s : Section} {header : String} (hheader : s.header = some header)
    (htext : header.toList = '[' :: (pathText (path ++ [key]) ++ [']']))
    (hpath : path.length + 1 < depthLimit) (hplain : s.Holds plain)
    (hinner : (plain.map (·.1) ++ entries.map (·.1)).Nodup)
    (h : Adds (path ++ [key]) sections entries) :
    Adds path (s :: sections) [(key, .table (sortEntries (plain ++ entries)))] := by
  intro around table f hfocus hkeys hclose
  have hkey := notMem_of_nodup hkeys
  let opened : Filling := ⟨around table, some (path, key), false, []⟩
  let drafts : List (String × Draft) := plain.map fun e => (e.1, .value e.2)
  have hstep : f.step? (.header (path, key)) = some opened := by
    simp [Filling.step?, hclose, hfocus.follow, Filling.startOf?, lookup?_eq_none_iff.2 hkey, opened]
  have hreads : Reads (header.toList ++ ['\n']) [.header (path, key)] := by
    rw [htext]
    exact .header key hpath
  have hopened := Fills.opened hheader hreads hstep rfl hplain (List.nodup_append.1 hinner).1
  have hclosed : Filling.close? { opened with current := drafts } =
      some (around (some (table.getD [] ++ [(key, .table false false drafts)]))) := by
    refine (hfocus.descend table fun entries =>
      some (Draft.set key (.table false false drafts) entries)).trans ?_
    rw [Option.map_some, Draft.set_of_notMem hkey]
  have hkeys' : ((some drafts).getD [] |>.map (·.1)) ++ entries.map (·.1) =
      plain.map (·.1) ++ entries.map (·.1) := by rw [Option.getD_some, keys_values]
  rcases h (hfocus.into (.table false) hkey) (hkeys' ▸ hinner) hclosed with
    ⟨f', below, hfills, hclose', hentries⟩
  refine ⟨f', [(key, .table false false (drafts ++ below))], hopened.append hfills, ?_, ?_⟩
  · rw [hclose', getD_extended, extended_of_ne_nil _ (List.cons_ne_nil _ _)]
    rfl
  · rw [Draft.entriesToToml, Draft.entriesToToml, Draft.toToml, entriesToToml_append,
      entriesToToml_value, hentries]

/-- Sections below a table for which no header is written make the table. -/
theorem Adds.through (hentries : entries ≠ []) (hinner : (entries.map (·.1)).Nodup)
    (h : Adds (path ++ [key]) sections entries) :
    Adds path sections [(key, .table (sortEntries entries))] := by
  intro around table f hfocus hkeys hclose
  have hkey := notMem_of_nodup hkeys
  rcases @h _ none f (hfocus.through hkey) hinner hclose with ⟨f', below, hfills, hclose', rfl⟩
  have hbelow : below ≠ [] := by
    rintro rfl
    exact hentries rfl
  refine ⟨f', [(key, .table true false below)], hfills, ?_, ?_⟩
  · rw [hclose', extended_of_ne_nil _ hbelow, extended_of_ne_nil _ (List.cons_ne_nil _ _)]
    rfl
  · rw [Draft.entriesToToml, Draft.entriesToToml, Draft.toToml]

/-! ## Arrays of tables -/

/-- A table in which an array of tables stands last, if it has items. -/
def withItems (table : Option (List (String × Draft))) (key : String) :
    List (List (String × Draft)) → Option (List (String × Draft))
  | [] => table
  | items => some (table.getD [] ++ [(key, .tables items)])

theorem withItems_concat (table : Option (List (String × Draft))) (key : String)
    (items : List (List (String × Draft))) (item : List (String × Draft)) :
    withItems table key (items ++ [item]) =
      some (table.getD [] ++ [(key, .tables (items ++ [item]))]) := by
  cases items <;> rfl

/-- Reading the sections adds the tables to the array that stands last in the table at the path. -/
def AddsItems (path : List String) (key : String) (sections : List Section) (tables : List Toml) :
    Prop :=
  ∀ ⦃around : Option (List (String × Draft)) → List (String × Draft)⦄
    ⦃table : Option (List (String × Draft))⦄ ⦃items : List (List (String × Draft))⦄ ⦃f : Filling⦄,
    Focus path around → key ∉ (table.getD []).map (·.1) →
    f.close? = some (around (withItems table key items)) →
    ∃ f' items', Fills sections f f' ∧
      f'.close? = some (around (withItems table key (items ++ items'))) ∧
      Draft.itemsToToml items' = tables

theorem AddsItems.nil (path : List String) (key : String) : AddsItems path key [] [] := by
  intro around table items f _ _ hclose
  exact ⟨f, [], .nil f, by rw [List.append_nil]; exact hclose, rfl⟩

/-- The header of an item opens a new table at the end of the array. -/
theorem AddsItems.cons {s : Section} {header : String} {tables : List Toml}
    (hheader : s.header = some header)
    (htext : header.toList = '[' :: '[' :: (pathText (path ++ [key]) ++ [']', ']']))
    (hpath : path.length + 1 < depthLimit) (hplain : s.Holds plain)
    (hinner : (plain.map (·.1) ++ entries.map (·.1)).Nodup)
    (h : Adds (path ++ [key]) sections entries) (h' : AddsItems path key sections' tables) :
    AddsItems path key (s :: sections ++ sections')
      (.table (sortEntries (plain ++ entries)) :: tables) := by
  intro around table items f hfocus hkey hclose
  let opened : Filling := ⟨around (withItems table key items), some (path, key), true, []⟩
  let drafts : List (String × Draft) := plain.map fun e => (e.1, .value e.2)
  have hfound : lookup? ((withItems table key items).getD []) key =
      if items = [] then none else some (.tables items) := by
    cases items with
    | nil => exact lookup?_eq_none_iff.2 hkey
    | cons item items => exact lookup?_concat hkey _
  have hstep : f.step? (.arrayHeader (path, key)) = some opened := by
    simp only [Filling.step?, hclose, hfocus.follow, Option.bind_eq_bind, Option.bind_some, hfound]
    cases items <;> rfl
  have hreads : Reads (header.toList ++ ['\n']) [.arrayHeader (path, key)] := by
    rw [htext]
    exact .arrayHeader key hpath
  have hopened := Fills.opened hheader hreads hstep rfl hplain (List.nodup_append.1 hinner).1
  have hclosed : Filling.close? { opened with current := drafts } =
      some (around (some (table.getD [] ++ [(key, .tables (items ++ [drafts]))]))) := by
    refine (hfocus.descend (withItems table key items) _).trans ?_
    simp only [hfound, opened, if_true]
    cases items with
    | nil =>
      rw [if_pos rfl, Option.map_some]
      exact congrArg (fun entries => some (around (some entries))) (Draft.set_of_notMem hkey _)
    | cons item items =>
      rw [if_neg (List.cons_ne_nil item items), Option.map_some]
      exact congrArg (fun entries => some (around (some entries))) (set_concat hkey _ _)
  have hkeys' : ((some drafts).getD [] |>.map (·.1)) ++ entries.map (·.1) =
      plain.map (·.1) ++ entries.map (·.1) := by rw [Option.getD_some, keys_values]
  rcases h (hfocus.into (.item items) hkey) (hkeys' ▸ hinner) hclosed with
    ⟨f₁, below, hfills, hclose₁, hentries⟩
  rw [getD_extended, Option.getD_some, ← withItems_concat] at hclose₁
  rcases h' hfocus hkey hclose₁ with ⟨f₂, items', hfills', hclose₂, hitems⟩
  refine ⟨f₂, (drafts ++ below) :: items', (hopened.append hfills).append hfills', ?_, ?_⟩
  · rw [hclose₂, List.append_assoc, List.singleton_append]
  · rw [Draft.itemsToToml, entriesToToml_append, entriesToToml_value, hentries, hitems]

/-- An array of tables. -/
theorem Adds.array {tables : List Toml} (htables : tables ≠ [])
    (h : AddsItems path key sections tables) : Adds path sections [(key, .array tables)] := by
  intro around table f hfocus hkeys hclose
  have hkey := notMem_of_nodup hkeys
  rcases @h _ table [] f hfocus hkey hclose with ⟨f', items, hfills, hclose', rfl⟩
  refine ⟨f', [(key, .tables items)], hfills, ?_, ?_⟩
  · rw [hclose', extended_of_ne_nil _ (List.cons_ne_nil _ _)]
    cases items with
    | nil => exact absurd rfl htables
    | cons item items => rfl
  · rw [Draft.entriesToToml, Draft.entriesToToml, Draft.toToml]

/-! ## Trees -/

theorem Adds.flatMap {α : Type} {xs : List α} {sectionsOf : α → List Section}
    {entryOf : α → String × Toml} (h : ∀ x ∈ xs, Adds path (sectionsOf x) [entryOf x]) :
    Adds path (xs.flatMap sectionsOf) (xs.map entryOf) := by
  induction xs with
  | nil => exact .nil path
  | cons x xs ih =>
    rw [List.forall_mem_cons] at h
    rw [List.flatMap_cons, List.map_cons]
    exact h.1.append (ih h.2)

/-- Sections of the entries that are selected. -/
theorem flatMap_filter (path : List String) (selected : Toml → Bool)
    (entries : List (String × Toml)) :
    (entries.flatMap fun e => if selected e.2 then e.2.sections (path ++ [e.1]) else []) =
      (entries.filter (selected ·.2)).flatMap fun e => e.2.sections (path ++ [e.1]) := by
  induction entries with
  | nil => rfl
  | cons e entries ih =>
    rw [List.flatMap_cons, ih, List.filter_cons]
    split
    · rw [List.flatMap_cons]
    · rfl

theorem arrayEntrySections_eq (path : List String) (entries : List (String × Toml)) :
    arrayEntrySections path entries =
      entries.flatMap fun e => if e.2.isSectionArray then e.2.sections (path ++ [e.1]) else [] := by
  induction entries with
  | nil => rw [arrayEntrySections, List.flatMap_nil]
  | cons e entries ih => rw [arrayEntrySections, ih, List.flatMap_cons]

theorem tableEntrySections_eq (path : List String) (entries : List (String × Toml)) :
    tableEntrySections path entries =
      entries.flatMap fun e => if e.2.isTable then e.2.sections (path ++ [e.1]) else [] := by
  induction entries with
  | nil => rw [tableEntrySections, List.flatMap_nil]
  | cons e entries ih => rw [tableEntrySections, ih, List.flatMap_cons]

/-- The entries with sections of their own, in the order of their sections. -/
def sectionEntries (entries : List (String × Toml)) : List (String × Toml) :=
  entries.filter (·.2.isSectionArray) ++ entries.filter (·.2.isTable)

theorem tableSections_eq (path : List String) (entries : List (String × Toml)) :
    tableSections path entries =
      (sectionEntries entries).flatMap fun e => e.2.sections (path ++ [e.1]) := by
  rw [tableSections, arrayEntrySections_eq, tableEntrySections_eq, flatMap_filter, flatMap_filter,
    sectionEntries, List.flatMap_append]

theorem isSectionArray_of_isTable {v : Toml} (h : v.isTable = true) : v.isSectionArray = false := by
  cases v with
  | table => rfl
  | _ => cases h

theorem sectionEntries_perm (entries : List (String × Toml)) :
    (sectionEntries entries).Perm (entries.filter (·.2.isSection)) := by
  induction entries with
  | nil => exact .nil
  | cons e entries ih =>
    unfold sectionEntries at ih ⊢
    by_cases htable : e.2.isTable = true
    · simp only [List.filter_cons, isSection, htable, isSectionArray_of_isTable htable]
      exact List.perm_middle.trans (ih.cons e)
    · by_cases harray : e.2.isSectionArray = true
      · simp only [List.filter_cons, isSection, htable, harray]
        exact ih.cons e
      · simp only [List.filter_cons, isSection, htable, harray]
        exact ih

theorem Section.holds_of_plainLines {s : Section} (hlines : s.lines = plainLines entries)
    (h : ∀ e ∈ entries, e.2.isSection = false → ReadBack 0 e.2) :
    s.Holds (entries.filter (!·.2.isSection)) := by
  refine ⟨?_, ?_⟩
  · rw [hlines, plainLines, List.map_map]
    exact List.map_congr_left fun e _ => toList_assignment e
  · intro e he
    rw [List.mem_filter, Bool.not_eq_true'] at he
    exact h e he.1 he.2

theorem toList_header (path : List String) :
    ("[" ++ ".".intercalate (path.map quoteKey) ++ "]").toList =
      '[' :: (pathText path ++ [']']) := by
  rw [String.toList_append, String.toList_append]
  rfl

theorem toList_arrayHeader (path : List String) :
    ("[[" ++ ".".intercalate (path.map quoteKey) ++ "]]").toList =
      '[' :: '[' :: (pathText path ++ [']', ']']) := by
  rw [String.toList_append, String.toList_append]
  rfl

/-- The lines of a section and the entries of those inside it make the whole table. -/
theorem perm_of_sections {written nested : List (String × Toml)} (hwritten : written.Perm entries)
    (hnested : nested.Perm (entries.filter (·.2.isSection))) :
    (written.filter (!·.2.isSection) ++ nested).Perm entries :=
  ((hwritten.filter _).append hnested).trans
    (List.perm_append_comm.trans (List.filter_append_perm _ entries))

/-- The section of a table and those inside it. -/
theorem Adds.own {written nested : List (String × Toml)} (hwritten : written.Perm entries)
    (hnested : nested.Perm (entries.filter (·.2.isSection))) (hsorted : Ascending entries)
    (hplain : ∀ e ∈ entries, e.2.isSection = false → ReadBack 0 e.2)
    (hpath : path.length + 1 < depthLimit) (h : Adds (path ++ [key]) sections nested) :
    Adds path (ownSection (path ++ [key]) false written :: sections) [(key, .table entries)] := by
  have hperm := perm_of_sections hwritten hnested
  have hkeys : ((written.filter (!·.2.isSection)).map (·.1) ++ nested.map (·.1)).Nodup := by
    rw [← List.map_append]
    exact ((hperm.map _).nodup_iff).2 hsorted.nodup
  unfold ownSection
  dsimp only
  rw [if_neg (by simp), if_neg (by simp)]
  split
  · next homitted =>
    rw [Bool.and_eq_true, List.isEmpty_iff, plainLines, List.map_eq_nil_iff] at homitted
    rw [homitted.1, List.nil_append] at hperm
    have hnested' : nested ≠ [] := by
      rintro rfl
      rw [List.nil_perm.1 hperm] at hwritten
      simp [List.perm_nil.1 hwritten] at homitted
    rw [← sortEntries_eq hperm hsorted]
    exact (Adds.through hnested' (List.nodup_append.1 hkeys).2.1 h).omitted
  · rw [← sortEntries_eq hperm hsorted]
    exact .headed rfl (toList_header _) hpath
      (Section.holds_of_plainLines rfl fun e he => hplain e (hwritten.mem_iff.1 he)) hkeys h

theorem AddsItems.own {written nested : List (String × Toml)} {tables : List Toml}
    (hwritten : written.Perm entries) (hnested : nested.Perm (entries.filter (·.2.isSection)))
    (hsorted : Ascending entries) (hplain : ∀ e ∈ entries, e.2.isSection = false → ReadBack 0 e.2)
    (hpath : path.length + 1 < depthLimit) (h : Adds (path ++ [key]) sections nested)
    (h' : AddsItems path key sections' tables) :
    AddsItems path key (ownSection (path ++ [key]) true written :: sections ++ sections')
      (.table entries :: tables) := by
  have hperm := perm_of_sections hwritten hnested
  have hkeys : ((written.filter (!·.2.isSection)).map (·.1) ++ nested.map (·.1)).Nodup := by
    rw [← List.map_append]
    exact ((hperm.map _).nodup_iff).2 hsorted.nodup
  unfold ownSection
  dsimp only
  rw [if_neg (by simp), if_pos rfl, ← sortEntries_eq hperm hsorted]
  exact .cons rfl (toList_arrayHeader _) hpath
    (Section.holds_of_plainLines rfl fun e he => hplain e (hwritten.mem_iff.1 he)) hkeys h h'

/-- The sections of a tree add it under its key, and those inside a table add its entries. -/
structure Sectioned (n : Nat) (v : Toml) : Prop where
  own : ∀ {path : List String} {key : String}, path.length + n < depthLimit → v.isSection = true →
    Adds path (v.sections (path ++ [key])) [(key, v)]
  inside : ∀ {path : List String} {entries : List (String × Toml)}, v = .table entries →
    path.length + n ≤ depthLimit → Adds path (tableSections path entries) (sectionEntries entries)

theorem Sectioned.of_not_isSection {n : Nat} {v : Toml} (h : v.isSection = false) :
    Sectioned n v := by
  refine ⟨?_, ?_⟩
  · intro path key _ hsection
    rw [h] at hsection
    cases hsection
  · rintro path entries rfl
    cases h

/-- The sections of the items of an array. -/
theorem AddsItems.arraySections {n : Nat} {items : List Toml} (h : ∀ v ∈ items, Writable n v)
    (hsectioned : ∀ v ∈ items, Sectioned n v) (htables : ∀ v ∈ items, v.isTable = true)
    (hpath : path.length + (n + 1) < depthLimit) :
    AddsItems path key (Toml.arraySections (path ++ [key]) items) items := by
  induction items with
  | nil =>
    rw [Toml.arraySections]
    exact .nil path key
  | cons v items ih =>
    rw [List.forall_mem_cons] at h hsectioned htables
    cases h.1 with
    | @table n entries hkeys hentries =>
      have hinside := hsectioned.1.inside rfl
        (by rw [List.length_append, List.length_singleton]; omega :
          (path ++ [key]).length + (n + 1) ≤ depthLimit)
      rw [Toml.arraySections]
      exact .own (arranged_perm entries) (sectionEntries_perm entries) hkeys
        (fun e he _ => (hentries e he).readBack (by omega)) (by omega) hinside
        (ih h.2 hsectioned.2 htables.2)
    | _ => cases htables.1

theorem Writable.sectioned {n : Nat} {v : Toml} (h : Writable n v) : Sectioned n v := by
  induction h with
  | string n s => exact .of_not_isSection rfl
  | integer n h => exact .of_not_isSection rfl
  | boolean n b => exact .of_not_isSection rfl
  | datetime n h => exact .of_not_isSection rfl
  | @array n items h ih =>
    refine ⟨?_, ?_⟩
    · intro path key hpath hsection
      simp only [isSection, isTable, isSectionArray, Bool.false_or, Bool.and_eq_true,
        Bool.not_eq_true', List.isEmpty_eq_false_iff, List.all_eq_true] at hsection
      rw [sections]
      exact .array hsection.1 (.arraySections h ih hsection.2 hpath)
    · rintro path entries ⟨⟩
  | @table n entries hkeys h ih =>
    have hinside : ∀ {path : List String}, path.length + (n + 1) ≤ depthLimit →
        Adds path (tableSections path entries) (sectionEntries entries) := by
      intro path hpath
      have hall : ∀ e ∈ sectionEntries entries, Adds path (e.2.sections (path ++ [e.1])) [id e] := by
        intro e he
        rw [(sectionEntries_perm entries).mem_iff, List.mem_filter] at he
        exact (ih e he.1).own (by omega) he.2
      have hadds := Adds.flatMap hall
      rwa [List.map_id, ← tableSections_eq] at hadds
    refine ⟨?_, ?_⟩
    · intro path key hpath _
      rw [sections]
      exact .own (arranged_perm entries) (sectionEntries_perm entries) hkeys
        (fun e he _ => (h e he).readBack (by omega)) (by omega)
        (hinside (by rw [List.length_append, List.length_singleton]; omega))
    · rintro path entries ⟨⟩ hpath
      exact hinside hpath

/-! ## Documents -/

/-- The lines in front of all headers go to the root. -/
theorem Fills.root {s : Section} (hheader : s.header = none) (hplain : s.Holds plain)
    (hkeys : (plain.map (·.1)).Nodup) :
    Fills [s] {} ⟨[], none, false, plain.map fun e => (e.1, .value e.2)⟩ := by
  refine ⟨plain.map .ofEntry, ?_, foldlM_ofEntry hkeys⟩
  intro first
  rw [sectionsText, sectionsText, List.append_nil, Section.text, hheader]
  exact hplain.reads

/-- A text that is read as lines is read to its end. -/
theorem Reads.lines? {text : List Char} {lines : List Line} (h : Reads text lines) :
    Toml.lines? (text.length + 1) [] text = some lines := by
  rcases h (text.length + 1) [] [] (by simp) with ⟨fuel, hfuel, hread⟩
  obtain ⟨fuel, rfl⟩ : ∃ n, fuel = n + 1 := ⟨fuel - 1, by rw [List.length_nil] at hfuel; omega⟩
  rw [List.append_nil, List.append_nil] at hread
  rw [hread, Toml.lines?]
  exact congrArg some (List.reverse_reverse lines)

theorem dropMark_sectionsText {s : Section} (hheader : s.header = none) {e : String × Toml}
    (hplain : s.Holds (e :: plain)) (sections : List Section) :
    dropMark (sectionsText true (s :: sections)) = sectionsText true (s :: sections) := by
  rcases List.map_eq_cons_iff.1 hplain.lines with ⟨line, lines, hlines, hline, -⟩
  rcases exists_assignment e with ⟨c, cs, htext, hc⟩
  rw [sectionsText, Section.text, hheader, hlines, ended, List.flatMap_cons, hline, htext, dropMark]
  intro cs heq
  exact ne_of_isKeyStart hc (by decide) (List.cons.inj heq).1

/-- A document that begins with a pair is read as its pairs and what its sections add. -/
theorem parse?_renderSections {s : Section} (hheader : s.header = none) {e : String × Toml}
    (hplain : s.Holds (e :: plain)) (hkeys : ((e :: plain).map (·.1) ++ entries.map (·.1)).Nodup)
    (h : Adds [] sections entries) :
    parse? (renderSections (s :: sections)) =
      some (.table (sortEntries (e :: plain ++ entries))) := by
  let drafts : List (String × Draft) := (e :: plain).map fun e => (e.1, .value e.2)
  have hroot := Fills.root hheader hplain (List.nodup_append.1 hkeys).1
  have hkeys' : ((some drafts).getD [] |>.map (·.1)) ++ entries.map (·.1) =
      (e :: plain).map (·.1) ++ entries.map (·.1) := by rw [Option.getD_some, keys_values]
  have hclosed : Filling.close? ⟨[], none, false, drafts⟩ = some ((some drafts).getD []) := rfl
  rcases h Focus.root (hkeys' ▸ hkeys) hclosed with ⟨f, below, hfills, hclose, hentries⟩
  rcases hroot.append hfills with ⟨lines, hreads, hfold⟩
  have hlines := (hreads true).lines?
  rw [List.singleton_append] at hlines
  rw [parse?, toList_renderSections, dropMark_sectionsText hheader hplain, hlines]
  simp only [Option.bind_eq_bind, Option.bind_some]
  rw [hfold, Option.bind_some, hclose, Option.bind_some, getD_extended, Option.getD_some,
    entriesToToml_append, entriesToToml_value, hentries]
  rfl

end Adds

end LintMend.Toml
