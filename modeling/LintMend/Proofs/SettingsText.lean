import LintMend.Config.Text
import LintMend.Proofs.TomlSections

/-!
# Settings that are written and read again

Settings have a tree, and reading the tree gives the settings. The text of settings is read as their
tree as long as the options of rules hold no floats and do not nest too deep.
-/

namespace LintMend

open Toml

/-! ## Trees of settings -/

namespace RuleSettings

/-- The entries of a rule. Options and a severity that are missing are left out. -/
def entries (s : RuleSettings) : List (String × Toml) :=
  [("enabled", .boolean s.enabled)] ++
    (if s.options.isEmpty then [] else [("options", .table s.options)]) ++
    s.severity.toList.map fun severity => ("severity", .string severity.name)

/-- The settings of a rule as a tree. -/
def toToml (s : RuleSettings) : Toml := .table s.entries

theorem ofToml?_toToml (s : RuleSettings) : ofToml? s.toToml = some s := by
  rcases s with ⟨enabled, severity, options⟩
  cases severity with
  | none => cases options <;> rfl
  | some severity => cases severity <;> cases options <;> rfl

end RuleSettings

namespace Config

/-- The entries of automatic fixing. -/
def fixEntries (c : Config) : List (String × Toml) :=
  [("enabled", .boolean c.autofix.enabled), ("mode", .string c.autofix.mode),
    ("output_dir", .string c.autofix.outputDir),
    ("suggestion_timeout_ms", .integer c.autofix.suggestionTimeout)]

/-- The entries of the markers. -/
def markerEntries (c : Config) : List (String × Toml) :=
  [("file", .string c.directives.file), ("next_line", .string c.directives.nextLine)]

/-- The entries of the rules. -/
def ruleEntries (c : Config) : List (String × Toml) := c.rules.map fun r => (r.1, r.2.toToml)

/-- The entries of all settings. -/
def entries (c : Config) : List (String × Toml) :=
  [("autofix", .table c.fixEntries), ("directives", .table c.markerEntries),
    ("ignore", .array (c.ignore.map .string)),
    ("performance", .table [("parallel", .boolean c.parallel)]), ("rules", .table c.ruleEntries)]

/-- All settings as a tree. -/
def toToml (c : Config) : Toml := .table c.entries

theorem mapM_of_leftInverse {α β : Type} {decode : β → Option α} {encode : α → β}
    (h : ∀ a, decode (encode a) = some a) (as : List α) : (as.map encode).mapM decode = some as := by
  induction as with
  | nil => rfl
  | cons a as ih =>
    rw [List.map_cons, List.mapM_cons, h, ih]
    rfl

theorem ofToml?_toToml (c : Config) : ofToml? c.toToml = some c := by
  have hrecord : c.toToml.record? ["ignore", "rules", "autofix", "directives", "performance"] =
      some [some (.array (c.ignore.map .string)), some (.table c.ruleEntries),
        some (.table c.fixEntries), some (.table c.markerEntries),
        some (.table [("parallel", .boolean c.parallel)])] := rfl
  have hignore : list? text? (.array (c.ignore.map .string)) = some c.ignore := by
    refine mapM_of_leftInverse ?_ c.ignore
    intro pattern
    rfl
  have hrules : rulesOfToml? (.table c.ruleEntries) = some c.rules := by
    refine mapM_of_leftInverse ?_ c.rules
    intro r
    exact congrArg (Option.map fun s => (r.1, s)) r.2.ofToml?_toToml
  have hfixes : FixSettings.ofToml? (.table c.fixEntries) = some c.autofix := rfl
  have hmarkers : Markers.ofToml? (.table c.markerEntries) = some c.directives := rfl
  have hparallel : parallelOfToml? (.table [("parallel", .boolean c.parallel)]) = some c.parallel :=
    rfl
  rw [ofToml?, hrecord]
  simp only [Option.bind_eq_bind, Option.bind_some, withDefault?, hignore, hrules, hfixes, hmarkers,
    hparallel]
  rfl

end Config

/-! ## Settings that were read -/

theorem Toml.Proper.entries? {v : Toml} (hv : v.Proper) {entries : List (String × Toml)}
    (h : v.entries? = some entries) : Ascending entries ∧ ∀ e ∈ entries, e.2.Proper := by
  cases hv with
  | table hkeys hentries =>
    cases h
    exact ⟨hkeys, hentries⟩
  | datetime hs =>
    cases h
    exact ⟨List.pairwise_singleton _ _, List.forall_mem_singleton.2 (.string _)⟩
  | _ => cases h

theorem Toml.Proper.record? {v : Toml} (hv : v.Proper) {names : List String}
    {fields : List (Option Toml)} (h : v.record? names = some fields) :
    ∀ field ∈ fields, ∀ w ∈ field, w.Proper := by
  rw [Toml.record?.eq_def] at h
  split at h
  · cases hv with
    | array hitems =>
      cases h
      intro field hfield w hw
      rcases List.mem_mapIdx.1 hfield with ⟨i, _, rfl⟩
      exact hitems w (List.mem_of_getElem? hw)
  · rcases Option.map_eq_some_iff.1 h with ⟨entries, hentries, rfl⟩
    intro field hfield w hw
    rcases List.mem_map.1 hfield with ⟨name, -, rfl⟩
    exact (hv.entries? hentries).2 _ (mem_of_lookup? hw)

/-- Settings as they are read: rules and options in the order of their names, and the timeout within
64 bits. -/
structure Config.Proper (c : Config) : Prop where
  rules : Ascending c.rules
  options : ∀ r ∈ c.rules, Ascending r.2.options ∧ ∀ o ∈ r.2.options, o.2.Proper
  timeout : c.autofix.suggestionTimeout < signedLimit

theorem FixSettings.timeout_lt {v : Toml} (hv : v.Proper) {s : FixSettings}
    (h : FixSettings.ofToml? v = some s) : s.suggestionTimeout < signedLimit := by
  rcases Option.bind_eq_some_iff.1 h with ⟨fields, hfields, h⟩
  have hproper := hv.record? hfields
  split at h
  · next timeout =>
    rcases Option.bind_eq_some_iff.1 h with ⟨enabled, -, h⟩
    rcases Option.bind_eq_some_iff.1 h with ⟨mode, -, h⟩
    rcases Option.bind_eq_some_iff.1 h with ⟨outputDir, -, h⟩
    rcases Option.bind_eq_some_iff.1 h with ⟨n, hn, h⟩
    cases h
    cases timeout with
    | none =>
      cases hn
      exact (by decide : 5000 < signedLimit)
    | some w =>
      have hw : w.Proper := hproper (some w) (by simp) w rfl
      cases hw with
      | @integer i hrange =>
        cases i with
        | ofNat k =>
          cases hn
          exact Int.ofNat_lt.1 hrange.2
        | negSucc k => cases hn
      | _ => cases hn
  · cases h

theorem RuleSettings.proper_options {v : Toml} (hv : v.Proper) {s : RuleSettings}
    (h : RuleSettings.ofToml? v = some s) : Ascending s.options ∧ ∀ o ∈ s.options, o.2.Proper := by
  rcases Option.bind_eq_some_iff.1 h with ⟨fields, hfields, h⟩
  have hproper := hv.record? hfields
  split at h
  · next options =>
    rcases Option.bind_eq_some_iff.1 h with ⟨enabled, -, h⟩
    rcases Option.bind_eq_some_iff.1 h with ⟨severity, -, h⟩
    rcases Option.bind_eq_some_iff.1 h with ⟨entries, hentries, h⟩
    cases h
    cases options with
    | none =>
      cases hentries
      exact ⟨.nil, List.forall_mem_nil _⟩
    | some w => exact (hproper (some w) (by simp) w rfl).entries? hentries
  · cases h

/-- Rules are read one by one under their ids. -/
theorem Config.rules_read {entries : List (String × Toml)} {rules : List (String × RuleSettings)}
    (h : entries.mapM (fun (id, settings) =>
      (RuleSettings.ofToml? settings).map fun s => (id, s)) = some rules) :
    rules.map (·.1) = entries.map (·.1) ∧
      ∀ r ∈ rules, ∃ e ∈ entries, RuleSettings.ofToml? e.2 = some r.2 := by
  refine ⟨?_, fun r hr => ?_⟩
  · induction entries generalizing rules with
    | nil =>
      cases h
      rfl
    | cons e entries ih =>
      rw [List.mapM_cons] at h
      rcases Option.bind_eq_some_iff.1 h with ⟨r, hr, h⟩
      rcases Option.bind_eq_some_iff.1 h with ⟨rest, hrest, h⟩
      rcases Option.map_eq_some_iff.1 hr with ⟨s, hs, rfl⟩
      cases h
      rw [List.map_cons, List.map_cons, ih hrest]
  · rcases exists_of_mem_mapM h hr with ⟨k, e, he, hread⟩
    rcases Option.map_eq_some_iff.1 hread with ⟨s, hs, rfl⟩
    exact ⟨e, List.mem_of_getElem? he, hs⟩

theorem Config.proper_rules {v : Toml} (hv : v.Proper) {rules : List (String × RuleSettings)}
    (h : rulesOfToml? v = some rules) :
    Ascending rules ∧
      ∀ r ∈ rules, Ascending r.2.options ∧ ∀ o ∈ r.2.options, o.2.Proper := by
  rcases Option.bind_eq_some_iff.1 h with ⟨entries, hentries, h⟩
  rcases hv.entries? hentries with ⟨hsorted, hproper⟩
  rcases rules_read h with ⟨hkeys, hsettings⟩
  refine ⟨?_, ?_⟩
  · rw [ascending_iff] at hsorted ⊢
    rw [hkeys]
    exact hsorted
  · intro r hr
    rcases hsettings r hr with ⟨e, he, hs⟩
    exact RuleSettings.proper_options (hproper e he) hs

theorem Config.proper_of_ofToml? {v : Toml} (hv : v.Proper) {c : Config} (h : ofToml? v = some c) :
    c.Proper := by
  rcases Option.bind_eq_some_iff.1 h with ⟨fields, hfields, h⟩
  have hproper := hv.record? hfields
  split at h
  · next rules autofix _ _ =>
    rcases Option.bind_eq_some_iff.1 h with ⟨ignore, -, h⟩
    rcases Option.bind_eq_some_iff.1 h with ⟨settings, hsettings, h⟩
    rcases Option.bind_eq_some_iff.1 h with ⟨fixes, hfixes, h⟩
    rcases Option.bind_eq_some_iff.1 h with ⟨markers, -, h⟩
    rcases Option.bind_eq_some_iff.1 h with ⟨parallel, -, h⟩
    cases h
    have hrules : Ascending settings ∧
        ∀ r ∈ settings, Ascending r.2.options ∧ ∀ o ∈ r.2.options, o.2.Proper := by
      cases rules with
      | none =>
        cases hsettings
        exact ⟨.nil, List.forall_mem_nil _⟩
      | some w => exact proper_rules (hproper (some w) (by simp) w rfl) hsettings
    have htimeout : fixes.suggestionTimeout < signedLimit := by
      cases autofix with
      | none =>
        cases hfixes
        exact (by decide : 5000 < signedLimit)
      | some w => exact FixSettings.timeout_lt (hproper (some w) (by simp) w rfl) hfixes
    exact ⟨hrules.1, hrules.2, htimeout⟩
  · cases h

/-! ## Sections of settings -/

theorem Toml.readBack_string (s : String) : ReadBack 0 (.string s) :=
  (Writable.string 0 s).readBack (by decide)

theorem Toml.readBack_boolean (b : Bool) : ReadBack 0 (.boolean b) :=
  (Writable.boolean 0 b).readBack (by decide)

namespace Config

/-- The names of all settings and sections. -/
def names : List String :=
  ["autofix", "directives", "enabled", "file", "ignore", "mode", "next_line", "output_dir", "parallel",
    "performance", "rules", "severity", "suggestion_timeout_ms"]

/-- Names of settings are written without quotes. -/
theorem quoteKey_of_mem_names : ∀ name ∈ names, quoteKey name = name := by
  decide +kernel

/-- The names of each section are in order. -/
theorem ascending_names :
    ["autofix", "directives", "ignore", "performance", "rules"].Pairwise (· < ·) ∧
      ["enabled", "options", "severity"].Pairwise (· < ·) ∧
      ["enabled", "mode", "output_dir", "suggestion_timeout_ms"].Pairwise (· < ·) ∧
      ["file", "next_line"].Pairwise (· < ·) := by
  decide +kernel

theorem toList_line {name : String} (h : name ∈ names) (v : Toml) :
    (line name v).toList = assignment (name, v) := by
  have htext := toList_assignment (name, v)
  rw [quoteKey_of_mem_names name h] at htext
  exact htext

/-- The options of a rule are in order, hold no floats and nest less than 77 levels. -/
def Fits (s : RuleSettings) : Prop := Ascending s.options ∧ ∀ o ∈ s.options, Writable 76 o.2

/-- The sections of the options of a rule. -/
def optionSections (rule : String) (s : RuleSettings) : List Section :=
  if s.options.isEmpty then []
  else
    ownSection ["rules", rule, "options"] false s.options ::
      s.options.flatMap fun o =>
        if o.2.isSection then o.2.sections (["rules", rule, "options"] ++ [o.1]) else []

/-- The entry of the options of a rule, if there are any. -/
def optionEntries (s : RuleSettings) : List (String × Toml) :=
  if s.options.isEmpty then [] else [("options", .table s.options)]

theorem adds_optionSections {s : RuleSettings} (h : Fits s) (rule : String) :
    Adds ["rules", rule] (optionSections rule s) (optionEntries s) := by
  unfold optionSections optionEntries
  split
  · exact .nil _
  · have hall : ∀ o ∈ s.options.filter (·.2.isSection), Adds ["rules", rule, "options"]
        (o.2.sections (["rules", rule, "options"] ++ [o.1])) [id o] := by
      intro o ho
      rw [List.mem_filter] at ho
      exact (h.2 o ho.1).sectioned.own (by decide : 3 + 76 < depthLimit) ho.2
    have hinside := Adds.flatMap hall
    rw [List.map_id, ← flatMap_filter] at hinside
    exact Adds.own (.refl _) (.refl _) h.1 (fun o ho _ => (h.2 o ho).readBack (by decide))
      (by decide : 2 + 1 < depthLimit) hinside

/-- The entries of a rule that are written under its header. -/
def plainEntries (s : RuleSettings) : List (String × Toml) :=
  ("enabled", .boolean s.enabled) ::
    s.severity.toList.map fun severity => ("severity", .string severity.name)

theorem plainEntries_perm (s : RuleSettings) :
    (plainEntries s ++ optionEntries s).Perm s.entries := by
  refine .cons _ ?_
  exact List.perm_append_comm

theorem keys_entries_sublist (s : RuleSettings) :
    (s.entries.map (·.1)).Sublist ["enabled", "options", "severity"] := by
  rcases s with ⟨enabled, severity, options⟩
  cases severity with
  | none =>
    cases options with
    | nil => exact .cons_cons _ (.cons _ (.cons _ .slnil))
    | cons => exact .cons_cons _ (.cons_cons _ (.cons _ .slnil))
  | some severity =>
    cases options with
    | nil => exact .cons_cons _ (.cons _ (.cons_cons _ .slnil))
    | cons => exact .cons_cons _ (.cons_cons _ (.cons_cons _ .slnil))

theorem ascending_ruleEntries (s : RuleSettings) : Ascending s.entries := by
  rw [ascending_iff]
  exact ascending_names.2.1.sublist (keys_entries_sublist s)

/-- The section of a rule itself. -/
def ruleSection (rule : String) (s : RuleSettings) : Section where
  header := some ("[" ++ ".".intercalate (["rules", rule].map quoteKey) ++ "]")
  lines := line "enabled" (.boolean s.enabled) ::
    s.severity.toList.map fun severity => line "severity" (.string severity.name)

theorem ruleSections_eq (rule : String) (s : RuleSettings) :
    ruleSections rule s = ruleSection rule s :: optionSections rule s := rfl

theorem ruleSection_holds (rule : String) (s : RuleSettings) :
    (ruleSection rule s).Holds (plainEntries s) := by
  have henabled := toList_line (by decide : "enabled" ∈ names)
  have hseverity := toList_line (by decide : "severity" ∈ names)
  refine ⟨?_, ?_⟩
  · rw [ruleSection, plainEntries, List.map_cons, List.map_cons, henabled, List.map_map, List.map_map]
    simp only [Function.comp_def, hseverity]
  · rw [plainEntries, List.forall_mem_cons]
    refine ⟨readBack_boolean _, ?_⟩
    intro e he
    rcases List.mem_map.1 he with ⟨severity, -, rfl⟩
    exact readBack_string _

/-- The sections of a rule. -/
theorem adds_ruleSections {s : RuleSettings} (h : Fits s) (rule : String) :
    Adds ["rules"] (ruleSections rule s) [(rule, s.toToml)] := by
  have hperm := plainEntries_perm s
  have hkeys : ((plainEntries s).map (·.1) ++ (optionEntries s).map (·.1)).Nodup := by
    rw [← List.map_append]
    exact ((hperm.map _).nodup_iff).2 (ascending_ruleEntries s).nodup
  rw [ruleSections_eq, RuleSettings.toToml, ← sortEntries_eq hperm (ascending_ruleEntries s)]
  exact Adds.headed rfl (toList_header _) (by decide) (ruleSection_holds rule s) hkeys
    (adds_optionSections h rule)

/-- A section without others inside it. -/
theorem adds_section {name header : String} {lines : List String} {entries : List (String × Toml)}
    (hname : name ∈ names) (hheader : header.toList = '[' :: (name.toList ++ [']']))
    (hholds : Section.Holds ⟨some header, lines⟩ entries) (hsorted : Ascending entries) :
    Adds [] [⟨some header, lines⟩] [(name, .table entries)] := by
  have htext : header.toList = '[' :: (pathText [name] ++ [']']) := by
    rw [pathText_singleton, quoteKey_of_mem_names name hname, hheader]
  have hkeys : (entries.map (·.1) ++ ([] : List (String × Toml)).map (·.1)).Nodup := by
    rw [List.map_nil, List.append_nil]
    exact hsorted.nodup
  have hadds : Adds [] [⟨some header, lines⟩] [(name, .table (sortEntries (entries ++ [])))] :=
    .headed rfl htext (by decide) hholds hkeys (.nil _)
  rwa [List.append_nil, sortEntries_eq (.refl _) hsorted] at hadds

theorem adds_rules {c : Config} (hsorted : Ascending c.rules) (h : ∀ r ∈ c.rules, Fits r.2) :
    Adds [] (if c.rules.isEmpty then [⟨some "[rules]", []⟩]
      else c.rules.flatMap fun (id, s) => ruleSections id s) [("rules", .table c.ruleEntries)] := by
  have hsorted' : Ascending c.ruleEntries := by
    rw [ascending_iff] at hsorted ⊢
    rwa [ruleEntries, List.map_map]
  split
  · next hempty =>
    have hentries : c.ruleEntries = [] := by
      rw [ruleEntries, List.isEmpty_iff.1 hempty, List.map_nil]
    rw [hentries]
    exact adds_section (by decide) rfl ⟨rfl, List.forall_mem_nil _⟩ .nil
  · next hrules =>
    have hentries : c.ruleEntries ≠ [] := by
      rw [ruleEntries, Ne, List.map_eq_nil_iff, ← List.isEmpty_iff]
      exact hrules
    have hall : ∀ r ∈ c.rules, Adds ["rules"] (ruleSections r.1 r.2) [(r.1, r.2.toToml)] := by
      intro r hr
      exact adds_ruleSections (h r hr) r.1
    rw [← sortEntries_eq (.refl _) hsorted']
    exact Adds.through hentries hsorted'.nodup (Adds.flatMap hall)

theorem adds_autofix {c : Config} (h : c.autofix.suggestionTimeout < signedLimit) :
    Adds [] [⟨some "[autofix]",
        [line "enabled" (.boolean c.autofix.enabled), line "mode" (.string c.autofix.mode),
          line "output_dir" (.string c.autofix.outputDir),
          line "suggestion_timeout_ms" (.integer c.autofix.suggestionTimeout)]⟩]
      [("autofix", .table c.fixEntries)] := by
  have hnumber : ReadBack 0 (.integer c.autofix.suggestionTimeout) :=
    (Writable.integer 0 (by omega)).readBack (by decide)
  refine adds_section (by decide) rfl ⟨?_, ?_⟩ ?_
  · rw [fixEntries]
    simp only [List.map_cons, List.map_nil,
      toList_line (by decide : "enabled" ∈ names),
      toList_line (by decide : "mode" ∈ names),
      toList_line (by decide : "output_dir" ∈ names),
      toList_line (by decide : "suggestion_timeout_ms" ∈ names)]
  · simp only [fixEntries, List.forall_mem_cons]
    exact ⟨readBack_boolean _, readBack_string _, readBack_string _, hnumber, List.forall_mem_nil _⟩
  · rw [ascending_iff]
    exact ascending_names.2.2.1

theorem adds_directives (c : Config) :
    Adds [] [⟨some "[directives]", [line "file" (.string c.directives.file),
        line "next_line" (.string c.directives.nextLine)]⟩]
      [("directives", .table c.markerEntries)] := by
  refine adds_section (by decide) rfl ⟨?_, ?_⟩ ?_
  · rw [markerEntries]
    simp only [List.map_cons, List.map_nil,
      toList_line (by decide : "file" ∈ names),
      toList_line (by decide : "next_line" ∈ names)]
  · simp only [markerEntries, List.forall_mem_cons]
    exact ⟨readBack_string _, readBack_string _, List.forall_mem_nil _⟩
  · rw [ascending_iff]
    exact ascending_names.2.2.2

theorem adds_performance (c : Config) :
    Adds [] [⟨some "[performance]", [line "parallel" (.boolean c.parallel)]⟩]
      [("performance", .table [("parallel", .boolean c.parallel)])] := by
  refine adds_section (by decide) rfl ⟨?_, ?_⟩ ?_
  · simp only [List.map_cons, List.map_nil,
      toList_line (by decide : "parallel" ∈ names)]
  · exact List.forall_mem_singleton.2 (readBack_boolean _)
  · exact List.pairwise_singleton _ _

/-- The list of ignored patterns stands in front of all headers. -/
theorem ignore_holds (c : Config) :
    Section.Holds ⟨none, [line "ignore" (.array (c.ignore.map .string))]⟩
      [("ignore", .array (c.ignore.map .string))] := by
  refine ⟨?_, ?_⟩
  · rw [List.map_singleton, List.map_singleton,
      toList_line (by decide : "ignore" ∈ names)]
  · refine List.forall_mem_singleton.2 (Writable.readBack (n := 1) (.array ?_) (by decide))
    intro v hv
    rcases List.mem_map.1 hv with ⟨pattern, -, rfl⟩
    exact .string 0 pattern

/-- The entries with headers, in the order in which they are written. -/
def headedEntries (c : Config) : List (String × Toml) :=
  [("rules", .table c.ruleEntries), ("autofix", .table c.fixEntries),
    ("directives", .table c.markerEntries),
    ("performance", .table [("parallel", .boolean c.parallel)])]

theorem headedEntries_perm (c : Config) :
    (("ignore", .array (c.ignore.map .string)) :: c.headedEntries).Perm c.entries := by
  refine (@List.perm_append_comm _ [_, _] _).trans ?_
  exact ((List.Perm.swap _ _ _).cons _).cons _

theorem ascending_entries (c : Config) : Ascending c.entries := by
  rw [ascending_iff]
  exact ascending_names.1

/-- The text of settings is read as their tree. -/
theorem parse?_toText {c : Config} (hsorted : Ascending c.rules) (h : ∀ r ∈ c.rules, Fits r.2)
    (htimeout : c.autofix.suggestionTimeout < signedLimit) :
    Toml.parse? c.toText = some c.toToml := by
  have hadds := ((adds_rules hsorted h).append (adds_autofix htimeout)).append
    ((adds_directives c).append (adds_performance c))
  have hkeys : ([("ignore", Toml.array (c.ignore.map .string))].map (·.1) ++
      c.headedEntries.map (·.1)).Nodup :=
    (by decide : ["ignore", "rules", "autofix", "directives", "performance"].Nodup)
  have hread := parse?_renderSections rfl c.ignore_holds hkeys hadds
  rw [List.append_assoc] at hread
  rw [toText, toSections, List.append_assoc, List.singleton_append]
  refine hread.trans ?_
  rw [List.cons_append, List.nil_append, sortEntries_eq c.headedEntries_perm c.ascending_entries,
    toToml]

/-! ## The round trip -/

/-- The options of all rules hold no floats, and with the three tables around them they do not nest
too deep. -/
def HasPlainOptions (c : Config) : Prop :=
  ∀ r ∈ c.rules, ∀ o ∈ r.2.options, o.2.isFloatFree = true ∧ o.2.height + 3 < depthLimit

instance (c : Config) : Decidable c.HasPlainOptions :=
  inferInstanceAs (Decidable (∀ r ∈ c.rules, ∀ o ∈ r.2.options,
    o.2.isFloatFree = true ∧ o.2.height + 3 < depthLimit))

theorem Proper.fits {c : Config} (hc : c.Proper) (h : c.HasPlainOptions) :
    ∀ r ∈ c.rules, Fits r.2 := by
  intro r hr
  refine ⟨(hc.options r hr).1, ?_⟩
  intro o ho
  have hplain := h r hr o ho
  have hheight : o.2.height ≤ 76 := Nat.le_of_lt_succ (Nat.lt_of_add_lt_add_right hplain.2)
  exact ((hc.options r hr).2 o ho).writable hplain.1 hheight

/-- Settings that a text gives are proper, and their markers have passed the check. -/
theorem proper_of_ofText {path text : String} {c : Config} (h : ofText path text = .ok c) :
    c.Proper ∧ c.markerError? = none := by
  rw [ofText] at h
  split at h
  · cases h
  · next hread =>
    rcases Option.bind_eq_some_iff.1 hread with ⟨v, hv, hconfig⟩
    split at h
    · cases h
    · next hmarkers =>
      cases h
      exact ⟨proper_of_ofToml? (.of_parse? hv) hconfig, hmarkers⟩

/-- A text that is read as the tree of settings gives the settings, and the check passes again. -/
theorem ofText_of_parse? {text : String} {c : Config} (hmarkers : c.markerError? = none)
    (h : Toml.parse? text = some c.toToml) (path : String) : ofText path text = .ok c := by
  rw [ofText, h, Option.bind_some, ofToml?_toToml]
  dsimp only
  rw [hmarkers]

/-- Settings that a text gives can be written. What is written gives the same settings if it is read
as their tree, and it is whenever the options of rules hold no floats and do not nest too deep. -/
theorem ofText_toText {path text : String} {c : Config} (h : ofText path text = .ok c) :
    c.write = .ok c.toText ∧ ofToml? c.toToml = some c ∧
      (∀ path', Toml.parse? c.toText = some c.toToml → ofText path' c.toText = .ok c) ∧
      (c.HasPlainOptions →
        Toml.parse? c.toText = some c.toToml ∧ ∀ path', ofText path' c.toText = .ok c) := by
  rcases proper_of_ofText h with ⟨hproper, hmarkers⟩
  refine ⟨if_pos hproper.timeout, c.ofToml?_toToml, ?_, ?_⟩
  · intro path' hparse
    exact ofText_of_parse? hmarkers hparse path'
  · intro hplain
    have hparse := parse?_toText hproper.rules (hproper.fits hplain) hproper.timeout
    exact ⟨hparse, ofText_of_parse? hmarkers hparse⟩

/-- Settings with an option inside a table for which no header of its own is written. -/
def limitsText : String := "[rules.SIZE001.options.limits]\nlines = [40, 80]\n"

theorem ofText_toText_limits : ∃ c, ofText fileName limitsText = .ok c ∧
    (c.rule "SIZE001").options.length = 1 ∧ c.HasPlainOptions ∧ c.write = .ok c.toText ∧
    ofText fileName c.toText = .ok c := by
  have hread : (ofText fileName limitsText).toOption.any (fun c =>
      decide ((c.rule "SIZE001").options.length = 1 ∧ c.HasPlainOptions)) = true := by
    decide +kernel
  cases hc : ofText fileName limitsText with
  | error e =>
    rw [hc] at hread
    cases hread
  | ok c =>
    rw [hc] at hread
    have hlimits := of_decide_eq_true hread
    have hall := ofText_toText hc
    exact ⟨c, rfl, hlimits.1, hlimits.2, hall.1, (hall.2.2.2 hlimits.2).2 fileName⟩

end Config

end LintMend
