import Mathlib
import ColorTheme.Proofs.Grounding
import ColorTheme.Proofs.Printing
/-! # Checking agrees with baking

A check of themes that can be loaded passes exactly if they bake for the modes `dark` and `light`.
Otherwise it names every one of these modes that they do not bake for, with the message that a bake
ends with. -/
namespace ColorTheme.CommandLine

open Text

/-- The source was read from a text. -/
structure Source.Sound (s : Source) : Prop where
  built : s.definition.Built
  legible : s.definition.Legible
  duplicates : ∀ x ∈ s.duplicates, OneLine x.key

theorem Source.sound_of_parse {origin text : String} {s : Source} (h : parse origin text = .ok s) :
    s.Sound := by
  rw [parse] at h
  split at h
  · rename_i d outcome hd
    cases h
    obtain ⟨legible, duplicates⟩ := Definition.legible_of_parse hd
    exact ⟨.of_parse hd, legible, duplicates⟩
  · cases h

theorem Source.sound_of_load {files : Files} {path : String} {s : Source}
    (h : load files path = .ok s) : s.Sound := by
  rw [load] at h
  split at h
  · exact sound_of_parse h
  · cases h

theorem Source.sound_of_base {files : Files} {settings : Settings} {given : Option String}
    {s : Source} (h : base files settings given = .ok s) : s.Sound := by
  rw [base] at h
  split at h
  · exact sound_of_load h
  · rw [preset] at h
    split at h
    · exact sound_of_parse h
    · cases h

theorem Source.sound_of_overlay? {files : Files} {settings : Settings} {given : Option String}
    {s : Source} (h : overlay? files settings given = .ok (some s)) : s.Sound := by
  rw [overlay?] at h
  split at h
  · rename_i path _
    cases hload : load files path with
    | error f => simp [hload, Except.map] at h
    | ok s' =>
      obtain rfl : s' = s := by simpa [hload, Except.map] using h
      exact sound_of_load hload
  · cases h

/-- What a request is about once its files are read, and the mode of its settings. -/
structure Loaded where
  mode : Mode
  base : Source
  overlay : Option Source

namespace Loaded

def definition (l : Loaded) : Definition := l.base.combine l.overlay

def sources (l : Loaded) : List Source := l.base :: l.overlay.toList

/-- What is said of assignments that a source leaves out. -/
def notices (l : Loaded) : List String := l.sources.flatMap Source.duplicateLines

/-- What the bakes for the checked modes say. -/
def findings (l : Loaded) : List String :=
  checkedModes.flatMap fun mode => (checkMode l.definition mode).1

def failures (l : Loaded) : ℕ :=
  (checkedModes.filter fun mode => !(checkMode l.definition mode).2).length

def check (l : Loaded) : Output :=
  if l.failures = 0 then .success (sheet (l.notices ++ l.findings ++ ["ok"]))
  else ⟨sheet (l.notices ++ l.findings), some (.check l.failures)⟩

def items (l : Loaded) : List String :=
  l.notices ++ l.findings ++ if l.failures = 0 then ["ok"] else []

def bake (l : Loaded) (mode : Mode) (json : Bool) : Output :=
  match l.definition.bake mode with
  | .error e => .fail (.bake mode e)
  | .ok table => .success (if json then table.jsonListing else table.listing)

end Loaded

section Runs

variable (files : Files)

def loadFor (settings : Settings) (file base : Option String) : Except Failure Loaded := do
  let base ← Source.base files settings base
  let overlay ← Source.overlay? files settings file
  .ok ⟨settings.mode, base, overlay⟩

def load (config file base : Option String) : Except Failure Loaded := do
  let settings ← settings files config
  loadFor files settings file base

def checkRun (config file base : Option String) : Output :=
  Request.run files ⟨config, .check file base⟩

def bakeRun (config file base : Option String) (mode : Option Mode) (json : Bool) : Output :=
  Request.run files ⟨config, .bake file base mode json⟩

theorem check_eq_map (settings : Settings) (file base : Option String) :
    check files settings file base = (loadFor files settings file base).map Loaded.check := by
  unfold check loadFor
  cases Source.base files settings base with
  | error f => rfl
  | ok b =>
    cases Source.overlay? files settings file with
    | error f => rfl
    | ok o =>
      have hnotices : b.duplicateLines ++ (o.map Source.duplicateLines).getD [] =
          (Loaded.mk settings.mode b o).notices := by
        cases o <;> simp [Loaded.notices, Loaded.sources]
      have hfailures (d : Definition) :
          ((checkedModes.map (checkMode d)).filter fun result => !result.2).length =
            (checkedModes.filter fun mode => !(checkMode d mode).2).length := by
        rw [List.filter_map, List.length_map]
        rfl
      have hfindings (d : Definition) : (checkedModes.map (checkMode d)).flatMap (·.1) =
          checkedModes.flatMap fun mode => (checkMode d mode).1 := List.flatMap_map ..
      simp only [bind, Except.bind, hnotices, hfailures, hfindings]
      exact (apply_ite Except.ok _ _ _).symm

theorem run_check (settings : Settings) (file base : Option String) :
    (Command.check file base).run files settings =
      match loadFor files settings file base with
      | .error f => .fail f
      | .ok l => l.check := by
  rw [Command.run, check_eq_map]
  cases loadFor files settings file base with
  | error f => rfl
  | ok l => rfl

theorem run_bake (settings : Settings) (file base : Option String) (mode : Option Mode)
    (json : Bool) : (Command.bake file base mode json).run files settings =
      match loadFor files settings file base with
      | .error f => .fail f
      | .ok l => l.bake (mode.getD l.mode) json := by
  rw [Command.run]
  unfold bake loadFor
  cases Source.base files settings base with
  | error f => rfl
  | ok b =>
    cases Source.overlay? files settings file with
    | error f => rfl
    | ok o =>
      simp only [bind, Except.bind, Loaded.bake, Loaded.definition]
      cases (b.combine o).bake (mode.getD settings.mode) with
      | error e => rfl
      | ok t => rfl

variable (config file base : Option String)

theorem checkRun_eq : checkRun files config file base =
    match load files config file base with
    | .error f => .fail f
    | .ok l => l.check := by
  unfold checkRun Request.run load
  cases settings files config with
  | error f => rfl
  | ok settings => exact run_check files settings file base

theorem bakeRun_eq (mode : Option Mode) (json : Bool) :
    bakeRun files config file base mode json =
      match load files config file base with
      | .error f => .fail f
      | .ok l => l.bake (mode.getD l.mode) json := by
  unfold bakeRun Request.run load
  cases settings files config with
  | error f => rfl
  | ok settings => exact run_bake files settings file base mode json

theorem load_eq_ok {given : Settings} {b : Source} {o : Option Source}
    (hs : settings files config = .ok given) (hb : Source.base files given base = .ok b)
    (ho : Source.overlay? files given file = .ok o) :
    load files config file base = .ok ⟨given.mode, b, o⟩ := by
  simp only [load, loadFor, hs, hb, ho, bind, Except.bind]

end Runs

theorem exists_of_bind_eq_ok {ε α β : Type} {x : Except ε α} {f : α → Except ε β} {b : β}
    (h : x >>= f = .ok b) : ∃ a, x = .ok a ∧ f a = .ok b := by
  cases x with
  | error e => cases h
  | ok a => exact ⟨a, rfl, h⟩

theorem sound_of_load {files : Files} {config file base : Option String} {l : Loaded}
    (h : load files config file base = .ok l) : ∀ s ∈ l.sources, s.Sound := by
  obtain ⟨settings, -, h⟩ := exists_of_bind_eq_ok h
  obtain ⟨b, hb, h⟩ := exists_of_bind_eq_ok h
  obtain ⟨o, ho, h⟩ := exists_of_bind_eq_ok h
  cases h
  intro s hs
  rcases List.mem_cons.1 hs with rfl | hs
  · exact Source.sound_of_base hb
  · obtain rfl : o = some s := Option.mem_toList.1 hs
    exact Source.sound_of_overlay? ho

namespace Output

def cause? (o : Output) : Option String := o.failure.bind Failure.cause?

theorem exit_out (o : Output) : o.exit.out = o.lines := by
  rw [exit]
  split
  · rfl
  · rfl

theorem exit_code_eq_zero_iff {o : Output} : o.exit.code = 0 ↔ o.failure = none := by
  cases h : o.failure <;> simp [exit, h]

end Output

namespace Loaded

theorem mem_items {l : Loaded} {s : String} :
    s ∈ l.items ↔ s ∈ l.notices ∨ s ∈ l.findings ∨ s = "ok" ∧ l.failures = 0 := by
  by_cases h : l.failures = 0 <;> simp [items, h]

section Sound

variable {l : Loaded} (sound : ∀ s ∈ l.sources, s.Sound)
include sound

theorem indexed : l.definition.Indexed := by
  obtain ⟨mode, b, o⟩ := l
  cases o with
  | none => exact (sound b (by simp [sources])).built.indexed
  | some o => exact Definition.indexed_combine _ _

theorem legible : l.definition.Legible := by
  obtain ⟨mode, b, o⟩ := l
  have hb := (sound b (by simp [sources])).legible
  cases o with
  | none => exact hb
  | some o => exact hb.combine (sound o (by simp [sources])).legible

theorem oneLine_of_mem_findings {s : String} (h : s ∈ l.findings) : OneLine s := by
  obtain ⟨mode, -, hs⟩ := List.mem_flatMap.1 h
  exact (finding_of_mem_checkMode hs).oneLine (indexed sound) (legible sound)

/-- A notice stands on one line unless the name of its source does not. -/
theorem oneLine_of_mem_notices
    (named : ∀ s ∈ l.sources, s.duplicates ≠ [] → OneLine s.origin) {s : String}
    (h : s ∈ l.notices) : OneLine s := by
  obtain ⟨source, hsource, h⟩ := List.mem_flatMap.1 h
  rw [Source.duplicateLines_eq] at h
  obtain ⟨x, hx, rfl⟩ := List.mem_map.1 h
  have horigin : OneLine source.origin := named source hsource (List.ne_nil_of_mem hx)
  have hkey : OneLine x.key := (sound source hsource).duplicates x hx
  simp only [noticeLine, OneLine.append_iff, oneLine_nat, Mode.oneLine_name, State.oneLine_name,
    horigin, hkey]
  simp [OneLine]

theorem oneLine_of_mem_items (named : ∀ s ∈ l.sources, s.duplicates ≠ [] → OneLine s.origin)
    {s : String} (h : s ∈ l.items) : OneLine s := by
  rcases mem_items.1 h with hs | hs | ⟨rfl, -⟩
  · exact oneLine_of_mem_notices sound named hs
  · exact oneLine_of_mem_findings sound hs
  · simp [OneLine]

end Sound

variable {l : Loaded}

theorem ends_of_mem_notices {s : String} (h : s ∈ l.notices) : Ends s ") ignored" := by
  obtain ⟨source, -, h⟩ := List.mem_flatMap.1 h
  obtain ⟨x, -, rfl⟩ := List.mem_map.1 h
  exact ends_append _ _

theorem mem_findings_of_error {mode : Mode} (hm : mode ∈ checkedModes) {e : BakeError}
    (h : l.definition.bakeWithReport mode = .error e) : errorLine mode e ∈ l.findings :=
  List.mem_flatMap.2 ⟨mode, hm, by simp [checkMode_of_error h]⟩

theorem failures_eq_zero_iff :
    l.failures = 0 ↔ ∀ mode ∈ checkedModes, ∃ t, l.definition.bake mode = .ok t := by
  simp only [failures, List.length_eq_zero_iff, List.filter_eq_nil_iff, Bool.not_eq_true',
    Bool.not_eq_false, checkMode_snd_iff]

theorem check_failure_eq_none_iff : l.check.failure = none ↔ l.failures = 0 := by
  rw [check]
  split
  · rename_i h
    simp [h, Output.success]
  · rename_i h
    simp [h]

theorem bake_failure_eq_none_iff {mode : Mode} {json : Bool} :
    (l.bake mode json).failure = none ↔ ∃ t, l.definition.bake mode = .ok t := by
  rw [bake]
  cases l.definition.bake mode with
  | error e => simp [Output.fail]
  | ok t => simp [Output.success]

theorem lines_check (l : Loaded) : l.check.lines = sheet l.items := by
  rw [check, items]
  split
  · rfl
  · rw [List.append_nil]

theorem exists_error_of_failures (h : l.failures ≠ 0) :
    ∃ mode ∈ checkedModes, ∃ e, l.definition.bakeWithReport mode = .error e := by
  rw [Ne, failures_eq_zero_iff] at h
  push Not at h
  obtain ⟨mode, hm, failed⟩ := h
  refine ⟨mode, hm, ?_⟩
  cases hb : l.definition.bakeWithReport mode with
  | error e => exact ⟨e, rfl⟩
  | ok report => exact absurd (Definition.bake_of_bakeWithReport_eq_ok hb) (failed _)

/-- The last line of a check is `ok` if and only if it fails for no mode. -/
theorem getLast?_check : (lines l.check.lines.toList).getLast? = some "ok".toList ↔
    l.check.failure = none := by
  rw [lines_check, check_failure_eq_none_iff, items]
  by_cases h : l.failures = 0
  · rw [if_pos h]
    exact iff_of_true (getLast?_sheet _ (by simp [OneLine])) h
  · rw [if_neg h, List.append_nil]
    refine iff_of_false (fun hlast => ?_) h
    obtain ⟨mode, hm, e, error⟩ := exists_error_of_failures h
    -- the last finding ends the output, and no finding ends in this way
    have hne : l.findings ≠ [] := List.ne_nil_of_mem (mem_findings_of_error hm error)
    obtain ⟨others, s, hs⟩ := (List.eq_nil_or_concat' l.findings).resolve_left hne
    have hmem : s ∈ l.findings := by simp [hs]
    obtain ⟨mode', -, hmode⟩ := List.mem_flatMap.1 hmem
    obtain ⟨ending, hending, hends⟩ := (finding_of_mem_checkMode hmode).exists_ends
    have hmem' : ending ∈ endings := List.mem_cons_of_mem _ (List.mem_cons_of_mem _ hending)
    obtain ⟨line, hline, hsuffix⟩ :=
      exists_getLast?_sheet (l.notices ++ others) hends (oneLine_of_mem_endings hmem')
    rw [hs, ← List.append_assoc, hline, Option.some.injEq] at hlast
    subst hlast
    obtain rfl := eq_of_ends (s := "ok") hmem' (by simp [endings]) hsuffix List.suffix_rfl
    revert hending
    decide

/-- A check names a mode with the error that a bake for it ends with. -/
theorem errorLine_mem_check (sound : ∀ s ∈ l.sources, s.Sound) {mode : Mode}
    (hm : mode ∈ checkedModes) {e : BakeError} (h : l.definition.bakeWithReport mode = .error e) :
    (errorLine mode e).toList ∈ lines l.check.lines.toList := by
  have hmem := mem_findings_of_error hm h
  rw [lines_check]
  exact mem_lines_sheet (oneLine_of_mem_findings sound hmem) (mem_items.2 (Or.inr (Or.inl hmem)))

/-- And with no other, where no notice takes more than its line. -/
theorem of_errorLine_mem_check (sound : ∀ s ∈ l.sources, s.Sound)
    (named : ∀ s ∈ l.sources, s.duplicates ≠ [] → OneLine s.origin) {mode : Mode} {e : BakeError}
    (h : (errorLine mode e).toList ∈ lines l.check.lines.toList) :
    ∃ e', l.definition.bakeWithReport mode = .error e' ∧ e'.message = e.message := by
  have oneLine : ∀ s ∈ l.items, OneLine s := fun s hs => oneLine_of_mem_items sound named hs
  rw [lines_check] at h
  rcases mem_items.1 (mem_of_mem_lines_sheet oneLine h) with hmem | hmem | ⟨hs, -⟩
  · exact absurd (ends_of_mem_notices hmem) (errorLine_not_ends mode e (by decide) (by decide))
  · obtain ⟨mode', -, hmode⟩ := List.mem_flatMap.1 hmem
    have hfinding := finding_of_mem_checkMode hmode
    generalize hs : errorLine mode e = s at hfinding
    cases hfinding with
    | @unused mode'' report u =>
      have hends : Ends (errorLine mode e) ")" := hs ▸ ends_unusedLine mode'' u
      exact absurd hends (errorLine_not_ends mode e (by decide) (by decide))
    | @failed mode'' e' error =>
      obtain ⟨rfl, hmessage⟩ := errorLine_inj hs
      exact ⟨e', error, hmessage.symm⟩
  · have hends : Ends (errorLine mode e) "ok" := by simp [Ends, hs]
    exact absurd hends (errorLine_not_ends mode e (by decide) (by decide))

/-- A bake that fails prints nothing. -/
theorem bake_out {l : Loaded} {mode : Mode} {json : Bool} (h : (l.bake mode json).exit.code = 1) :
    (l.bake mode json).exit.out = "" := by
  rw [bake] at h ⊢
  cases hb : l.definition.bake mode with
  | error e => rfl
  | ok t =>
    rw [hb] at h
    cases h

theorem bake_of_error {l : Loaded} {mode : Mode} {e : BakeError}
    (h : l.definition.bakeWithReport mode = .error e) (json : Bool) :
    l.bake mode json = .fail (.bake mode e) := by
  rw [bake, Definition.bake_of_bakeWithReport_eq_error h]

theorem exists_error_of_bake {l : Loaded} {mode : Mode} {json : Bool}
    (h : (l.bake mode json).exit.code = 1) : ∃ e, l.definition.bakeWithReport mode = .error e := by
  rw [bake] at h
  cases hb : l.definition.bakeWithReport mode with
  | error e => exact ⟨e, rfl⟩
  | ok report =>
    rw [Definition.bake_of_bakeWithReport_eq_ok hb] at h
    cases h

end Loaded

/-- A check passes if and only if bakes for both of its modes do, and ends with `ok` if and only if
it passes. A bake that fails prints nothing. If all files can be read, a check names every mode that
a bake fails for, with the cause of that failure; it names no other mode in this way, unless a
source that repeats itself has a line break in its own name. -/
theorem check_agrees (files : Files) (config file base : Option String) (json : Bool) :
    ((checkRun files config file base).exit.code = 0 ↔ ∀ mode ∈ checkedModes,
      (bakeRun files config file base (some mode) json).exit.code = 0) ∧
    ((lines (checkRun files config file base).exit.out.toList).getLast? = some "ok".toList ↔
      (checkRun files config file base).exit.code = 0) ∧
    (∀ mode, (bakeRun files config file base mode json).exit.code = 1 →
      (bakeRun files config file base mode json).exit.out = "") ∧
    ∀ l, load files config file base = .ok l → ∀ mode ∈ checkedModes,
      ((bakeRun files config file base (some mode) json).exit.code = 1 →
        ∃ e, (bakeRun files config file base (some mode) json).cause? = some e.message ∧
          (errorLine mode e).toList ∈
            lines (checkRun files config file base).exit.out.toList) ∧
      ((∀ s ∈ l.sources, s.duplicates ≠ [] → OneLine s.origin) → ∀ e,
        (errorLine mode e).toList ∈ lines (checkRun files config file base).exit.out.toList →
        (bakeRun files config file base (some mode) json).exit.code = 1 ∧
          (bakeRun files config file base (some mode) json).cause? = some e.message) := by
  simp only [checkRun_eq, bakeRun_eq]
  cases hl : load files config file base with
  | error f =>
    refine ⟨iff_of_false nofun fun h => ?_, iff_of_false nofun nofun, fun _ _ => rfl, nofun⟩
    exact absurd (h .dark (by decide)) nofun
  | ok l =>
    have sound := sound_of_load hl
    refine ⟨?_, ?_, fun mode => l.bake_out, fun l' hl' mode hm => ?_⟩
    · simp only [Output.exit_code_eq_zero_iff, Loaded.bake_failure_eq_none_iff,
        Loaded.check_failure_eq_none_iff, Loaded.failures_eq_zero_iff, Option.getD_some]
    · rw [Output.exit_code_eq_zero_iff, Output.exit_out]
      exact Loaded.getLast?_check
    · cases hl'
      simp only [Option.getD_some, Output.exit_out]
      refine ⟨fun h => ?_, fun named e h => ?_⟩
      · obtain ⟨e, error⟩ := Loaded.exists_error_of_bake h
        rw [Loaded.bake_of_error error]
        exact ⟨e, rfl, Loaded.errorLine_mem_check sound hm error⟩
      · obtain ⟨e', error, hmessage⟩ := Loaded.of_errorLine_mem_check sound named h
        rw [Loaded.bake_of_error error]
        exact ⟨rfl, congrArg some hmessage⟩

/-- There is just one file, which names a color twice. -/
def holding (name : String) : Files := fun path =>
  if path = name then .text "Ink: white\nInk: white" else .missing

theorem load_holding (name : String) : ∃ s, Source.load (holding name) name = .ok s ∧
    s.origin = name ∧ s.definition.entries.toList = [⟨"Ink", .all, .any, .color .white⟩] ∧
    s.duplicates = [⟨.all, .any, "Ink", 2⟩] := by
  have accepted : ∀ line ∈ lines "Ink: white\nInk: white".toList, Line.fault? line = none := by
    decide +kernel
  have h := Definition.readInto_of_accepted .empty accepted
  obtain ⟨hentries, houtcome⟩ :=
    Definition.absorb_written Definition.indexed_empty "Ink: white\nInk: white"
  have hfresh : (Definition.empty.fresh [] (Definition.written "Ink: white\nInk: white")).map
      Written.entry = [⟨"Ink", .all, .any, .color .white⟩] := by decide +kernel
  have hrepeated : (Definition.empty.repeated [] (Definition.written "Ink: white\nInk: white")).map
      Written.duplicate = [⟨.all, .any, "Ink", 2⟩] := by decide +kernel
  rw [Source.load, holding, if_pos rfl, FileState.read]
  dsimp only
  rw [Source.parse, Definition.parse, h, houtcome]
  refine ⟨_, rfl, rfl, ?_, hrepeated⟩
  rw [hentries, hfresh]
  rfl

theorem settings_holding {name : String} (h : name ≠ defaultConfig) :
    settings (holding name) none = .ok .standard := by
  rw [settings, holding, if_neg h.symm]
  rfl

/-- Without an entry for any slot, a bake names the first cell. Both its line and the notice of the
repetition are told. -/
theorem check_agrees_ink : ∃ l e,
    load (holding "ink.theme") none none (some "ink.theme") = .ok l ∧
    (∀ s ∈ l.sources, s.duplicates ≠ [] → OneLine s.origin) ∧ Mode.dark ∈ checkedModes ∧
    (bakeRun (holding "ink.theme") none none (some "ink.theme") (some .dark) false).exit.code = 1 ∧
    (bakeRun (holding "ink.theme") none none (some "ink.theme") (some .dark) false).exit.out = "" ∧
    (errorLine .dark e).toList ∈
      lines (checkRun (holding "ink.theme") none none (some "ink.theme")).exit.out.toList ∧
    (bakeRun (holding "ink.theme") none none (some "ink.theme") (some .dark) false).cause? =
      some e.message := by
  obtain ⟨s, hs, horigin, hentries, -⟩ := load_holding "ink.theme"
  have hload : load (holding "ink.theme") none none (some "ink.theme") = .ok ⟨.dark, s, none⟩ :=
    load_eq_ok _ _ _ _ (settings_holding (by decide)) hs rfl
  have named : ∀ s' ∈ (Loaded.mk .dark s none).sources, s'.duplicates ≠ [] → OneLine s'.origin := by
    intro s' hs' _
    obtain rfl : s' = s := by simpa [Loaded.sources] using hs'
    rw [horigin]
    decide
  have failed : (bakeRun (holding "ink.theme") none none (some "ink.theme") (some .dark)
      false).exit.code = 1 := by
    cases hbake : s.definition.bakeWithReport .dark with
    | error e =>
      rw [bakeRun_eq, hload]
      exact congrArg (·.exit.code) (Loaded.bake_of_error (l := ⟨.dark, s, none⟩) hbake false)
    | ok report =>
      have hb := (sound_of_load hload s (by simp [Loaded.sources])).built
      obtain ⟨-, covered⟩ := Definition.resolved_of_bake hb.indexed (by decide)
        (Definition.bake_of_bakeWithReport_eq_ok hbake)
      have hcell := covered .background (by decide) .any (by decide)
      obtain ⟨i, hi⟩ := Option.isSome_iff_exists.1 hcell
      obtain ⟨e, he, hk, -⟩ := Definition.of_find?_eq_some hb.indexed hi
      have hmem := Array.mem_of_getElem? he
      rw [← Array.mem_toList_iff, hentries, List.mem_singleton] at hmem
      subst hmem
      revert hk
      decide
  obtain ⟨-, -, silent, tells⟩ :=
    check_agrees (holding "ink.theme") none none (some "ink.theme") false
  obtain ⟨e, hcause, hline⟩ := (tells _ hload .dark (by decide)).1 failed
  exact ⟨_, e, hload, named, by decide, failed, silent _ failed, hline,
    ((tells _ hload .dark (by decide)).2 named e hline).2⟩

/-- A name that spells out a line of its own. -/
def misleading : String :=
  "x\n" ++ errorLine .dark (.unknownReference "a" "b") ++ "\ny"

/-- With such a name, a check tells of a failure where a bake succeeds. -/
theorem errorLine_misleading :
    (∃ l, load (holding misleading) none (some misleading) none = .ok l) ∧
    (bakeRun (holding misleading) none (some misleading) none (some .dark) false).exit.code = 0 ∧
    (errorLine .dark (.unknownReference "a" "b")).toList ∈
      lines (checkRun (holding misleading) none (some misleading) none).exit.out.toList := by
  obtain ⟨s, hs, horigin, hentries, hduplicates⟩ := load_holding misleading
  obtain ⟨base, outcome, hread, hb, bakes⟩ := Definition.exists_bake_standard
  obtain ⟨t, baked⟩ := bakes .dark (by decide)
  have plain : s.definition.Plain .dark := by
    intro i e he
    have hmem := Array.mem_of_getElem? he.entry
    rw [← Array.mem_toList_iff, hentries, List.mem_singleton] at hmem
    exact ⟨.white, by rw [hmem]⟩
  obtain ⟨t', baked'⟩ := plain.exists_bake_combine hb.indexed baked
  have hpreset : Source.preset Preset.standard.id =
      .ok ⟨"preset `catppuccin`", base, outcome.duplicates⟩ := by
    have hid : Preset.ofId? Preset.standard.id.toList = some .standard := by decide
    rw [Preset.definition] at hread
    rw [Source.preset, hid]
    dsimp only
    rw [Source.parse, hread]
    rfl
  have hload : load (holding misleading) none (some misleading) none =
      .ok ⟨.dark, ⟨"preset `catppuccin`", base, outcome.duplicates⟩, some s⟩ :=
    load_eq_ok _ _ _ _ (settings_holding (by decide)) hpreset (congrArg (Except.map some) hs)
  refine ⟨⟨_, hload⟩, ?_, ?_⟩
  · rw [bakeRun_eq, hload, Output.exit_code_eq_zero_iff]
    exact Loaded.bake_failure_eq_none_iff.2 ⟨t', baked'⟩
  · have hnotice : noticeLine misleading ⟨.all, .any, "Ink", 2⟩ ∈
        (Loaded.mk .dark ⟨"preset `catppuccin`", base, outcome.duplicates⟩ (some s)).items := by
      refine Loaded.mem_items.2 (Or.inl (List.mem_flatMap.2 ⟨s, by simp [Loaded.sources], ?_⟩))
      rw [Source.duplicateLines_eq, horigin, hduplicates, List.map_singleton]
      exact List.mem_singleton_self _
    rw [checkRun_eq, hload, Output.exit_out, Loaded.lines_check, lines_sheet]
    refine List.mem_flatMap.2 ⟨_, hnotice, ?_⟩
    have hline : OneLine (errorLine .dark (.unknownReference "a" "b")) := by decide
    simpa [noticeLine, misleading] using mem_lines_between hline ['x'] _

end ColorTheme.CommandLine
