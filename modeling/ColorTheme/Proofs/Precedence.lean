import Mathlib
import ColorTheme.CommandLine
/-! # Options take the place of settings

A command depends on its options and on the settings only through the sources and the mode that
they come to, so an option that is given does the same as a setting. -/
namespace ColorTheme

namespace Settings

/-- The settings with the given options of a command in their place. -/
def given (s : Settings) (file base : Option String) (mode : Option Mode) : Settings :=
  { s with base := base <|> s.base, overlay := file <|> s.overlay, mode := mode.getD s.mode }

/-- The files of the themes that the settings name. -/
def themePaths (s : Settings) : List String := [s.base, s.overlay].reduceOption

theorem mem_themePaths {s : Settings} {path : String} :
    path ∈ s.themePaths ↔ s.base = some path ∨ s.overlay = some path := by
  simp [themePaths, List.reduceOption_mem_iff, eq_comm]

end Settings

namespace CommandLine

section Worlds

variable {files files' : Files} {s s' : Settings}

theorem Source.load_congr {path : String} (same : files' path = files path) :
    load files' path = load files path := by rw [load, load, same]

/-- The base comes from one file, or from the preset where there is none. -/
theorem Source.base_congr {given given' : Option String}
    (effective : (given' <|> s'.base) = (given <|> s.base))
    (same : ∀ path, (given <|> s.base) = some path → files' path = files path)
    (preset : (given <|> s.base) = none → s'.preset = s.preset) :
    base files' s' given' = base files s given := by
  rw [base, base, effective]
  cases h : given <|> s.base with
  | none => exact congrArg Source.preset (preset h)
  | some path => exact load_congr (same path h)

theorem Source.overlay?_congr {given given' : Option String}
    (effective : (given' <|> s'.overlay) = (given <|> s.overlay))
    (same : ∀ path, (given <|> s.overlay) = some path → files' path = files path) :
    overlay? files' s' given' = overlay? files s given := by
  rw [overlay?, overlay?, effective]
  cases h : given <|> s.overlay with
  | none => rfl
  | some path => exact congrArg (Except.map some) (load_congr (same path h))

variable {file file' base base' : Option String}

theorem run_bake_congr {mode mode' : Option Mode} {json : Bool}
    (hb : Source.base files' s' base' = Source.base files s base)
    (ho : Source.overlay? files' s' file' = Source.overlay? files s file)
    (hm : mode'.getD s'.mode = mode.getD s.mode) :
    (Command.bake file' base' mode' json).run files' s' =
      (Command.bake file base mode json).run files s := by
  simp only [Command.run, bake, hb, ho, hm]

theorem run_check_congr (hb : Source.base files' s' base' = Source.base files s base)
    (ho : Source.overlay? files' s' file' = Source.overlay? files s file) :
    (Command.check file' base').run files' s' = (Command.check file base).run files s := by
  simp only [Command.run, check, hb, ho]

theorem sources_given {mode : Option Mode}
    (same : ∀ path ∈ (s.given file base mode).themePaths, files' path = files path) :
    Source.base files' (s.given file base mode) none = Source.base files s base ∧
      Source.overlay? files' (s.given file base mode) none = Source.overlay? files s file := by
  constructor
  · refine Source.base_congr rfl (fun path h => ?_) fun _ => rfl
    exact same path (Settings.mem_themePaths.2 (Or.inl h))
  · refine Source.overlay?_congr rfl fun path h => ?_
    exact same path (Settings.mem_themePaths.2 (Or.inr h))

/-- Options do what settings do, also where other files are around. -/
theorem run_bake_given {mode : Option Mode} {json : Bool}
    (same : ∀ path ∈ (s.given file base mode).themePaths, files' path = files path) :
    (Command.bake none none none json).run files' (s.given file base mode) =
      (Command.bake file base mode json).run files s :=
  run_bake_congr (sources_given same).1 (sources_given same).2 rfl

end Worlds

/-- The program reads its arguments and its settings, then runs the command. -/
theorem run_eq {files : Files} {args : List String} {config : Option String} {command : Command}
    {s : Settings} (ha : readArguments args = .ok ⟨config, command⟩)
    (hs : settings files config = .ok s) : run files args = (command.run files s).exit := by
  simp only [run, ha, Request.run, hs]

/-- A bake with options ends as a bake without them does, under settings that have the options in
their place: with the same output, exit code and error. Two runs of the program with such settings
agree when the theme files are the same. Where a base file is given or set, the preset of the
settings does not matter, and for a check neither does their mode. -/
theorem options_as_settings (files : Files) (s : Settings) (file base : Option String)
    (mode : Option Mode) (json : Bool) :
    (Command.bake none none none json).run files (s.given file base mode) =
        (Command.bake file base mode json).run files s ∧
      (∀ files' args args' config config',
        readArguments args = .ok ⟨config, .bake file base mode json⟩ →
        readArguments args' = .ok ⟨config', .bake none none none json⟩ →
        settings files config = .ok s → settings files' config' = .ok (s.given file base mode) →
        (∀ path ∈ (s.given file base mode).themePaths, files' path = files path) →
        run files' args' = run files args) ∧
      ((base <|> s.base).isSome → ∀ preset,
        (Command.bake file base mode json).run files { s with preset } =
            (Command.bake file base mode json).run files s ∧
          (Command.check file base).run files { s with preset } =
            (Command.check file base).run files s) ∧
      ∀ mode', (Command.check file base).run files { s with mode := mode' } =
        (Command.check file base).run files s := by
  refine ⟨run_bake_given fun _ _ => rfl, ?_, fun effective preset => ?_, fun mode' => ?_⟩
  · intro files' args args' config config' ha ha' hs hs' same
    rw [run_eq ha hs, run_eq ha' hs', run_bake_given same]
  · have hb : Source.base files { s with preset } base = Source.base files s base :=
      Source.base_congr rfl (fun _ _ => rfl) fun h => by simp [h] at effective
    have ho : Source.overlay? files { s with preset } file = Source.overlay? files s file := rfl
    exact ⟨run_bake_congr hb ho rfl, run_check_congr hb ho⟩
  · exact run_check_congr rfl rfl

/-- There is just the default settings file. -/
def configured (text : String) : Files := fun path =>
  if path = defaultConfig then .text text else .missing

/-- The file that cannot be read is named in the same words, whether an option or the settings name
it, and a preset that nothing needs may have any name. -/
theorem options_as_settings_deep :
    let plain := configured "[theme]\nbase = \"shallow.theme\"\npreset = \"no such preset\"\n"
    let replaced := configured ("[theme]\nbase = \"deep.theme\"\noverride = \"ink.theme\"\n" ++
      "preset = \"no such preset\"\nmode = \"light\"\n")
    let args := ["bake", "ink.theme", "--base", "deep.theme", "-m", "light"]
    let unread : Output := .fail (.unreadable "deep.theme" "No such file or directory (os error 2)")
    run replaced ["bake"] = run plain args ∧ run plain args = unread.exit ∧
      (Command.bake none none none false).run replaced ⟨some "deep.theme", "latte", none, .light⟩ =
        unread := by
  intro plain replaced args unread
  have ha : readArguments args =
      .ok ⟨none, .bake (some "ink.theme") (some "deep.theme") (some .light) false⟩ := by
    decide +kernel
  have hs : settings plain none = .ok ⟨some "shallow.theme", "no such preset", none, .dark⟩ := by
    decide +kernel
  have hs' : settings replaced none =
      .ok ⟨some "deep.theme", "no such preset", some "ink.theme", .light⟩ := by
    decide +kernel
  have same : ∀ path ∈ ["deep.theme", "ink.theme"], replaced path = plain path := by decide +kernel
  obtain ⟨-, runs, -, -⟩ := options_as_settings plain ⟨some "shallow.theme", "no such preset", none,
    .dark⟩ (some "ink.theme") (some "deep.theme") (some .light) false
  obtain ⟨-, -, preset, -⟩ := options_as_settings replaced ⟨some "deep.theme", "no such preset",
    none, .light⟩ none none none false
  refine ⟨runs replaced args ["bake"] none none ha (by decide +kernel) hs hs' same, ?_, ?_⟩
  · rw [run_eq ha hs]
    rfl
  · exact (preset rfl "latte").1.trans rfl

end CommandLine

end ColorTheme
