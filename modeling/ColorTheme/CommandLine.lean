import ColorTheme.Bake
import ColorTheme.CommandLine.Arguments
import ColorTheme.CommandLine.Files
import ColorTheme.Listing
import ColorTheme.Settings
/-! # The command line

The program checks theme files, bakes them for one mode and lists the slots. It is a function from
its arguments and the files it sees to what it prints and how it ends. -/
namespace ColorTheme.CommandLine

/-- How a command fails before it prints. Failures to write the standard output, with the messages
`Failed to write output` and `Failed to write JSON`, are left out: the program here ends with a
text, and printing that text is up to whoever runs it. -/
inductive Failure where
  | noSettingsFile (path : String)
  | unreadable (path reason : String)
  | settings (path : String) (error : SettingsError)
  | theme (origin : String) (error : ParseError)
  | unknownPreset (id : String)
  | bake (mode : Mode) (error : BakeError)
  | check (failed : Nat)
  deriving DecidableEq, Repr

namespace Failure

def message : Failure → String
  | noSettingsFile path => s!"Config file {path} does not exist"
  | unreadable path _ => s!"Failed to read {path}"
  | settings path _ => s!"Failed to parse {path}"
  | theme origin _ => s!"Failed to parse {origin}"
  | unknownPreset id => s!"Unknown theme preset `{id}`"
  | bake mode _ => s!"Failed to bake {mode.name} theme"
  | check failed => s!"Theme check failed for {failed} mode(s)"

def cause? : Failure → Option String
  | unreadable _ reason => some reason
  | settings _ error =>
    some ("TOML parse error" ++ (error.message?.map ("\n" ++ ·)).getD "")
  | theme _ error => some error.message
  | bake _ error => some error.message
  | _ => none

/-- The message and, if there is one, the cause, from which every line is set in. -/
def text (f : Failure) : String :=
  "Error: " ++ f.message ++
    match f.cause? with
    | none => ""
    | some cause => "\n\nCaused by:\n    " ++ "\n    ".intercalate (cause.splitOn "\n")

end Failure

structure Source where
  origin : String
  definition : Definition
  duplicates : List Duplicate

namespace Source

def parse (origin text : String) : Except Failure Source :=
  match Definition.parse text with
  | .ok (definition, outcome) => .ok ⟨origin, definition, outcome.duplicates⟩
  | .error e => .error (.theme origin e)

def load (files : Files) (path : String) : Except Failure Source :=
  match (files path).read with
  | .ok text => parse path text
  | .error reason => .error (.unreadable path reason)

def preset (id : String) : Except Failure Source :=
  match Preset.ofId? id.toList with
  | some preset => parse s!"preset `{preset.id}`" preset.text
  | none => .error (.unknownPreset id)

/-- The base theme: the given file, else the file of the settings, else their preset. -/
def base (files : Files) (settings : Settings) (given : Option String) : Except Failure Source :=
  match given <|> settings.base with
  | some path => load files path
  | none => preset settings.preset

/-- The theme over the base, if there is one: the given file, else that of the settings. -/
def overlay? (files : Files) (settings : Settings) (given : Option String) :
    Except Failure (Option Source) :=
  match given <|> settings.overlay with
  | some path => (load files path).map some
  | none => .ok none

def combine (base : Source) (overlay : Option Source) : Definition :=
  match overlay with
  | some overlay => base.definition.combine overlay.definition
  | none => base.definition

def duplicateLines (s : Source) : List String :=
  s.duplicates.map fun d =>
    s!"{s.origin}:{d.line}: duplicate `{d.key}` ({d.mode.name}, {d.state.name}) ignored"

end Source

structure Output where
  lines : String
  failure : Option Failure
  deriving DecidableEq, Repr

namespace Output

def success (lines : String) : Output := ⟨lines, none⟩

def fail (f : Failure) : Output := ⟨"", some f⟩

end Output

def bake (files : Files) (settings : Settings) (file base : Option String) (mode : Option Mode)
    (json : Bool) : Except Failure String := do
  let base ← Source.base files settings base
  let overlay ← Source.overlay? files settings file
  let mode := mode.getD settings.mode
  match (base.combine overlay).bake mode with
  | .error e => .error (.bake mode e)
  | .ok table => .ok (if json then table.jsonListing else table.listing)

def checkMode (d : Definition) (mode : Mode) : List String × Bool :=
  match d.bakeWithReport mode with
  | .ok report =>
    (report.unused.map fun u =>
      s!"{mode.name}: unused entry `{u.key}` ({u.mode.name}, {u.state.name})", true)
  | .error e => ([s!"{mode.name}: {e.message}"], false)

/-- The modes that a check bakes for. -/
def checkedModes : List Mode := [.dark, .light]

def check (files : Files) (settings : Settings) (file base : Option String) :
    Except Failure Output := do
  let base ← Source.base files settings base
  let overlay ← Source.overlay? files settings file
  let results := checkedModes.map (checkMode (base.combine overlay))
  let lines := base.duplicateLines ++ (overlay.map Source.duplicateLines).getD [] ++
    results.flatMap (·.1)
  let failed := (results.filter fun result => !result.2).length
  let print (lines : List String) := String.join (lines.map (· ++ "\n"))
  if failed = 0 then .ok (.success (print (lines ++ ["ok"])))
  else .ok ⟨print lines, some (.check failed)⟩

def Command.run (files : Files) (settings : Settings) : Command → Output
  | check file base =>
    match CommandLine.check files settings file base with
    | .ok output => output
    | .error f => .fail f
  | bake file base mode json =>
    match CommandLine.bake files settings file base mode json with
    | .ok lines => .success lines
    | .error f => .fail f
  | slots => .success Slot.listing

/-- The settings file that is looked for where none is given. -/
def defaultConfig : String := "flipdef.toml"

def settingsAt (files : Files) (path : String) : Except Failure Settings :=
  match (files path).read with
  | .error reason => .error (.unreadable path reason)
  | .ok text =>
    match Settings.parse text with
    | .ok settings => .ok settings
    | .error e => .error (.settings path e)

/-- The settings of the given file, which must exist, or of the default file if it exists. -/
def settings (files : Files) (config : Option String) : Except Failure Settings :=
  match config with
  | some path =>
    if (files path).isThere then settingsAt files path else .error (.noSettingsFile path)
  | none => if (files defaultConfig).isThere then settingsAt files defaultConfig else .ok .standard

def Request.run (files : Files) (r : Request) : Output :=
  match settings files r.config with
  | .ok settings => r.command.run files settings
  | .error f => .fail f

structure Exit where
  code : UInt32
  out : String
  err : String
  deriving DecidableEq, Repr

def usage : String :=
  "Check and bake flipdef theme definitions\n\n" ++
  "Usage: flipdef-theme [-c FILE] [-v] COMMAND\n\n" ++
  "Commands:\n" ++
  "  check [FILE] [--base FILE]                          bake for dark and light and report\n" ++
  "  bake [FILE] [--base FILE] [-m MODE] [--json]        print every cell of a table\n" ++
  "  slots                                               list slots and their states\n"

def Output.exit (o : Output) : Exit :=
  match o.failure with
  | none => ⟨0, o.lines, ""⟩
  | some f => ⟨1, o.lines, f.text ++ "\n"⟩

def run (files : Files) (args : List String) : Exit :=
  match readArguments args with
  | .error .help => ⟨0, usage, ""⟩
  | .error .version => ⟨0, "flipdef-theme 0.1.0\n", ""⟩
  | .error .misuse => ⟨2, "", usage⟩
  | .ok request => (request.run files).exit

/-- The files that a request may consult, given what is known of them. -/
def Request.paths (files : Files) (r : Request) : List String :=
  let config := r.config.getD defaultConfig
  match settings files r.config with
  | .error _ => [config]
  | .ok settings =>
    let themes := match r.command with
      | .check file base => [base <|> settings.base, file <|> settings.overlay]
      | .bake file base _ _ => [base <|> settings.base, file <|> settings.overlay]
      | .slots => []
    config :: themes.filterMap id

end ColorTheme.CommandLine
