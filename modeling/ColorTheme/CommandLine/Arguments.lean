import ColorTheme.Mode
/-! # Command-line arguments

The options and commands of the program. An option with a value takes it from the same argument,
after `=` or directly behind a short name, or from the next one; short options without a value may
share an argument. An argument `--` ends the options. Each option but `-v` may be given once before
and once after the command, and the first fault or request for help, from left to right, decides. -/
namespace ColorTheme.CommandLine

inductive Flag where
  | config
  | verbose
  | help
  | version
  | mode
  | base
  | json
  deriving DecidableEq, Repr

namespace Flag

def long : Flag → String
  | config => "config"
  | verbose => "verbose"
  | help => "help"
  | version => "version"
  | mode => "mode"
  | base => "base"
  | json => "json"

def short? : Flag → Option Char
  | config => some 'c'
  | verbose => some 'v'
  | help => some 'h'
  | version => some 'V'
  | mode => some 'm'
  | base => none
  | json => none

def takesValue : Flag → Bool
  | config | mode | base => true
  | _ => false

end Flag

inductive Verb where
  | check
  | bake
  | slots
  | help
  deriving DecidableEq, Repr

namespace Verb

def name : Verb → String
  | check => "check"
  | bake => "bake"
  | slots => "slots"
  | help => "help"

def ofName? (s : String) : Option Verb := [check, bake, slots, help].find? fun verb => verb.name = s

def flags : Verb → List Flag
  | check => [.config, .verbose, .help, .base]
  | bake => [.config, .verbose, .help, .mode, .base, .json]
  | slots => [.config, .verbose, .help]
  | help => []

def takesFile : Verb → Bool
  | check | bake => true
  | _ => false

end Verb

/-- The options that may precede the command. -/
def globalFlags : List Flag := [.config, .verbose, .help, .version]

/-- What the options before or after the command say. -/
structure Level where
  config : Option String
  file : Option String
  base : Option String
  mode : Option Mode
  json : Bool
  deriving DecidableEq, Repr

inductive Stop where
  | help
  | version
  | misuse
  deriving DecidableEq, Repr

namespace Level

def blank : Level := ⟨none, none, none, none, false⟩

/-- The value of a path option, which is given once and is not empty. -/
def path (old : Option String) (value : String) : Except Stop (Option String) :=
  if old.isSome ∨ value = "" then .error .misuse else .ok (some value)

/-- Takes an option over; `value` is empty for an option without a value. -/
def give (l : Level) (flag : Flag) (value : String) : Except Stop Level :=
  match flag with
  | .verbose => .ok l
  | .help => .error .help
  | .version => .error .version
  | .config => (path l.config value).map fun config => { l with config }
  | .base => (path l.base value).map fun base => { l with base }
  | .json => if l.json then .error .misuse else .ok { l with json := true }
  | .mode =>
    match l.mode, Mode.target? value.toList with
    | none, some mode => .ok { l with mode := some mode }
    | _, _ => .error .misuse

def takeFile (l : Level) (value : String) : Except Stop Level :=
  (path l.file value).map fun file => { l with file }

end Level

inductive Ending where
  /-- Nothing is left of it. -/
  | done
  /-- The option is complete with this value. -/
  | value (flag : Flag) (value : String)
  /-- The value of the option is the next argument. -/
  | wanting (flag : Flag)
  /-- No such option, or a value where none belongs. -/
  | unknown
  deriving DecidableEq, Repr

/-- Reads short options behind the dash: those without a value, then how the argument ends. -/
def shortFlags (allowed : List Flag) : List Char → List Flag × Ending
  | [] => ([], .done)
  | c :: s =>
    match allowed.find? fun flag => flag.short? = some c with
    | none => ([], .unknown)
    | some flag =>
      if flag.takesValue then
        match s with
        | [] => ([], .wanting flag)
        | '=' :: s => ([], .value flag (String.ofList s))
        | s => ([], .value flag (String.ofList s))
      else
        let (flags, ending) := shortFlags allowed s
        (flag :: flags, ending)

def longFlag (allowed : List Flag) (s : List Char) : List Flag × Ending :=
  let name := String.ofList (s.takeWhile (· != '='))
  match allowed.find? fun flag => flag.long = name, s.dropWhile (· != '=') with
  | none, _ => ([], .unknown)
  | some flag, [] => if flag.takesValue then ([], .wanting flag) else ([flag], .done)
  | some flag, _ :: value =>
    if flag.takesValue then ([], .value flag (String.ofList value)) else ([], .unknown)

/-- The options in an argument; `none` for `--` and for anything that is no option. -/
def flags? (allowed : List Flag) (arg : String) : Option (List Flag × Ending) :=
  match arg.toList with
  | ['-', '-'] => none
  | '-' :: '-' :: s => some (longFlag allowed s)
  | ['-'] => none
  | '-' :: s => some (shortFlags allowed s)
  | _ => none

def isValue (arg : String) : Bool := arg = "-" || !arg.startsWith "-"

/-- Reads options up to the first argument that is none, and returns the arguments from there on. -/
def scan (allowed : List Flag) : List String → Level → Except Stop (Level × List String)
  | [], l => .ok (l, [])
  | arg :: rest, l =>
    match flags? allowed arg with
    | none => .ok (l, arg :: rest)
    | some (flags, ending) =>
      match flags.foldlM (fun l flag => l.give flag "") l with
      | .error stop => .error stop
      | .ok l =>
        match ending with
        | .done => scan allowed rest l
        | .unknown => .error .misuse
        | .value flag value =>
          match l.give flag value with
          | .error stop => .error stop
          | .ok l => scan allowed rest l
        | .wanting flag =>
          match rest with
          | [] => .error .misuse
          | value :: rest =>
            if isValue value then
              match l.give flag value with
              | .error stop => .error stop
              | .ok l => scan allowed rest l
            else .error .misuse

/-- Reads what follows a command: options with at most one file among or behind them. -/
def readLevel (verb : Verb) (args : List String) : Except Stop Level := do
  let takeFile (l : Level) (file : String) : Except Stop Level :=
    if verb.takesFile then l.takeFile file else .error .misuse
  let (l, rest) ← scan verb.flags args .blank
  match rest with
  | [] => .ok l
  | ["--"] => .ok l
  | ["--", file] => takeFile l file
  | "--" :: _ => .error .misuse
  | file :: rest =>
    let l ← takeFile l file
    let (l, rest) ← scan verb.flags rest l
    if rest = [] ∨ rest = ["--"] then .ok l else .error .misuse

inductive Command where
  | check (file base : Option String)
  | bake (file base : Option String) (mode : Option Mode) (json : Bool)
  | slots
  deriving DecidableEq, Repr

structure Request where
  config : Option String
  command : Command
  deriving DecidableEq, Repr

/-- Reads the arguments of the program. A settings file given after the command replaces one given
before it. -/
def readArguments (args : List String) : Except Stop Request := do
  let (before, rest) ← scan globalFlags args .blank
  match rest with
  | [] => .error .misuse
  | name :: rest =>
    match Verb.ofName? name with
    | none => .error .misuse
    | some .help =>
      match rest with
      | [] => .error .help
      | [name] => if (Verb.ofName? name).isSome then .error .help else .error .misuse
      | _ => .error .misuse
    | some verb =>
      let l ← readLevel verb rest
      let command := match verb with
        | .check => Command.check l.file l.base
        | .bake => .bake l.file l.base l.mode l.json
        | _ => .slots
      .ok ⟨l.config <|> before.config, command⟩

end ColorTheme.CommandLine
