/-! # Files

What the command line sees of the files around it. -/
namespace ColorTheme

inductive FileState where
  | text (content : String)
  | missing
  | directory
  /-- A part of the path that should be a directory is a file. -/
  | belowFile
  | tooLong
  /-- The path holds the character that no name can hold. -/
  | holdsNul
  /-- Something that cannot be read as text, for the given reason. -/
  | unreadable (reason : String)
  deriving DecidableEq, Repr

namespace FileState

def isThere : FileState → Bool
  | missing => false
  | belowFile => false
  | tooLong => false
  | holdsNul => false
  | _ => true

def read : FileState → Except String String
  | text content => .ok content
  | missing => .error "No such file or directory (os error 2)"
  | directory => .error "Is a directory (os error 21)"
  | belowFile => .error "Not a directory (os error 20)"
  | tooLong => .error "File name too long (os error 36)"
  | holdsNul => .error "file name contained an unexpected NUL byte"
  | unreadable reason => .error reason

end FileState

/-- Where a place is counted from. -/
inductive Anchor where
  | root
  /-- The working directory, or the directory some levels above of it. -/
  | working (above : Nat)
  deriving DecidableEq, Repr

/-- A place in the tree of directories: the names that lead down to it from its anchor. -/
structure Place where
  anchor : Anchor
  names : List String
  deriving DecidableEq, Repr

namespace Place

/-- The directory around a place. The root is its own. -/
def parent : Place → Place
  | ⟨.root, []⟩ => ⟨.root, []⟩
  | ⟨.working above, []⟩ => ⟨.working (above + 1), []⟩
  | ⟨anchor, names⟩ => ⟨anchor, names.dropLast⟩

def step (place : Place) (part : String) : Place :=
  if part = "" ∨ part = "." then place
  else if part = ".." then place.parent
  else { place with names := place.names ++ [part] }

/-- The places that a path passes on its way from a directory, and where it ends. -/
def follow (place : Place) : List String → List Place × Place
  | [] => ([], place)
  | part :: rest =>
    let (passed, last) := (place.step part).follow rest
    (place :: passed, last)

end Place

abbrev Files := String → FileState

namespace Files

def parts (path : String) : List String := path.splitOn "/"

def start (path : String) : Place := ⟨if path.startsWith "/" then .root else .working 0, []⟩

/-- The bytes that a path may have, and those of one of its parts. -/
def pathLimit : Nat := 4095

def partLimit : Nat := 255

def system : List (Place × FileState) :=
  (["bin", "boot", "dev", "etc", "home", "lib", "media", "mnt", "opt", "proc", "root", "run",
    "sbin", "srv", "sys", "tmp", "usr", "var"].map fun name => (⟨.root, [name]⟩, .directory)) ++
  [(⟨.root, ["dev", "null"]⟩, .text "")]

/-- The places that the name of a text makes: the directories on the way to it, and its own. -/
def placesOf (name content : String) : List (Place × FileState) :=
  let (passed, last) := (start name).follow (parts name)
  (last, .text content) :: passed.map (·, .directory)

/-- What a place is among some known ones. Anchors are directories. -/
def stateAt (known : List (Place × FileState)) (place : Place) : FileState :=
  (known.lookup place).getD (if place.names = [] then .directory else .missing)

def walk (known : List (Place × FileState)) (place : Place) : List String → FileState
  | [] => stateAt known place
  | part :: rest =>
    match stateAt known place with
    | .directory =>
      if part.utf8ByteSize ≤ partLimit then walk known (place.step part) rest else .tooLong
    | .text _ => .belowFile
    | other => other

/-- A working directory that holds the given texts, the names of which may lead through
directories of their own; of two texts with one place the later stays. -/
def ofList (texts : List (String × String)) : Files := fun path =>
  let known := texts.reverse.flatMap fun (name, content) => placesOf name content
  if path = "" then .missing
  else if path.toList.contains '\x00' then .holdsNul
  else if path.utf8ByteSize ≤ pathLimit then walk (known ++ system) (start path) (parts path)
  else .tooLong

end Files

end ColorTheme
