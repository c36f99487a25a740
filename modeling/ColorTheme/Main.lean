import ColorTheme.CommandLine
/-! # The program

Reads the files that a command consults and prints what the command line answers. -/
namespace ColorTheme.CommandLine

def look (path : String) : IO FileState := do
  if path.toList.contains '\x00' then return .holdsNul
  try
    return .text (← IO.FS.readFile path)
  catch
    | .noFileOrDirectory .. => return .missing
    | .inappropriateType _ 21 _ => return .directory
    | .inappropriateType .. => return .belowFile
    | .invalidArgument _ 36 _ => return .tooLong
    | .permissionDenied .. => return .unreadable "Permission denied (os error 13)"
    | .userError _ => return .unreadable "stream did not contain valid UTF-8"
    | e => return .unreadable (toString e)

/-- What some paths lead to; of other paths nothing is known. -/
def lookAll (paths : List String) : IO Files := do
  let states ← paths.mapM fun path => return (path, ← look path)
  return fun path => (states.lookup path).getD .missing

end ColorTheme.CommandLine

open ColorTheme.CommandLine in
def main (args : List String) : IO UInt32 := do
  let files ← match readArguments args with
    | .ok request => do
      let settingsOnly ← lookAll (request.paths fun _ => .missing)
      lookAll (request.paths settingsOnly)
    | .error _ => lookAll []
  let exit := run files args
  IO.print exit.out
  IO.eprint exit.err
  return exit.code
