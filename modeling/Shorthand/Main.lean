import Shorthand.CommandLine

/-!
The program: words are read as a command, the files that it names are read, and what it makes is printed or
written.
-/
namespace Shorthand.Main

/-- Why the system refused a file. The number of a fault comes with either sign. -/
def fault : IO.Error → FileFault
  | .noFileOrDirectory .. => .notFound
  | .inappropriateType _ number _ => if number = 20 || number = -20 then .notDirectory else .isDirectory
  | .invalidArgument _ number description =>
    if number = 36 || number = -36 then .nameTooLong
    else if number = 22 then .nulInName
    else .other description
  | e => .other e.toString

def readText (path : String) : IO (Except FileFault String) := do
  try
    let text ← IO.FS.readFile path
    return .ok text
  catch e => return .error (fault e)

/-- The texts of some files, each read once. -/
def sourceOf : List String → IO Source
  | [] => return fun _ => .error .notFound
  | path :: paths => do
    let answer ← readText path
    let others ← sourceOf paths
    return fun asked => if asked = path then answer else others asked

/-- The files that a command reads. -/
def pathsOf : Command → List String
  | .expand r .. | .check r => r.config.toList ++ (r.paramsFile.toList ++ [r.file])

def save : Option (String × String) → IO (Except Error Unit)
  | none => return .ok ()
  | some (path, text) => do
    try
      IO.FS.writeFile path text
      return .ok ()
    catch e => return .error (.file path (fault e))

def run (words : List String) : IO (Except Error Unit) := do
  match CommandLine.parse words with
  | .error e => return .error e
  | .ok command =>
    let source ← sourceOf (pathsOf command)
    match command.run source with
    | .error e => return .error e
    | .ok outcome =>
      IO.print outcome.printed
      save outcome.saved

def usage : String :=
  "usage: expand -f FILE [-o FILE] [--format yaml|json] [-p NAME=VALUE]... [--params-file FILE] [--config FILE]\n" ++
  "       check -f FILE [-p NAME=VALUE]... [--params-file FILE] [--config FILE]"

end Shorthand.Main

/-- Ends with 2 where the words are no command, with 101 where a sum overflows, and with 1 where the command fails
otherwise. -/
def main (words : List String) : IO UInt32 := do
  match ← Shorthand.Main.run words with
  | .ok () => return 0
  | .error .usage =>
    IO.eprintln Shorthand.Main.usage
    return 2
  | .error .overflow =>
    IO.eprintln Shorthand.Error.overflow.message
    return 101
  | .error e =>
    IO.eprintln s!"error: {e.message}"
    return 1
