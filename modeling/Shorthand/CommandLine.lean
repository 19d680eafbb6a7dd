import Shorthand.Command

/-!
Commands as they are given in words.
-/
namespace Shorthand.CommandLine

/-- An option, which always has a value. -/
inductive Flag
  | file
  | output
  | format
  | param
  | paramsFile
  | config
  deriving DecidableEq

namespace Flag

def name : Flag → String
  | file => "file"
  | output => "output"
  | format => "format"
  | param => "param"
  | paramsFile => "params-file"
  | config => "config"

/-- The letter that stands for an option. -/
def letter? : Flag → Option Char
  | file => some 'f'
  | output => some 'o'
  | param => some 'p'
  | _ => none

end Flag

def expandFlags : List Flag := [.file, .output, .format, .param, .paramsFile, .config]

def checkFlags : List Flag := [.file, .param, .paramsFile, .config]

/-- The option that a word begins, and its value if that is in the same word: after an equals sign, or right
after the letter. -/
def flag? (flags : List Flag) (word : String) : Option (Flag × Option String) :=
  match word.toList with
  | '-' :: '-' :: cs =>
    let (name, value) := match Text.splitFirst? '=' cs with
      | some (name, value) => (name, some (String.ofList value))
      | none => (cs, none)
    (flags.find? fun f => f.name = String.ofList name).map fun f => (f, value)
  | '-' :: c :: cs =>
    let value := match cs with
      | [] => none
      | '=' :: value => some (String.ofList value)
      | value => some (String.ofList value)
    (flags.find? fun f => f.letter? = some c).map fun f => (f, value)
  | _ => none

/-- Whether a word may be the value of the option before it; a hyphen alone may. -/
def isValue (word : String) : Bool := word = "-" || word.toList.head? != some '-'

/-- The options of a command. Two hyphens may end them. -/
def options (flags : List Flag) : List String → Option (List (Flag × String))
  | [] => some []
  | word :: words =>
    match flag? flags word, words with
    | some (flag, some value), words => (options flags words).map ((flag, value) :: ·)
    | some (flag, none), value :: words =>
      if isValue value then (options flags words).map ((flag, value) :: ·) else none
    | some (_, none), [] => none
    | none, words => if word = "--" && words.isEmpty then some [] else none

/-- The value of an option that may be given once; the outer level is missing where it is given twice. -/
def single? (given : List (Flag × String)) (flag : Flag) : Option (Option String) :=
  match given.filter fun (f, _) => f = flag with
  | [] => some none
  | [(_, value)] => some (some value)
  | _ => none

/-- A path that may be given once, and is not empty. -/
def path? (given : List (Flag × String)) (flag : Flag) : Option (Option String) := do
  let path ← single? given flag
  if path = some "" then none else some path

def request? (given : List (Flag × String)) : Option Request := do
  let file ← path? given .file
  let paramsFile ← path? given .paramsFile
  let config ← path? given .config
  let params := (given.filter fun (f, _) => f = Flag.param).map Prod.snd
  some ⟨← file, params, paramsFile, config⟩

def expand? (given : List (Flag × String)) : Option Command := do
  let request ← request? given
  let output ← path? given .output
  let format ← match ← single? given .format with
    | none => some .yaml
    | some name => Format.ofName? name
  some (.expand request output format)

/-- The command that words ask for. -/
def parse : List String → Except Error Command
  | name :: words =>
    let command? :=
      if name = "expand" then (options expandFlags words).bind expand?
      else if name = "check" then (options checkFlags words).bind fun given => (request? given).map .check
      else none
    match command? with
    | some command => .ok command
    | none => .error .usage
  | [] => .error .usage

end Shorthand.CommandLine
