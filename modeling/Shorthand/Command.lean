import Shorthand.Digest
import Shorthand.Expansion
import Shorthand.Format

/-!
The two commands: to expand a template, and to check that it can be expanded. What a command does is a
value; the texts of files come from a function.
-/
namespace Shorthand

/-- What to expand, and with which parameters and options. Parameters are pairs of a name and a value, with
an equals sign between them. -/
structure Request where
  file : String
  params : List String := []
  paramsFile : Option String := none
  config : Option String := none

inductive Command
  | expand (request : Request) (output : Option String) (format : Format)
  | check (request : Request)

/-- What a command prints, and the file that it writes. -/
structure Outcome where
  printed : String := ""
  saved : Option (String × String) := none

/-- How the text of a file is got. -/
abbrev Source := String → Except FileFault String

namespace Source

def text (source : Source) (path : String) : Except Error String := (source path).mapError (.file path)

def node (source : Source) (path : String) : Except Error Node := do
  let text ← source.text path
  (Format.ofPath path).parse text

end Source

namespace Request

/-- A name has no blanks around it, and is not empty; a value is what follows the first equals sign. -/
def param (pair : String) : Except ParameterFault (String × String) :=
  match Text.splitFirst? '=' pair.toList with
  | none => .error (.notPair pair)
  | some (name, value) =>
    let name := Text.trim name
    if name.isEmpty then .error (.emptyName pair) else .ok (String.ofList name, String.ofList value)

/-- The values of a file of parameters, none of which is a mapping. -/
def fileParams (path : String) : Node → Except ParameterFault Parameters
  | .map entries => entries.mapM fun (name, value) =>
    if value.isMap then .error (.notScalar name) else .ok (name, value.plainText)
  | _ => .error (.notMapping path)

def options (source : Source) (r : Request) : Except Error Options :=
  match r.config with
  | none => .ok {}
  | some path => do
    let text ← source.text path
    Options.parse text

/-- The values of the file, and then those of the command line, which win. -/
def parameters (source : Source) (r : Request) : Except Error Parameters := do
  let ofFile ← match r.paramsFile with
    | none => .ok []
    | some path => do
      let node ← source.node path
      (fileParams path node).mapError .parameter
  let given ← (r.params.mapM param).mapError .parameter
  .ok (Table.putAll ofFile given)

/-- Options come first, then parameters, then the template. -/
def expand (source : Source) (r : Request) : Except Error Expansion := do
  let options ← r.options source
  let params ← r.parameters source
  let template ← source.node r.file
  Expansion.ofNode params options template

end Request

namespace Command

def summary (file : String) (e : Expansion) : String :=
  s!"OK: {file}\n{e.report.text}\nDigest:    {Digest.ofText (Node.map e.template).json}\n"

def run (source : Source) : Command → Except Error Outcome
  | expand request output format => do
    let e ← request.expand source
    let text := format.render (.map e.template)
    .ok (match output with
      | some path => { saved := some (path, text) }
      | none => { printed := text })
  | check request => do
    let e ← request.expand source
    .ok { printed := summary request.file e }

end Command
end Shorthand
