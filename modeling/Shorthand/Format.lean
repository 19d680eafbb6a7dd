import Shorthand.Files
import Shorthand.Json.Parser
import Shorthand.ShortForm
import Shorthand.Yaml.Printer

/-!
The formats of template files.
-/
namespace Shorthand

inductive Format
  | yaml
  | json
  deriving DecidableEq

namespace Format

/-- The format that a user asks for by name. -/
def ofName? (name : String) : Option Format :=
  if name = "yaml" then some .yaml else if name = "json" then some .json else none

/-- The format that a file is read in. -/
def ofPath (path : String) : Format := if FilePath.extension? path = some "json" then .json else .yaml

def parse (format : Format) (source : String) : Except Error Node :=
  match format with
  | .yaml => ShortForm.parse source
  | .json => match Json.parse? source with
    | some node => .ok node
    | none => .error .json

def render (format : Format) (node : Node) : String :=
  match format with
  | .yaml => Yaml.render node
  | .json => node.indentedJson

end Format
end Shorthand
