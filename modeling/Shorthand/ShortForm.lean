import Shorthand.Error
import Shorthand.Yaml.Value

/-!
Templates as YAML values: tags are the short forms of calls, and keys are texts.
-/
namespace Shorthand.ShortForm

/-- The text of an attribute's path is cut at its first point. -/
def splitPath (path : String) : Node :=
  match Text.splitFirst? '.' path.toList with
  | some (id, attr) => .list [.text (String.ofList id), .text (String.ofList attr)]
  | none => .text path

/-- The call that a tag stands for. -/
def call (name : String) (arg : Node) : Node :=
  if name = "Ref" ∨ name = "Condition" then .map [(name, arg)]
  else if name = "GetAtt" then
    .map [("Fn::GetAtt", match arg with
      | .text path => splitPath path
      | arg => arg)]
  else .map [("Fn::" ++ name, arg)]

/-- The text of a key; a key that is no scalar, or null, is refused. -/
def key : Yaml.Value → Except Error String
  | .text s => .ok s
  | .bool b => .ok (if b then "true" else "false")
  | .number n => .ok (String.ofList (Yaml.numberChars n))
  | other => .error (.malformed "template" s!"mapping key {other.shown} is not a scalar")

def number : Number → Except Error Node
  | .double x =>
    if x.isFinite then .ok (.number (.double x))
    else
      let shown := String.ofList (Yaml.numberChars (.double x))
      .error (.malformed "template" s!"number {shown} has no JSON form")
  | n => .ok (.number n)

mutual
/-- The node of a value. Of two entries whose keys have one text the later wins. -/
def node : Yaml.Value → Except Error Node
  | .null => .ok .null
  | .bool b => .ok (.bool b)
  | .number n => number n
  | .text s => .ok (.text s)
  | .list items => do
    let items ← nodes items
    .ok (.list items)
  | .map pairs => do
    let table ← entries [] pairs
    .ok (.map table)
  | .tagged tag value => do
    let arg ← node value
    .ok (call (String.ofList (tag.toList.dropWhile (· == '!'))) arg)

def nodes : List Yaml.Value → Except Error (List Node)
  | [] => .ok []
  | item :: items => do
    let item ← node item
    let items ← nodes items
    .ok (item :: items)

/-- Puts the entries into a table, one after another. -/
def entries (table : Table Node) : List (Yaml.Value × Yaml.Value) → Except Error (Table Node)
  | [] => .ok table
  | (name, value) :: pairs => do
    let name ← key name
    let value ← node value
    entries (Table.put table name value) pairs
end

/-- The node of a YAML text. -/
def parse (source : String) : Except Error Node :=
  match Yaml.Value.parse? source with
  | some value => node value
  | none => .error .yaml

end Shorthand.ShortForm
