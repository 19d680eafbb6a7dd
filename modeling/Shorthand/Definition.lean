import Shorthand.Call
import Shorthand.Error

/-!
Resource definitions: what stands under a logical id, taken apart into the keys that have a meaning here
and the other ones, and written back.
-/
namespace Shorthand

structure Definition where
  id : String
  type : String
  condition : Option String
  /-- In order, each id once. -/
  dependsOn : List String
  properties : Table Node
  /-- The other attributes of the resource, passed on as they are. -/
  attributes : Table Node

/-- Adds an element at the end unless it is there. -/
def addOnce (xs : List String) (x : String) : List String := if xs.contains x then xs else xs ++ [x]

namespace Definition

def new (id type : String) (properties : Table Node) : Definition :=
  ⟨id, type, none, [], properties, []⟩

def withProperties (d : Definition) (properties : Table Node) : Definition :=
  { d with properties := properties }

def withCondition (d : Definition) (condition : Option String) : Definition :=
  { d with condition := condition }

def readType (context : String) : Option Node → Except Error String
  | some (.text type) => .ok type
  | _ => .error (.malformed context "definition needs a string Type")

def readCondition (context : String) : Option Node → Except Error (Option String)
  | none | some .null => .ok none
  | some (.text condition) => .ok (some condition)
  | some other => .error (.malformed context s!"Condition must be a name, got {other.json}")

def readDependency (context : String) : Node → Except Error String
  | .text id => .ok id
  | other => .error (.malformed context s!"DependsOn entries must be ids, got {other.json}")

def readDependsOn (context : String) : Option Node → Except Error (List String)
  | none | some .null => .ok []
  | some (.text id) => .ok [id]
  | some (.list items) => do
    let ids ← items.mapM (readDependency context)
    .ok (ids.foldl addOnce [])
  | some other => .error (.malformed context s!"DependsOn must be a list, got {other.json}")

def readProperties (context : String) : Option Node → Except Error (Table Node)
  | none | some .null => .ok []
  | some (.map properties) => .ok properties
  | some other => .error (.malformed context s!"Properties must be a mapping, got {other.json}")

/-- Reads the definition that stands under an id. -/
def ofNode (id : String) (node : Node) : Except Error Definition := do
  let context := s!"resource '{id}'"
  match node with
  | .map entries =>
    let (type, rest) := Table.take entries "Type"
    let type ← readType context type
    let (condition, rest) := Table.take rest "Condition"
    let condition ← readCondition context condition
    let (dependsOn, rest) := Table.take rest "DependsOn"
    let dependsOn ← readDependsOn context dependsOn
    let (properties, rest) := Table.take rest "Properties"
    let properties ← readProperties context properties
    .ok ⟨id, type, condition, dependsOn, properties, rest⟩
  | _ => .error (.malformed context "definition must be a mapping")

/-- What is written under the id. A condition, dependencies and properties are left out when there are
none. -/
def toNode (d : Definition) : Node :=
  let head : Table Node := [("Type", .text d.type)]
  let condition : Table Node := match d.condition with
    | some condition => [("Condition", .text condition)]
    | none => []
  let dependsOn : Table Node :=
    if d.dependsOn.isEmpty then [] else [("DependsOn", .list (d.dependsOn.map .text))]
  let properties : Table Node :=
    if d.properties.isEmpty then [] else [("Properties", .map d.properties)]
  .map (Table.putAll (head ++ condition ++ dependsOn ++ properties) d.attributes)

/-- The id with the type, for people. -/
def label (d : Definition) : String := s!"{d.id} ({d.type})"

end Definition
end Shorthand
