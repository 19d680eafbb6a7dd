import Shorthand.Error
import Shorthand.Naming
import Shorthand.Table

/-!
Namespaces of output variables: those that actions ask for, and those made for actions whose variables
others read. No name is issued twice.
-/
namespace Shorthand.Pipeline

/-- Where an action stands: its stage's position and its own. -/
structure ActionId where
  stage : Nat
  index : Nat
  deriving DecidableEq

structure Namespaces where
  issued : List String := []
  assigned : List (ActionId × String) := []

namespace Namespaces

def get? (ns : Namespaces) (id : ActionId) : Option String := Table.get? ns.assigned id

def assign (ns : Namespaces) (id : ActionId) (name : String) : Namespaces :=
  ⟨ns.issued ++ [name], Table.put ns.assigned id name⟩

/-- Reserves a name that an action asks for. -/
def declare (ns : Namespaces) (context : String) (id : ActionId) (name : String) :
    Except Error Namespaces :=
  if ns.issued.contains name then
    .error (.malformed context s!"namespace '{name}' is already in use")
  else .ok (ns.assign id name)

/-- The characters that a namespace may hold; letters are small. -/
def allowed (c : Char) : Char :=
  if c.isAlphanum || c = '-' || c = '_' || c = '@' then c.toLower else '-'

/-- The name made of a stage's and an action's. -/
def derive (stage action : String) : String :=
  String.ofList ((stage.toList ++ '-' :: action.toList).map allowed)

/-- The namespace of an action, issued if it has none. -/
def ensure (ns : Namespaces) (id : ActionId) (stage action : String) : String × Namespaces :=
  match ns.get? id with
  | some name => (name, ns)
  | none =>
    let base := derive stage action
    let name := Naming.hyphenated base (Naming.free ns.issued (Naming.hyphenated base) 1)
    (name, ns.assign id name)

end Namespaces
end Shorthand.Pipeline
