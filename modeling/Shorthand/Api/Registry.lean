import Shorthand.Naming
import Shorthand.Reference.Api
import Shorthand.Rewriting

/-!
The symbol table of one API: which parts it has and the logical id of each.
-/
namespace Shorthand

/-- The letters and digits of a text, the first of them in upper case. -/
def slug (text : String) : String :=
  match text.toList.filter Char.isAlphanum with
  | [] => ""
  | c :: cs => String.ofList (c.toUpper :: cs)

namespace Api

structure Registry where
  api : String
  /-- Ids with the authorizers' types. -/
  authorizers : List (String × (String × String)) := []
  /-- Ids with the models' content types. -/
  models : List (String × (String × String)) := []
  validators : List (ValidatorMode × String) := []
  /-- All paths but the root. -/
  resources : List (Path × String) := []
  methods : List ((Path × String) × String) := []
  deployment : Option String := none
  usedIds : List String := []

namespace Registry

/-- Takes an id for itself: the base, with as many underscores as make it new. -/
def claim (r : Registry) (base : String) : String × Registry :=
  let id := Naming.underscored base (Naming.free r.usedIds (Naming.underscored base) 0)
  (id, { r with usedIds := r.usedIds ++ [id] })

def rootAttribute : String := "RootResourceId"

/-- Where a part of the API is found. -/
def find (r : Registry) (text : String) : ApiPart → Except Error Target
  | .container => .ok (.resource r.api)
  | .authorizer name =>
    known ((Table.get? r.authorizers name).map Prod.fst) s!"no authorizer '{name}'"
  | .model name => known ((Table.get? r.models name).map Prod.fst) s!"no model '{name}'"
  | .validator mode => known (Table.get? r.validators mode) s!"no '{mode.name}' validator is in use"
  | .resource path =>
    if path = Path.root then .ok ⟨r.api, some rootAttribute⟩
    else known (Table.get? r.resources path) s!"no resource at path '{path.text}'"
  | .method path verb => known (Table.get? r.methods (path, verb)) s!"no method {verb} {path.text}"
  | .deployment => known r.deployment "deployment not generated yet"
where
  known (id : Option String) (reason : String) : Except Error Target :=
    match id with
    | some id => .ok (.resource id)
    | none => .error (.unknownReference text reason)

def lookup (r : Registry) (text : String) (ref : ApiReference) : Except Error Target := do
  let target ← r.find text ref.part
  .ok (target.withAttribute ref.attr)

end Registry
end Api
end Shorthand
