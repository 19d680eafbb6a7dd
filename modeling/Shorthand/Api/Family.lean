import Shorthand.Api.Declaration

/-!
The family of APIs: the declared ones with their symbol tables, and the references to their parts.
-/
namespace Shorthand

/-- The APIs declared so far, in order, and how many digits of a digest a deployment's id carries. -/
structure Apis where
  digestLength : Nat
  table : Table Api.Registry := []

namespace Apis

def count (apis : Apis) : Nat := apis.table.length

/-- Declares one API. Its id has letters and digits only, and no small letter first. -/
def declare (apis : Apis) (id : String) (declaration : Node) : Except Error (List Definition × Apis) :=
  if slug id ≠ id ∨ id = "" then
    .error (.malformed s!"API '{id}'"
      "id must be alphanumeric and start with an uppercase letter or digit")
  else if Table.has apis.table id then .error (.duplicateLogicalId id)
  else do
    let (registry, ds) ← Api.Builder.expand id apis.digestLength declaration
    .ok (ds, { apis with table := Table.put apis.table id registry })

/-- Declares APIs in order, up to the first that is refused. -/
def declareAll : List (String × Node) → Apis → Except Error (List Definition) × Apis
  | [], apis => (.ok [], apis)
  | (id, declaration) :: rest, apis =>
    match apis.declare id declaration with
    | .error e => (.error e, apis)
    | .ok (ds, apis) =>
      match declareAll rest apis with
      | (.ok more, apis) => (.ok (ds ++ more), apis)
      | failure => failure

/-- Declares a whole section. -/
def expandSection (apis : Apis) : Node → Except Error (List Definition) × Apis
  | .map entries => declareAll entries apis
  | _ => (.error (.malformed "API section" "must be a mapping of API ids"), apis)

def lookup (apis : Apis) (text : String) : Except Error Target := do
  let ref ← ApiReference.parse text
  match Table.get? apis.table ref.api with
  | some registry => registry.lookup text ref
  | none => .error (.unknownReference text s!"no API '{ref.api}'")

def symbols (apis : Apis) : SymbolTable := ⟨ApiReference.claims, apis.lookup⟩

def resolver (apis : Apis) : Resolver :=
  { name := "api"
    handles := fun name => name == Call.ref || name == Call.getAtt || name == Call.sub
    expand := apis.symbols.rewriteCall }

end Apis
end Shorthand
