import Shorthand.Json.Printer

/-!
Parameter values: those given for a run, and the defaults that a template declares for the others.
-/
namespace Shorthand

abbrev Parameters := Table String

namespace Parameters

def declared : Table Node → List (String × Node)
  | template => match Table.get? template "Parameters" with
    | some (.map entries) => entries
    | _ => []

/-- Takes the default of each declared parameter that has no value yet. -/
def withDefaults (params : Parameters) (template : Table Node) : Parameters :=
  (declared template).foldl
    (fun params (name, declaration) =>
      match declaration.get? "Default" with
      | some value => Table.putNew params name value.plainText
      | none => params)
    params

end Parameters
end Shorthand
