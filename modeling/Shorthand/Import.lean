import Shorthand.Naming
import Shorthand.Rewriting

/-!
Imports: a placeholder `Import:` and the name of an export is bound, in the substitution it stands in,
to the call that reads the export.
-/
namespace Shorthand.Import

def lead : String := "Import:"

/-- The export that a placeholder's body asks for. -/
def exported? (body : String) : Option String :=
  (Text.after? lead.toList body.toList).map String.ofList

def nameOf (n : Nat) : String := Naming.numbered "Import" n

/-- The names given out in one substitution, in order, each with its export. -/
structure Imports where
  issued : Nat := 0
  names : List (String × String) := []

namespace Imports

def find? (imports : Imports) (exported : String) : Option String :=
  (imports.names.find? fun (_, e) => e == exported).map Prod.fst

/-- The name for a body that imports, a new one where the export has none yet. -/
def visit (bound : List String) (body : String) (imports : Imports) :
    Except Error (Option String) × Imports :=
  match exported? body with
  | none => (.ok none, imports)
  | some exported =>
    match imports.find? exported with
    | some name => (.ok (some name), imports)
    | none =>
      let n := Naming.free bound nameOf (imports.issued + 1)
      (.ok (some (nameOf n)), ⟨n, imports.names ++ [(nameOf n, exported)]⟩)

end Imports

/-- A substitution's template and bindings, if it has that form. -/
def parts? : Node → Option (String × Table Node)
  | .text template => some (template, [])
  | .list [.text template, .map bindings] => some (template, bindings)
  | _ => none

/-- Without imports only the form changes: empty bindings are left out. -/
def expand (name : String) (arg : Node) : Except Error Node :=
  match parts? arg with
  | none => .ok (.call name arg)
  | some (template, bindings) =>
    match Template.rewriteWith (Imports.visit (Table.keys bindings)) template {} with
    | (.error e, _) => .error e
    | (.ok rewritten, imports) =>
      if imports.names.isEmpty then
        .ok (.call name
          (if bindings.isEmpty then .text template else .list [.text template, .map bindings]))
      else
        let calls := imports.names.map fun (n, e) => (n, Node.call Call.importValue (.text e))
        .ok (.call name (.list [.text rewritten, .map (Table.putAll bindings calls)]))

def resolver : Resolver := { name := "import", handles := (· == Call.sub), expand := expand }

end Shorthand.Import
