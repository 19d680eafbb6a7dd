import Shorthand.Pipeline.Action

/-!
Stages of a pipeline, read from their declarations. Actions come as a mapping by name or as a list.
-/
namespace Shorthand.Pipeline

structure Stage where
  name : String
  condition : Option String
  actions : List Action
  /-- The other attributes of the stage, passed on as they are. -/
  extra : Table Node

namespace Stage

def readEntries (context : String) (compiler : Fragment.Compiler) :
    List (String × Node) → Except Error (List Action × Fragment.Compiler)
  | [] => .ok ([], compiler)
  | (name, node) :: entries => do
    let (action, compiler) ← Action.ofNode context compiler name node
    let (actions, compiler) ← readEntries context compiler entries
    .ok (action :: actions, compiler)

def readItems (context : String) (compiler : Fragment.Compiler) (seen : List String) :
    List Node → Except Error (List Action × Fragment.Compiler)
  | [] => .ok ([], compiler)
  | item :: items =>
    let (name, body) := Table.take item.entries "Name"
    match name.bind Node.text? with
    | none => .error (.malformed context "listed actions need a string Name")
    | some name =>
      if seen.contains name then .error (.malformed context s!"action '{name}' declared twice")
      else do
        let (action, compiler) ← Action.ofNode context compiler name (.map body)
        let (actions, compiler) ← readItems context compiler (name :: seen) items
        .ok (action :: actions, compiler)

def readActions (context : String) (compiler : Fragment.Compiler) :
    Option Node → Except Error (List Action × Fragment.Compiler)
  | some (.map entries) => readEntries context compiler entries
  | some (.list items) => readItems context compiler [] items
  | _ => .error (.malformed context "Actions must be a mapping or a list")

def ofNode (context : String) (compiler : Fragment.Compiler) (node : Node) :
    Except Error (Stage × Fragment.Compiler) := do
  if !node.isMap then .error (.malformed context s!"stage must be a mapping, got {node.json}")
  let (name, rest) := Table.take node.entries "Name"
  match name.bind Node.text? with
  | none => .error (.malformed context "every stage needs a string Name")
  | some name =>
    let context := s!"{context} stage '{name}'"
    let (condition, rest) := Table.take rest "Condition"
    let condition ← Action.readName context "Condition" condition
    let (actions, extra) := Table.take rest "Actions"
    let (actions, compiler) ← readActions context compiler actions
    if actions.isEmpty then .error (.malformed context "stage has no actions")
    .ok (⟨name, condition, actions, extra⟩, compiler)

def readAfter (context : String) (compiler : Fragment.Compiler) (seen : List String) :
    List Node → Except Error (List Stage × Fragment.Compiler)
  | [] => .ok ([], compiler)
  | node :: nodes => do
    let (stage, compiler) ← ofNode context compiler node
    if seen.contains stage.name then
      .error (.malformed context s!"stage '{stage.name}' declared twice")
    let (stages, compiler) ← readAfter context compiler (stage.name :: seen) nodes
    .ok (stage :: stages, compiler)

/-- Reads the stages of one pipeline; their names differ. -/
def readAll (context : String) (compiler : Fragment.Compiler) (nodes : List Node) :
    Except Error (List Stage × Fragment.Compiler) :=
  readAfter context compiler [] nodes

end Stage
end Shorthand.Pipeline
