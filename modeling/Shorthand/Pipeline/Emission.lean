import Shorthand.Pipeline.Graph

/-!
Ordered stages as they are written into the template, and the expansion of the pipelines among a
template's resources.
-/
namespace Shorthand.Pipeline

def artifactNodes (names : List String) : Node :=
  .list (names.map fun name => .map [("Name", .text name)])

def underCondition (condition : Option String) (node : Node) : Node :=
  match condition with
  | some condition => .onlyIf condition node
  | none => node

namespace OrderedAction

/-- An entry that is left out when there is nothing in it. -/
def entryUnless (absent : Bool) (key : String) (node : Node) : Table Node :=
  if absent then [] else [(key, node)]

def toNode (a : OrderedAction) : Node :=
  let d := a.action
  let head : Table Node := [("Name", .text d.name), ("ActionTypeId", d.type.toNode)]
  let configuration := entryUnless d.configuration.isEmpty "Configuration" (.map d.configuration)
  let inputs := entryUnless d.inputs.isEmpty "InputArtifacts" (artifactNodes d.inputs)
  let outputs := entryUnless d.outputs.isEmpty "OutputArtifacts" (artifactNodes d.outputs)
  let namespaceEntry : Table Node := match a.namespaceName with
    | some name => [("Namespace", .text name)]
    | none => []
  let order : Table Node := [("RunOrder", .whole a.runOrder.toNat)]
  underCondition d.condition
    (.map (Table.putAll (head ++ configuration ++ inputs ++ outputs ++ namespaceEntry ++ order) d.extra))

end OrderedAction

namespace OrderedStage

def toNode (s : OrderedStage) : Node :=
  underCondition s.condition
    (.map (Table.putAll [("Name", .text s.name), ("Actions", .list (s.actions.map OrderedAction.toNode))]
      s.extra))

/-- Each action's name after its stage's, with its run order. -/
def runOrders (s : OrderedStage) : List (String × UInt64) :=
  s.actions.map fun a => (s!"{s.name}:{a.action.name}", a.runOrder)

end OrderedStage

def stagesNode (stages : List OrderedStage) : Node := .list (stages.map OrderedStage.toNode)

/-- What became of one pipeline. -/
structure Summary where
  id : String
  /-- In the order of emission. -/
  runOrders : List (String × UInt64)

/-- Puts a context before the one of a malformed declaration. -/
def within (context : String) : Error → Error
  | .malformed inner message => .malformed s!"{context} {inner}" message
  | other => other

/-- Reads, links, orders and writes the stages of one pipeline. -/
def expandStages (id : String) (stages : List Node) : Except Error (Node × Summary) := do
  let context := s!"pipeline '{id}'"
  let (stages, compiler) ← Stage.readAll context {} stages
  let ordered ← (build stages compiler).mapError (within context)
  .ok (stagesNode ordered, ⟨id, ordered.flatMap OrderedStage.runOrders⟩)

def stagesOf? (resource : Node) : Option (List Node) :=
  ((resource.get? "Properties").bind fun properties => properties.get? "Stages").bind Node.list?

def hasActionMap (stage : Node) : Bool := ((stage.get? "Actions").map Node.isMap).getD false

/-- A resource of one of the types, with a stage whose actions are a mapping. -/
def isShorthand (types : List String) (resource : Node) : Bool :=
  match (resource.get? "Type").bind Node.text?, stagesOf? resource with
  | some type, some stages => types.contains type && stages.any hasActionMap
  | _, _ => false

/-- Applies a function to the value under a key of a mapping. -/
def mapAt (key : String) (f : Node → Node) : Node → Node
  | .map entries =>
    match Table.get? entries key with
    | some node => .map (Table.put entries key (f node))
    | none => .map entries
  | other => other

def putStages (stages resource : Node) : Node :=
  mapAt "Properties" (mapAt "Stages" fun _ => stages) resource

/-- Expands the pipelines among resources, in place and in order. After a failure the earlier ones are
expanded, and the one that failed has lost its stages. -/
def expandAll (types : List String) : List (String × Node) → Except Error (List Summary) × Table Node
  | [] => (.ok [], [])
  | (id, resource) :: rest =>
    if isShorthand types resource then
      match expandStages id ((stagesOf? resource).getD []) with
      | .error e => (.error e, (id, putStages .null resource) :: rest)
      | .ok (stages, summary) =>
        let (summaries, expanded) := expandAll types rest
        (summaries.map (summary :: ·), (id, putStages stages resource) :: expanded)
    else
      let (summaries, expanded) := expandAll types rest
      (summaries, (id, resource) :: expanded)

end Shorthand.Pipeline
