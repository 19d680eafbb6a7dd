import Shorthand.Pipeline.Namespaces
import Shorthand.Pipeline.Stage
import Shorthand.Pipeline.Variable

/-!
The graph of a pipeline. First every artifact is given to its producer, then dependencies and variables
are resolved, and last each action gets its run order: above all actions of its stage that it waits for,
and not below the one it asks for.
-/
namespace Shorthand.Pipeline

/-- How an action is told in messages. -/
def placeName (stage action : String) : String := s!"stage '{stage}' action '{action}'"

def labelOf (stages : List Stage) (id : ActionId) : String :=
  match stages[id.stage]? with
  | some stage =>
    match stage.actions[id.index]? with
    | some action => s!"{stage.name}:{action.name}"
    | none => stage.name
  | none => ""

/-- Artifacts with the actions that put them out. -/
abbrev Producers := List (String × ActionId)

namespace Producers

def addOutputs (stages : List Stage) (context : String) (id : ActionId) :
    List String → Producers → Except Error Producers
  | [], ps => .ok ps
  | artifact :: artifacts, ps =>
    match Table.get? ps artifact with
    | some other =>
      .error (.malformed context s!"artifact '{artifact}' is already produced by {labelOf stages other}")
    | none => addOutputs stages context id artifacts (ps ++ [(artifact, id)])

def checkInputs (ps : Producers) (context : String) : List String → Except Error Unit
  | [] => .ok ()
  | artifact :: artifacts =>
    if Table.has ps artifact then checkInputs ps context artifacts
    else .error (.malformed context
      s!"input artifact '{artifact}' is not produced in this or an earlier stage")

/-- The outputs of a whole stage come before its inputs. -/
def addStage (stages : List Stage) (ps : Producers) (stage : Stage) (s : Nat) :
    Except Error Producers := do
  let ps ← stage.actions.zipIdx.foldlM
    (fun ps (action, i) =>
      addOutputs stages (placeName stage.name action.name) ⟨s, i⟩ action.outputs ps) ps
  stage.actions.forM fun action => checkInputs ps (placeName stage.name action.name) action.inputs
  .ok ps

def ofStages (stages : List Stage) : Except Error Producers :=
  stages.zipIdx.foldlM (fun ps (stage, s) => addStage stages ps stage s) []

end Producers

/-- Stages with their artifacts' producers. -/
structure Registered where
  stages : List Stage
  producers : Producers

def register (stages : List Stage) : Except Error Registered := do
  let producers ← Producers.ofStages stages
  .ok ⟨stages, producers⟩

/-- All actions by the names of stage and action. -/
def actionIndex (stages : List Stage) : List ((String × String) × ActionId) :=
  stages.zipIdx.flatMap fun (stage, s) =>
    stage.actions.zipIdx.map fun (action, i) => ((stage.name, action.name), ⟨s, i⟩)

/-- An action with the positions of the actions of its stage that it runs after. -/
structure LinkedAction where
  action : Action
  after : List Nat

structure LinkedStage where
  name : String
  condition : Option String
  extra : Table Node
  actions : List LinkedAction

structure Linked where
  stages : List LinkedStage
  namespaces : Namespaces

/-- What is known while the actions of a stage are linked. -/
structure LinkContext where
  index : List ((String × String) × ActionId)
  producers : Producers
  stage : Nat
  stageName : String

/-- What linking has found so far for one action, and issued for all. -/
structure LinkState where
  after : List Nat
  namespaces : Namespaces

namespace LinkContext

/-- The action that a name stands for; it may not be in a later stage. -/
def target (k : LinkContext) (context : String) (name : DependencyName) : Except Error ActionId :=
  match Table.get? k.index (name.stage.getD k.stageName, name.action) with
  | none => .error (.unknownReference name.text s!"{context} names no such action")
  | some id =>
    if k.stage < id.stage then .error (.malformed context s!"'{name.text}' is in a later stage")
    else .ok id

/-- Only actions of the same stage need an order; earlier stages have run by then. -/
def addAfter (k : LinkContext) (id : ActionId) (after : List Nat) : List Nat :=
  if id.stage = k.stage ∧ id.index ∉ after then after ++ [id.index] else after

def addInputs (k : LinkContext) (artifacts : List String) (after : List Nat) : List Nat :=
  artifacts.foldl
    (fun after artifact =>
      match Table.get? k.producers artifact with
      | some id => k.addAfter id after
      | none => after)
    after

def addNames (k : LinkContext) (context : String) :
    List DependencyName → List Nat → Except Error (List Nat)
  | [], after => .ok after
  | name :: names, after => do
    let id ← k.target context name
    addNames k context names (k.addAfter id after)

/-- The namespace of the action that a variable names, which the reading action runs after. -/
def visit (k : LinkContext) (context : String) (v : StageVariable) (s : LinkState) :
    Except Error String × LinkState :=
  match k.target context ⟨some v.stage, v.action⟩ with
  | .error e => (.error e, s)
  | .ok id =>
    let (name, namespaces) := s.namespaces.ensure id v.stage v.action
    (.ok name, ⟨k.addAfter id s.after, namespaces⟩)

/-- Overrides that are a mapping become one text. -/
def compileOverrides (compiler : Fragment.Compiler) : Node → Node × Fragment.Compiler
  | .map entries =>
    let (fragment, compiler) := compiler.compile (.map entries)
    (fragment.toNode, compiler)
  | other => (other, compiler)

def linkAction (k : LinkContext) (action : Action) (namespaces : Namespaces)
    (compiler : Fragment.Compiler) :
    Except Error (LinkedAction × Namespaces × Fragment.Compiler) := do
  let context := placeName k.stageName action.name
  let after ← k.addNames context action.dependsOn (k.addInputs action.inputs [])
  let (configuration, s) :=
    StageVariable.rewriteEntries (k.visit context) action.configuration ⟨after, namespaces⟩
  let configuration ← configuration
  match action.overrides with
  | none =>
    .ok (⟨{ action with configuration := configuration }, s.after⟩, s.namespaces, compiler)
  | some overrides =>
    let (overrides, s) := StageVariable.rewriteNode (k.visit context) overrides s
    let overrides ← overrides
    let (text, compiler) := compileOverrides compiler overrides
    let configuration := Table.put configuration "ParameterOverrides" text
    .ok (⟨{ action with configuration := configuration, overrides := none }, s.after⟩, s.namespaces,
      compiler)

def linkActions (k : LinkContext) : List Action → Namespaces → Fragment.Compiler →
    Except Error (List LinkedAction × Namespaces × Fragment.Compiler)
  | [], namespaces, compiler => .ok ([], namespaces, compiler)
  | action :: actions, namespaces, compiler => do
    let (linked, namespaces, compiler) ← k.linkAction action namespaces compiler
    let (more, namespaces, compiler) ← linkActions k actions namespaces compiler
    .ok (linked :: more, namespaces, compiler)

end LinkContext

namespace Registered

/-- Reserves the namespaces that actions ask for. -/
def declareNamespaces (stages : List Stage) : Except Error Namespaces :=
  stages.zipIdx.foldlM
    (fun ns (stage, s) =>
      stage.actions.zipIdx.foldlM
        (fun ns (action, i) =>
          match action.ownNamespace with
          | some name => ns.declare (placeName stage.name action.name) ⟨s, i⟩ name
          | none => .ok ns)
        ns)
    {}

def linkStages (r : Registered) : (s : Nat) → List Stage → Namespaces → Fragment.Compiler →
    Except Error (List LinkedStage × Namespaces × Fragment.Compiler)
  | _, [], namespaces, compiler => .ok ([], namespaces, compiler)
  | s, stage :: stages, namespaces, compiler => do
    let k : LinkContext := ⟨actionIndex r.stages, r.producers, s, stage.name⟩
    let (actions, namespaces, compiler) ← k.linkActions stage.actions namespaces compiler
    let (more, namespaces, compiler) ← linkStages r (s + 1) stages namespaces compiler
    .ok (⟨stage.name, stage.condition, stage.extra, actions⟩ :: more, namespaces, compiler)

def link (r : Registered) (compiler : Fragment.Compiler) : Except Error (Linked × Fragment.Compiler) := do
  let namespaces ← declareNamespaces r.stages
  let (stages, namespaces, compiler) ← r.linkStages 0 r.stages namespaces compiler
  .ok (⟨stages, namespaces⟩, compiler)

end Registered

/-- One over a run order. There is none over the largest, and the sum overflows. -/
def nextOrder (order : UInt64) : Except Error UInt64 :=
  if order.toNat + 1 < UInt64.size then .ok (order + 1) else .error .overflow

/-- Run orders found so far, by position in the stage. -/
abbrev RunOrders := List (Nat × UInt64)

namespace LinkedStage

def nameAt (stage : LinkedStage) (i : Nat) : String :=
  (stage.actions[i]?).elim "" fun linked => linked.action.name

/-- The positions that an action runs after. -/
def afterAt (stage : LinkedStage) (i : Nat) : List Nat :=
  (stage.actions[i]?).elim [] LinkedAction.after

/-- The run order that an action asks for, one if it asks for none. -/
def floorAt (stage : LinkedStage) (i : Nat) : UInt64 :=
  ((stage.actions[i]?).bind fun linked => linked.action.runOrder).getD 1

/-- The cycle that a position closes which is on the path already. The path has its last position
first. -/
def cycle (stage : LinkedStage) (path : List Nat) (i : Nat) : Error :=
  .circularDependency stage.name
    (((i :: path.takeWhile (· != i)) ++ [i]).reverse.map stage.nameAt)

/-- The run order of a position, after those of the positions it runs after. The path holds the positions
that wait for this one, so it never gets longer than the stage. Where one of those it runs after has the
largest run order, there is none left for this position, and the search ends with the overflow. -/
def visit (stage : LinkedStage) : (steps : Nat) → (path : List Nat) → Nat → RunOrders →
    Except Error (UInt64 × RunOrders)
  | 0, path, i, _ => .error (stage.cycle path i)
  | steps + 1, path, i, orders =>
    match Table.get? orders i with
    | some order => .ok (order, orders)
    | none =>
      if i ∈ path then .error (stage.cycle path i)
      else do
        let (deepest, orders) ← (stage.afterAt i).foldlM
          (fun (deepest, orders) j => do
            let (order, orders) ← visit stage steps (i :: path) j orders
            .ok (max deepest order, orders))
          ((0 : UInt64), orders)
        let next ← nextOrder deepest
        let order := max next (stage.floorAt i)
        .ok (order, orders ++ [(i, order)])

def runOrders (stage : LinkedStage) : Except Error RunOrders :=
  (List.range stage.actions.length).foldlM
    (fun orders i => do
      let (_, orders) ← stage.visit (stage.actions.length + 1) [] i orders
      .ok orders)
    []

end LinkedStage

structure OrderedAction where
  action : Action
  runOrder : UInt64
  namespaceName : Option String

/-- A stage whose actions are in run order, those of one order as they were declared. -/
structure OrderedStage where
  name : String
  condition : Option String
  extra : Table Node
  actions : List OrderedAction

namespace Linked

def orderStage (l : Linked) (s : Nat) (stage : LinkedStage) : Except Error OrderedStage := do
  let orders ← stage.runOrders
  let actions := stage.actions.zipIdx.map fun (linked, i) =>
    (⟨linked.action, (Table.get? orders i).getD 1, l.namespaces.get? ⟨s, i⟩⟩ : OrderedAction)
  .ok ⟨stage.name, stage.condition, stage.extra,
    actions.mergeSort fun a b => decide (a.runOrder ≤ b.runOrder)⟩

def order (l : Linked) : Except Error (List OrderedStage) :=
  l.stages.zipIdx.mapM fun (stage, s) => l.orderStage s stage

end Linked

/-- All three steps. -/
def build (stages : List Stage) (compiler : Fragment.Compiler) : Except Error (List OrderedStage) := do
  let registered ← register stages
  let (linked, _) ← registered.link compiler
  linked.order

end Shorthand.Pipeline
