import Shorthand.Api.Family
import Shorthand.Import
import Shorthand.Matrix
import Shorthand.Options
import Shorthand.Pipeline.Emission

/-!
Expansion of a template: the sections of APIs and matrices become resources, shorthand pipelines get
their stages, and the references to all of these become native calls.
-/
namespace Shorthand

/-- What one expansion made. -/
structure Report where
  apis : Nat := 0
  apiResources : Nat := 0
  matrices : Nat := 0
  matrixResources : Nat := 0
  pipelines : List Pipeline.Summary := []

namespace Report

def generated (r : Report) : Nat := r.apiResources + r.matrixResources

def pipelineLines (p : Pipeline.Summary) : List String :=
  s!"  {p.id}" :: p.runOrders.map fun (action, order) => s!"    [{order}] {action}"

/-- The report for people, without a newline at its end. -/
def text (r : Report) : String :=
  "\n".intercalate
    ([s!"APIs:      {r.apis} ({r.apiResources} resources)",
      s!"Matrices:  {r.matrices} ({r.matrixResources} resources)",
      s!"Pipelines: {r.pipelines.length}"] ++ r.pipelines.flatMap pipelineLines)

end Report

structure Expansion where
  template : Table Node
  report : Report

namespace Expansion

def resourcesKey : String := "Resources"

/-- What the two sections of a template declare. -/
structure Generated where
  apis : Apis
  apiDefinitions : List Definition
  matrices : Matrices
  matrixDefinitions : List Definition

def Generated.definitions (g : Generated) : List Definition := g.apiDefinitions ++ g.matrixDefinitions

def generate (params : Parameters) (options : Options) (apiSection matrixSection : Option Node) :
    Except Error Generated := do
  let (apiDefinitions, apis) := match apiSection with
    | some node => ({ digestLength := options.digestLength : Apis }).expandSection node
    | none => (.ok [], { digestLength := options.digestLength : Apis })
  let apiDefinitions ← apiDefinitions
  let (matrixDefinitions, matrices) := match matrixSection with
    | some node => ({} : Matrices).expandSection params node
    | none => (.ok [], ({} : Matrices))
  let matrixDefinitions ← matrixDefinitions
  .ok ⟨apis, apiDefinitions, matrices, matrixDefinitions⟩

/-- Adds definitions to resources; an id that is there already is refused. -/
def merge : List Definition → Table Node → Except Error (Table Node)
  | [], resources => .ok resources
  | d :: ds, resources =>
    if Table.has resources d.id then .error (.duplicateLogicalId d.id)
    else merge ds (Table.put resources d.id d.toNode)

/-- The resources of a template with the generated ones, and their pipelines expanded. -/
def expandResources (options : Options) (generated : List Definition) (template : Table Node) :
    Except Error (Table Node × List Pipeline.Summary) := do
  let template :=
    if generated.isEmpty then template else Table.putNew template resourcesKey (.map [])
  match Table.get? template resourcesKey with
  | none => .ok (template, [])
  | some (.map resources) =>
    let resources ← merge generated resources
    let (summaries, resources) := Pipeline.expandAll options.pipelineTypes resources
    let summaries ← summaries
    .ok (Table.put template resourcesKey (.map resources), summaries)
  | some _ => .error (.malformed "template" "Resources must be a mapping")

/-- The resolvers of all references, in the order of their turns. -/
def chain (apis : Apis) (matrices : Matrices) : Chain := [apis.resolver, matrices.resolver, Import.resolver]

/-- Expands a template. -/
def ofNode (params : Parameters) (options : Options) : Node → Except Error Expansion
  | .map template => do
    let params := Parameters.withDefaults params template
    let (apiSection, template) := Table.take template options.apiSection
    let (matrixSection, template) := Table.take template options.matrixSection
    let g ← generate params options apiSection matrixSection
    let (template, pipelines) ← expandResources options g.definitions template
    let template ← (chain g.apis g.matrices).rewriteTemplate template
    .ok ⟨template,
      { apis := g.apis.count
        apiResources := g.apiDefinitions.length
        matrices := g.matrices.count
        matrixResources := g.matrixDefinitions.length
        pipelines := pipelines }⟩
  | _ => .error (.malformed "template" "top level must be a mapping")

end Expansion
end Shorthand
