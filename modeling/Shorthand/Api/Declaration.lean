import Shorthand.Api.Registry
import Shorthand.Digest
import Shorthand.Fragment

/-!
Expansion of one API declaration: the container, one resource for each authorizer, model, validator in
use, path segment and method, and last a deployment whose id carries a digest of all the others.
-/
namespace Shorthand.Api

def containerType : String := "AWS::ApiGateway::RestApi"
def authorizerType : String := "AWS::ApiGateway::Authorizer"
def modelType : String := "AWS::ApiGateway::Model"
def validatorType : String := "AWS::ApiGateway::RequestValidator"
def resourceType : String := "AWS::ApiGateway::Resource"
def methodType : String := "AWS::ApiGateway::Method"
def deploymentType : String := "AWS::ApiGateway::Deployment"

def userPools : String := "COGNITO_USER_POOLS"
def token : String := "TOKEN"
def defaultContentType : String := "application/json"

/-- The address at which a gateway calls a function that authorizes. -/
def authorizerUri : String :=
  "arn:$\x7bAWS::Partition\x7d:apigateway:$\x7bAWS::Region\x7d:lambda:path/2015-03-31/functions/" ++
    "$\x7bFunctionArn\x7d/invocations"

/-- The work on one declaration: what was registered and defined so far. -/
structure Builder where
  registry : Registry
  definitions : List Definition := []
  compiler : Fragment.Compiler := {}

namespace Builder

def context (b : Builder) : String := s!"API '{b.registry.api}'"

def apiRef (b : Builder) : Node := .refTo b.registry.api

def malformed {α : Type} (b : Builder) (message : String) : Except Error α :=
  .error (.malformed b.context message)

def define (b : Builder) (d : Definition) : Builder := { b with definitions := b.definitions ++ [d] }

def claim (b : Builder) (base : String) : String × Builder :=
  let (id, registry) := b.registry.claim base
  (id, { b with registry := registry })

/-- Compiles a structure to a text; a text stays as it is. -/
def compile (b : Builder) : Node → Node × Builder
  | .text s => (.text s, b)
  | node =>
    let (fragment, compiler) := b.compiler.compile node
    (fragment.toNode, { b with compiler := compiler })

/-- Applies a compilation to the value under a key, where there is one. -/
def compileAt (f : Builder → Node → Node × Builder) (b : Builder) (props : Table Node) (key : String) :
    Table Node × Builder :=
  match Table.get? props key with
  | none => (props, b)
  | some node =>
    let (node, b) := f b node
    (Table.put props key node, b)

def withAuthorizerUri (props : Table Node) : Option Node → Table Node
  | none => props
  | some arn =>
    Table.put props "AuthorizerUri"
      (.call Call.sub (.list [.text authorizerUri, .map [("FunctionArn", arn)]]))

def addAuthorizer (b : Builder) (name : String) (body : Node) : Builder :=
  let (id, b) := b.claim s!"{b.registry.api}{slug name}Authorizer"
  let (arn, props) := Table.take body.entries "FunctionArn"
  let props := Table.putNew props "Type"
    (.text (if Table.has props "ProviderARNs" then userPools else token))
  let props := withAuthorizerUri props arn
  let props := Table.putNew props "Name" (.text name)
  let props := Table.put props "RestApiId" b.apiRef
  let type := ((Table.get? props "Type").bind Node.text?).getD token
  let registry := { b.registry with authorizers := b.registry.authorizers ++ [(name, (id, type))] }
  { b with registry := registry }.define (.new id authorizerType props)

def addAuthorizers (b : Builder) : Node → Except Error Builder
  | .map entries => .ok (entries.foldl (fun b (name, body) => b.addAuthorizer name body) b)
  | _ => b.malformed "Authorizers must be a mapping"

def addModel (b : Builder) (name : String) (body : Node) : Builder :=
  let (id, b) := b.claim s!"{b.registry.api}{slug name}Model"
  let (props, b) := compileAt compile b body.entries "Schema"
  let props := Table.putNew props "ContentType" (.text defaultContentType)
  let contentType := ((Table.get? props "ContentType").bind Node.text?).getD defaultContentType
  let props := Table.putNew props "Name" (.text (slug name))
  let props := Table.put props "RestApiId" b.apiRef
  let registry := { b.registry with models := b.registry.models ++ [(name, (id, contentType))] }
  { b with registry := registry }.define (.new id modelType props)

def addModels (b : Builder) : Node → Except Error Builder
  | .map entries => .ok (entries.foldl (fun b (name, body) => b.addModel name body) b)
  | _ => b.malformed "Models must be a mapping"

def readMode (b : Builder) (node : Node) : Except Error ValidatorMode :=
  match node.text?.bind ValidatorMode.ofText? with
  | some mode => .ok mode
  | none => b.malformed s!"validator must be body, params or all, got {node.json}"

/-- The validator of a mode, defined where it is first asked for. -/
def validator (b : Builder) (mode : ValidatorMode) : String × Builder :=
  match Table.get? b.registry.validators mode with
  | some id => (id, b)
  | none =>
    let (id, b) := b.claim s!"{b.registry.api}{mode.idPart}Validator"
    let props : Table Node :=
      [("RestApiId", b.apiRef),
        ("ValidateRequestBody", .bool mode.looksAtBody),
        ("ValidateRequestParameters", .bool mode.looksAtParams)]
    let registry := { b.registry with validators := b.registry.validators ++ [(mode, id)] }
    (id, { b with registry := registry }.define (.new id validatorType props))

def addModes (b : Builder) : List Node → Except Error Builder
  | [] => .ok b
  | node :: nodes => do
    let mode ← b.readMode node
    addModes (b.validator mode).2 nodes

def addValidators (b : Builder) : Node → Except Error Builder
  | .list modes => b.addModes modes
  | _ => b.malformed "Validators must be a list"

/-- A place in the path tree: a path with the id of its resource, which the root has not. -/
structure Place where
  path : Path
  id : Option String

/-- How a place is referred to by what stands below it. -/
def placeRef (b : Builder) (place : Place) : Node :=
  match place.id with
  | some id => .refTo id
  | none => .attributeOf b.registry.api Registry.rootAttribute

def placeId (b : Builder) (place : Place) : String := place.id.getD b.registry.api

/-- Goes down one segment. A segment with a point in it could never be looked up, since a point begins an
attribute. -/
def addSegment (b : Builder) (place : Place) (segment : String) : Except Error (Place × Builder) :=
  if segment.toList.contains '.' then
    b.malformed s!"path segment '{segment}' must not contain '.'"
  else
    let path := place.path.child segment
    match Table.get? b.registry.resources path with
    | some id => .ok (⟨path, some id⟩, b)
    | none =>
      let (id, b) := b.claim (b.placeId place ++ slug segment)
      let props : Table Node :=
        [("RestApiId", b.apiRef), ("ParentId", b.placeRef place), ("PathPart", .text segment)]
      let registry := { b.registry with resources := b.registry.resources ++ [(path, id)] }
      .ok (⟨path, some id⟩, { b with registry := registry }.define (.new id resourceType props))

def addSegments (b : Builder) (place : Place) : List String → Except Error (Place × Builder)
  | [] => .ok (place, b)
  | segment :: segments => do
    let (place, b) ← b.addSegment place segment
    addSegments b place segments

def compileTemplates (b : Builder) : List (String × Node) → List (String × Node) × Builder
  | [] => ([], b)
  | (contentType, template) :: rest =>
    let (template, b) := b.compile template
    let (rest, b) := b.compileTemplates rest
    ((contentType, template) :: rest, b)

def compileTemplateMap (b : Builder) : Node → Node × Builder
  | .map templates =>
    let (templates, b) := b.compileTemplates templates
    (.map templates, b)
  | other => (other, b)

def compileResponses (b : Builder) : List Node → List Node × Builder
  | [] => ([], b)
  | .map response :: responses =>
    let (response, b) := compileAt compileTemplateMap b response "ResponseTemplates"
    let (responses, b) := b.compileResponses responses
    (.map response :: responses, b)
  | other :: responses =>
    let (responses, b) := b.compileResponses responses
    (other :: responses, b)

def compileResponseList (b : Builder) : Node → Node × Builder
  | .list responses =>
    let (responses, b) := b.compileResponses responses
    (.list responses, b)
  | other => (other, b)

/-- Compiles the request and the response templates that are given as structures. -/
def compileIntegration (b : Builder) : Node → Node × Builder
  | .map integration =>
    let (integration, b) := compileAt compileTemplateMap b integration "RequestTemplates"
    let (integration, b) := compileAt compileResponseList b integration "IntegrationResponses"
    (.map integration, b)
  | other => (other, b)

/-- Puts the id and the kind of a method's authorizer. -/
def authorize (b : Builder) (path : Path) (verb : String) (props : Table Node) :
    Option Node → Except Error (Table Node)
  | none => .ok props
  | some node =>
    let name := node.text?.getD ""
    match Table.get? b.registry.authorizers name with
    | none =>
      .error (.unknownReference s!"{verb} {path.text} Authorizer '{name}'"
        s!"no authorizer '{name}' in {b.context}")
    | some (id, type) =>
      let props := Table.put props "AuthorizerId" (.refTo id)
      .ok (Table.putNew props "AuthorizationType" (.text (if type = userPools then userPools else "CUSTOM")))

def validate (b : Builder) (props : Table Node) : Option Node → Except Error (Table Node × Builder)
  | none => .ok (props, b)
  | some node => do
    let mode ← b.readMode node
    let (id, b) := b.validator mode
    .ok (Table.put props "RequestValidatorId" (.refTo id), b)

def useModel (b : Builder) (path : Path) (verb : String) (props : Table Node) :
    Option Node → Except Error (Table Node)
  | none => .ok props
  | some node =>
    let name := node.text?.getD ""
    match Table.get? b.registry.models name with
    | none =>
      .error (.unknownReference s!"{verb} {path.text} Model '{name}'" s!"no model '{name}' in {b.context}")
    | some (id, contentType) =>
      let props := Table.putNew props "RequestModels" (.map [])
      match Table.get? props "RequestModels" with
      | some (.map models) =>
        .ok (Table.put props "RequestModels" (.map (Table.put models contentType (.refTo id))))
      | _ => .ok props

/-- Defines a method of the resource at a place. -/
def addMethod (b : Builder) (place : Place) (verb : String) (body : Node) : Except Error Builder := do
  let verb := String.ofList (verb.toList.map Char.toUpper)
  if verb = "" then b.malformed s!"empty method key under '{place.path.text}'"
  if (Table.get? b.registry.methods (place.path, verb)).isSome then
    b.malformed s!"method {verb} {place.path.text} declared twice"
  let (id, b) := b.claim (b.placeId place ++ slug verb)
  let (authorizer, props) := Table.take body.entries "Authorizer"
  let (mode, props) := Table.take props "Validate"
  let (model, props) := Table.take props "Model"
  let props ← b.authorize place.path verb props authorizer
  let props := Table.putNew props "AuthorizationType" (.text "NONE")
  let (props, b) ← b.validate props mode
  let props ← b.useModel place.path verb props model
  let (props, b) := compileAt compileIntegration b props "Integration"
  let props := Table.put props "HttpMethod" (.text verb)
  let props := Table.put props "ResourceId" (b.placeRef place)
  let props := Table.put props "RestApiId" b.apiRef
  let registry := { b.registry with methods := b.registry.methods ++ [((place.path, verb), id)] }
  .ok ({ b with registry := registry }.define (.new id methodType props))

/-- What a key of the path tree stands for. -/
inductive TreeKey
  | path (segments : List String)
  | method (verb : String)

def TreeKey.ofText? (key : String) : Option TreeKey :=
  match key.toList with
  | '/' :: cs => some (.path (Path.ofChars cs).segments)
  | '$' :: cs => some (.method (String.ofList cs))
  | _ => none

mutual
/-- Goes through one level of the path tree; null entries do not count. -/
def addTree (b : Builder) (place : Place) : List (String × Node) → Except Error Builder
  | [] => .ok b
  | (_, .null) :: entries => addTree b place entries
  | (key, value) :: entries =>
    match TreeKey.ofText? key with
    | some (.path segments) => do
      let (below, b) ← b.addSegments place segments
      let b ← addSubtree b below value
      addTree b place entries
    | some (.method verb) => do
      let b ← b.addMethod place verb value
      addTree b place entries
    | none =>
      b.malformed s!"path-tree key '{key}' under '{place.path.text}' must start with '/' or '$'"

/-- What stands under a path. -/
def addSubtree (b : Builder) (place : Place) : Node → Except Error Builder
  | .map entries => addTree b place entries
  | _ => b.malformed s!"path '{place.path.text}' must map to methods and sub-paths"
end

/-- The ids of the methods in order of their characters. -/
def methodIds (b : Builder) : List String :=
  (b.registry.methods.map Prod.snd).mergeSort fun a b => decide (a ≤ b)

def addDeployment (b : Builder) (digestLength : Nat) (condition : Option String) (deployment : Node) :
    Except Error Builder :=
  if deployment.isMap then
    let suffix := Digest.suffix b.definitions digestLength
    let (id, b) := b.claim s!"{b.registry.api}Deployment{suffix}"
    let props := Table.put deployment.entries "RestApiId" b.apiRef
    let registry := { b.registry with deployment := some id }
    .ok ({ b with registry := registry }.define
      { id := id, type := deploymentType, condition := condition, dependsOn := b.methodIds
        properties := props, attributes := [] })
  else b.malformed "Deployment must be a mapping"

/-- Does nothing where a part of the declaration is absent. -/
def addPart (b : Builder) (add : Builder → Node → Except Error Builder) : Option Node → Except Error Builder
  | none => .ok b
  | some node => add b node

def isTreeKey (key : String) : Bool := (TreeKey.ofText? key).isSome

/-- Expands a declaration: the registry of the API and its definitions, in the order of generation. -/
def expand (api : String) (digestLength : Nat) (declaration : Node) :
    Except Error (Registry × List Definition) := do
  let (id, registry) := { api := api : Registry }.claim api
  let b : Builder := { registry := registry }
  if !declaration.isMap then b.malformed "declaration must be a mapping"
  let (condition, rest) := Table.take declaration.entries "Condition"
  let condition := condition.bind Node.text?
  let (authorizers, rest) := Table.take rest "Authorizers"
  let (models, rest) := Table.take rest "Models"
  let (validators, rest) := Table.take rest "Validators"
  let (deployment, rest) := Table.take rest "Deployment"
  let (tree, props) := rest.partition fun (key, _) => isTreeKey key
  let props := Table.putNew props "Name" (.text api)
  let b := b.define (.new id containerType props)
  let b ← b.addPart addAuthorizers authorizers
  let b ← b.addPart addModels models
  let b ← b.addPart addValidators validators
  let b ← b.addTree ⟨Path.root, none⟩ tree
  let b := { b with definitions := b.definitions.map fun (d : Definition) => d.withCondition condition }
  let b ← b.addDeployment digestLength condition (deployment.getD (.map []))
  .ok (b.registry, b.definitions)

end Builder
end Shorthand.Api
