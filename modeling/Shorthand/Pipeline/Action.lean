import Shorthand.Definition
import Shorthand.Fragment

/-!
Actions of a pipeline, each read by itself from its declaration: what kind it is, what it takes and makes,
what it waits for and how it is configured.
-/
namespace Shorthand.Pipeline

/-- What an action does, and which service does it. -/
structure ActionType where
  category : String
  owner : String
  provider : String
  version : String
  deriving DecidableEq

namespace ActionType

def field (context : String) (node : Node) (key : String) : Except Error String :=
  match (node.get? key).map Node.plainText with
  | some s => if s = "" then missing else .ok s
  | none => missing
where
  missing : Except Error String := .error (.malformed context s!"ActionTypeId needs a '{key}'")

def ofNode (context : String) (node : Node) : Except Error ActionType := do
  let category ← field context node "Category"
  let owner ← field context node "Owner"
  let provider ← field context node "Provider"
  let version ← field context node "Version"
  .ok ⟨category, owner, provider, version⟩

def toNode (t : ActionType) : Node :=
  .map [("Category", .text t.category), ("Owner", .text t.owner), ("Provider", .text t.provider),
    ("Version", .text t.version)]

end ActionType

/-- The kinds with keys of their own. A generic action is given by its type alone. -/
inductive ActionKind
  | build
  | generic
  | s3Source
  | s3Deploy
  | ecrSource
  | cloudFormation
  deriving DecidableEq

namespace ActionKind

def name : ActionKind → String
  | build => "Build"
  | generic => "Generic"
  | s3Source => "S3Source"
  | s3Deploy => "S3Deploy"
  | ecrSource => "EcrSource"
  | cloudFormation => "CloudFormation"

def all : List ActionKind := [build, generic, s3Source, s3Deploy, ecrSource, cloudFormation]

def ofName? (name : String) : Option ActionKind := all.find? fun kind => kind.name == name

def type? : ActionKind → Option ActionType
  | build => some ⟨"Build", "AWS", "CodeBuild", "1"⟩
  | s3Source => some ⟨"Source", "AWS", "S3", "1"⟩
  | s3Deploy => some ⟨"Deploy", "AWS", "S3", "1"⟩
  | ecrSource => some ⟨"Source", "AWS", "ECR", "1"⟩
  | cloudFormation => some ⟨"Deploy", "AWS", "CloudFormation", "1"⟩
  | generic => none

/-- The kind of a type. Types that belong to no other kind are generic. -/
def ofType (type : ActionType) : ActionKind :=
  (all.find? fun kind => kind.type? == some type).getD generic

end ActionKind

/-- The name of an action of the same stage, or of the stage that is given. -/
structure DependencyName where
  stage : Option String
  action : String
  deriving DecidableEq

namespace DependencyName

def ofText (text : String) : DependencyName :=
  match Text.splitFirst? ':' text.toList with
  | some (stage, action) => ⟨some (String.ofList stage), String.ofList action⟩
  | none => ⟨none, text⟩

def text (d : DependencyName) : String :=
  match d.stage with
  | some stage => s!"{stage}:{d.action}"
  | none => d.action

end DependencyName

structure Action where
  name : String
  kind : ActionKind
  type : ActionType
  inputs : List String
  outputs : List String
  dependsOn : List DependencyName
  /-- A namespace asked for by the action itself. -/
  ownNamespace : Option String
  /-- The least run order that the action may get. -/
  runOrder : Option UInt64
  condition : Option String
  configuration : Table Node
  /-- Parameter overrides as they are declared; they are compiled once variables are resolved. -/
  overrides : Option Node
  /-- Attributes of the action itself, passed on as they are. -/
  extra : Table Node

namespace Action

/-- Keys that stay on the action. -/
def ownKeys : List String := ["Region", "RoleArn", "TimeoutInMinutes"]

def readName (context key : String) : Option Node → Except Error (Option String)
  | none | some .null => .ok none
  | some (.text name) =>
    if name = "" then refused (.text name) else .ok (some name)
  | some other => refused other
where
  refused (node : Node) : Except Error (Option String) :=
    .error (.malformed context s!"{key} must be a name, got {node.json}")

def readRunOrder (context : String) : Option Node → Except Error (Option UInt64)
  | none | some .null => .ok none
  | some (.number (.whole n)) =>
    if 1 ≤ n ∧ n < UInt64.size then .ok (some (UInt64.ofNat n.toNat)) else refused (.number (.whole n))
  | some other => refused other
where
  refused (node : Node) : Except Error (Option UInt64) :=
    .error (.malformed context s!"RunOrder must be a positive integer, got {node.json}")

def readDependsOn (context : String) : Option Node → Except Error (List DependencyName)
  | none | some .null => .ok []
  | some (.text name) => .ok [.ofText name]
  | some (.list items) => items.mapM fun item =>
    match item with
    | .text name => .ok (.ofText name)
    | other => .error (.malformed context s!"DependsOn entry must be a name, got {other.json}")
  | some other => .error (.malformed context s!"DependsOn must be a list, got {other.json}")

/-- The name of an artifact, given as a text or under `Name`. -/
def artifactName (context key : String) : Node → Except Error String
  | .text name => .ok name
  | .map entries =>
    match (Table.get? entries "Name").bind Node.text? with
    | some name => .ok name
    | none => .error (.malformed context s!"{key} entry {(Node.map entries).json} has no Name")
  | other => .error (.malformed context s!"{key} entry must be a name, got {other.json}")

def collectArtifacts (context key : String) (names : List String) :
    List Node → Except Error (List String)
  | [] => .ok names
  | item :: items => do
    let name ← artifactName context key item
    if names.contains name then .error (.malformed context s!"{key} lists '{name}' twice")
    else collectArtifacts context key (names ++ [name]) items

def readArtifacts (context key : String) : Option Node → Except Error (List String)
  | none | some .null => .ok []
  | some (.text name) => .ok [name]
  | some (.list items) => collectArtifacts context key [] items
  | some other => .error (.malformed context s!"{key} must be a list, got {other.json}")

/-- Reads the kind and the type: a kind's tag, or a type, or both for a generic action. -/
def readKind (context : String) : Option Node → Option Node → Except Error (ActionKind × ActionType)
  | some tag, none =>
    match ActionKind.ofName? (tag.text?.getD "") with
    | none => .error (.malformed context s!"unknown action type {tag.json}")
    | some kind =>
      match kind.type? with
      | some type => .ok (kind, type)
      | none => .error (.malformed context "Generic actions need an ActionTypeId")
  | none, some type => do
    let type ← ActionType.ofNode context type
    .ok (.ofType type, type)
  | some tag, some type => do
    let type ← ActionType.ofNode context type
    if tag.text? = some ActionKind.generic.name then .ok (.generic, type)
    else .error (.malformed context "give either a Type or an ActionTypeId, not both")
  | none, none => .error (.malformed context "needs a Type or an ActionTypeId")

/-- What is left of an action's own keys, and the configuration they go into. -/
structure Settings where
  body : Table Node
  configuration : Table Node

namespace Settings

/-- Moves a key into the configuration, under another name. -/
def move (s : Settings) (key new : String) : Settings :=
  match Table.take s.body key with
  | (some value, body) => ⟨body, Table.put s.configuration new value⟩
  | (none, _) => s

def require (s : Settings) (context key shown : String) : Except Error Unit :=
  if Table.has s.configuration key then .ok ()
  else .error (.malformed context s!"missing '{shown}'")

/-- Takes a key from the body or else from the configuration. -/
def takeEither (s : Settings) (key : String) : Option Node × Settings :=
  match Table.take s.body key with
  | (some value, body) => (some value, { s with body := body })
  | (none, _) =>
    let (value, configuration) := Table.take s.configuration key
    (value, { s with configuration := configuration })

def putNew (s : Settings) (key : String) (value : Node) : Settings :=
  { s with configuration := Table.putNew s.configuration key value }

def put (s : Settings) (key : String) (value : Node) : Settings :=
  { s with configuration := Table.put s.configuration key value }

end Settings

/-- The type and the value of an environment variable: given as such, or a plain value. -/
def variableOf (value : Node) : Node × Node :=
  match value, value.call? with
  | .map spec, none =>
    match Table.get? spec "Value" with
    | some inner => ((Table.get? spec "Type").getD (.text "PLAINTEXT"), inner)
    | none => (.text "PLAINTEXT", value)
  | _, _ => (.text "PLAINTEXT", value)

def environmentEntry (name : String) (value : Node) : Node :=
  let (type, value) := variableOf value
  .map [("name", .text name), ("type", type), ("value", value)]

/-- One text that holds the list of all variables. -/
def environment (context : String) (compiler : Fragment.Compiler) :
    Node → Except Error (Node × Fragment.Compiler)
  | .map entries =>
    let (fragment, compiler) :=
      compiler.compile (.list (entries.map fun (name, value) => environmentEntry name value))
    .ok (fragment.toNode, compiler)
  | _ => .error (.malformed context "EnvironmentVariables must be a mapping")

/-- Moves the keys that belong to a kind to where they go. Gives the parameter overrides too. -/
def configure (context : String) (compiler : Fragment.Compiler) (s : Settings) :
    ActionKind → Except Error (Settings × Option Node × Fragment.Compiler)
  | .build => do
    let s := s.move "Project" "ProjectName"
    s.require context "ProjectName" "Project"
    match Table.take s.body "EnvironmentVariables" with
    | (some declared, body) =>
      let (text, compiler) ← environment context compiler declared
      .ok ({ s with body := body }.put "EnvironmentVariables" text, none, compiler)
    | (none, _) => .ok (s, none, compiler)
  | .s3Source => do
    let s := (s.move "Bucket" "S3Bucket").move "Key" "S3ObjectKey"
    s.require context "S3Bucket" "Bucket"
    s.require context "S3ObjectKey" "Key"
    .ok (s.putNew "PollForSourceChanges" (.bool false), none, compiler)
  | .s3Deploy => do
    let s := (s.move "Bucket" "BucketName").move "ObjectKey" "ObjectKey"
    s.require context "BucketName" "Bucket"
    let (extract, s) := s.takeEither "Extract"
    match extract.getD (.bool true), Table.has s.configuration "ObjectKey" with
    | .bool false, false =>
      .error (.malformed context "S3Deploy with Extract false needs an ObjectKey")
    | extract, _ => .ok (s.put "Extract" extract, none, compiler)
  | .ecrSource => do
    let s := s.move "Repository" "RepositoryName"
    s.require context "RepositoryName" "Repository"
    let (tag, body) := Table.take s.body "ImageTag"
    .ok ({ s with body := body }.putNew "ImageTag" (tag.getD (.text "latest")), none, compiler)
  | .cloudFormation =>
    let (overrides, s) := s.takeEither "ParameterOverrides"
    .ok (s.putNew "ActionMode" (.text "CREATE_UPDATE"), overrides, compiler)
  | .generic => .ok (s, none, compiler)

def readConfiguration (context : String) : Option Node → Except Error (Table Node)
  | none => .ok []
  | some (.map entries) => .ok entries
  | some other => .error (.malformed context s!"Configuration must be a mapping, got {other.json}")

/-- Moves the keys that stay on the action out of the rest. -/
def splitOwn (body : Table Node) : Table Node × Table Node :=
  ownKeys.foldl
    (fun (own, body) key =>
      match Table.take body key with
      | (some value, body) => (own ++ [(key, value)], body)
      | (none, _) => (own, body))
    ([], body)

/-- Reads the action of a name from its declaration. -/
def ofNode (context : String) (compiler : Fragment.Compiler) (name : String) (node : Node) :
    Except Error (Action × Fragment.Compiler) := do
  let context := s!"{context} action '{name}'"
  if !node.isMap then .error (.malformed context "action must be a mapping")
  let (tag, body) := Table.take node.entries "Type"
  let (type, body) := Table.take body "ActionTypeId"
  let (kind, type) ← readKind context tag type
  let (inputs, body) := Table.take body "InputArtifacts"
  let (outputs, body) := Table.take body "OutputArtifacts"
  let (dependsOn, body) := Table.take body "DependsOn"
  let (ownNamespace, body) := Table.take body "Namespace"
  let (runOrder, body) := Table.take body "RunOrder"
  let (condition, body) := Table.take body "Condition"
  let (configuration, body) := Table.take body "Configuration"
  let configuration ← readConfiguration context configuration
  let (extra, body) := splitOwn body
  let (settings, overrides, compiler) ← configure context compiler ⟨body, configuration⟩ kind
  let configuration := Table.putAll settings.configuration settings.body
  let inputs ← readArtifacts context "InputArtifacts" inputs
  let outputs ← readArtifacts context "OutputArtifacts" outputs
  let dependsOn ← readDependsOn context dependsOn
  let ownNamespace ← readName context "Namespace" ownNamespace
  let runOrder ← readRunOrder context runOrder
  let condition ← readName context "Condition" condition
  .ok (⟨name, kind, type, inputs, outputs, dependsOn, ownNamespace, runOrder, condition, configuration,
    overrides, extra⟩, compiler)

end Action
end Shorthand.Pipeline
