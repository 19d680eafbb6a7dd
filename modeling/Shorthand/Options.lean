import Shorthand.Error
import Shorthand.Toml.Reader

/-!
Options of an expansion: what they are unless something else is asked for, how they are read, and what
makes them usable.
-/
namespace Shorthand

structure Options where
  apiSection : String := "RestApis"
  matrixSection : String := "Matrices"
  /-- How many digits of a digest the id of a deployment carries. -/
  digestLength : Nat := 10
  /-- The resource types whose stages may be shorthand. -/
  pipelineTypes : List String := ["AWS::CodePipeline::Pipeline"]

namespace Options

/-- The two sections have names, different ones, and the digest has from 4 to 64 digits. -/
def check (o : Options) : Except OptionsFault Options :=
  if o.apiSection = "" ∨ o.matrixSection = "" then .error .emptySection
  else if o.apiSection = o.matrixSection then .error (.sameSection o.apiSection)
  else if o.digestLength < 4 ∨ 64 < o.digestLength then .error (.digestLength o.digestLength)
  else .ok o

def text? : Toml.Value → Option String
  | .text s => some s
  | _ => none

def natural? : Toml.Value → Option Nat
  | .whole (.ofNat n) => some n
  | _ => none

def texts? : Toml.Value → Option (List String)
  | .list items => items.mapM text?
  | _ => none

/-- The value under a key, or the default where the key is absent; a value of another kind is refused. -/
def field {α : Type} (entries : Toml.Entries) (key : String) (read? : Toml.Value → Option α)
    (default : α) : Option α :=
  match Table.get? entries key with
  | none => some default
  | some value => read? value

/-- Keys that are no option do not count. -/
def ofEntries? (entries : Toml.Entries) : Option Options := do
  let d : Options := {}
  let apiSection ← field entries "api_section" text? d.apiSection
  let matrixSection ← field entries "matrix_section" text? d.matrixSection
  let digestLength ← field entries "deployment_hash_len" natural? d.digestLength
  let pipelineTypes ← field entries "pipeline_types" texts? d.pipelineTypes
  some ⟨apiSection, matrixSection, digestLength, pipelineTypes⟩

def parse (text : String) : Except Error Options :=
  match (Toml.parse? text).bind ofEntries? with
  | none => .error (.options .unreadable)
  | some o => o.check.mapError .options

end Options
end Shorthand
