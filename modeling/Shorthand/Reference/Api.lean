import Shorthand.Error
import Shorthand.Text.Basic

/-!
References to the parts of an API: `RestApi:` id, then optionally `:` kind and `/` lookup, then
optionally `.` attribute. Lookups of resources and methods are paths, in which a per cent sign stands
for an opening and a closing brace in turn, since braces end a placeholder.
-/
namespace Shorthand

/-- What a request validator looks at. -/
inductive ValidatorMode
  | body
  | params
  | all
  deriving DecidableEq

namespace ValidatorMode

def ofText? (text : String) : Option ValidatorMode :=
  match String.ofList (text.toList.map Char.toLower) with
  | "body" => some body
  | "params" | "parameters" => some params
  | "all" | "both" | "body-and-params" => some all
  | _ => none

def name : ValidatorMode → String
  | body => "body"
  | params => "params"
  | all => "all"

/-- The part of a logical id that tells the mode. -/
def idPart : ValidatorMode → String
  | body => "Body"
  | params => "Params"
  | all => "BodyAndParams"

def looksAtBody : ValidatorMode → Bool
  | params => false
  | _ => true

def looksAtParams : ValidatorMode → Bool
  | body => false
  | _ => true

end ValidatorMode

/-- A path by its segments; the root has none. -/
structure Path where
  segments : List String
  deriving DecidableEq

namespace Path

def root : Path := ⟨[]⟩

/-- Empty segments do not count. -/
def ofChars (cs : List Char) : Path :=
  ⟨((Text.split '/' cs).filter fun part => !part.isEmpty).map String.ofList⟩

def ofText (text : String) : Path := ofChars text.toList

def text (p : Path) : String := "/" ++ "/".intercalate p.segments

def child (p : Path) (segment : String) : Path := ⟨p.segments ++ [segment]⟩

/-- A leading slash, no trailing one, no empty segment. -/
def normalize (text : String) : String := (ofText text).text

/-- Writes an opening and a closing brace in turn for each per cent sign. -/
def decodeChars : (opens : Bool) → List Char → List Char
  | _, [] => []
  | opens, c :: cs =>
    if c = '%' then (if opens then '{' else '}') :: decodeChars (!opens) cs
    else c :: decodeChars opens cs

def decode (text : String) : Path := ofChars (decodeChars true text.toList)

end Path

inductive ApiPart
  | container
  | authorizer (name : String)
  | validator (mode : ValidatorMode)
  | model (name : String)
  | resource (path : Path)
  | method (path : Path) (verb : String)
  | deployment
  deriving DecidableEq

structure ApiReference where
  api : String
  part : ApiPart
  attr : Option String
  deriving DecidableEq

namespace ApiReference

def lead : String := "RestApi:"

/-- Whether a text is written as a reference to an API, well or badly. -/
def claims (text : String) : Bool := (Text.after? lead.toList text.toList).isSome

/-- The parts of a reference as they are written. -/
structure Spelling where
  api : List Char
  kind : Option (List Char)
  lookup : Option (List Char)
  attr : Option (List Char)

def isAttributeChar (c : Char) : Bool := c.isAlphanum || c = '.'

/-- What may end a reference: nothing, or a point and an attribute. -/
def ending? : List Char → Option (Option (List Char))
  | [] => some none
  | '.' :: cs => if !cs.isEmpty && cs.all isAttributeChar then some (some cs) else none
  | _ => none

def spelling? (text : String) : Option Spelling := do
  let cs ← Text.after? lead.toList text.toList
  let api := cs.takeWhile Char.isAlphanum
  if api.isEmpty then none else
  match cs.dropWhile Char.isAlphanum with
  | ':' :: cs =>
    let kind := cs.takeWhile Char.isAlpha
    if kind.isEmpty then none else
    match cs.dropWhile Char.isAlpha with
    | '/' :: cs => do
      let attr ← ending? (cs.dropWhile (· != '.'))
      some ⟨api, some kind, some (cs.takeWhile (· != '.')), attr⟩
    | rest => do
      let attr ← ending? rest
      some ⟨api, some kind, none, attr⟩
  | rest => do
    let attr ← ending? rest
    some ⟨api, none, none, attr⟩

/-- The lookup of a kind that needs one. -/
def needed (text lookup : String) : Except Error String :=
  if lookup = "" then .error (.unknownReference text "missing lookup after kind") else .ok lookup

def partOf (text kind lookup : String) : Except Error ApiPart :=
  match kind with
  | "Authorizer" => (needed text lookup).map .authorizer
  | "Model" => (needed text lookup).map .model
  | "Validator" => do
    let lookup ← needed text lookup
    match ValidatorMode.ofText? lookup with
    | some mode => .ok (.validator mode)
    | none => .error (.unknownReference text s!"unknown validator '{lookup}'")
  | "Resource" => .ok (.resource (Path.decode lookup))
  | "Method" =>
    let segments := (Path.decode lookup).segments
    match segments.getLast? with
    | some verb =>
      .ok (.method ⟨segments.dropLast⟩ (String.ofList (verb.toList.map Char.toUpper)))
    | none => .error (.unknownReference text "method lookup needs <path>/<VERB>")
  | "Deployment" => .ok .deployment
  | _ => .error (.unknownReference text s!"unknown kind '{kind}'")

def parse (text : String) : Except Error ApiReference :=
  match spelling? text with
  | none => .error (.unknownReference text "not a valid RestApi reference")
  | some s => do
    let part ← match s.kind with
      | none => .ok .container
      | some kind => partOf text (String.ofList kind) (String.ofList (s.lookup.getD []))
    .ok ⟨String.ofList s.api, part, s.attr.map String.ofList⟩

end ApiReference
end Shorthand
