import Shorthand.Definition
import Shorthand.Parameters
import Shorthand.Reference.Matrix
import Shorthand.Rewriting
import Shorthand.Text.Quoted

/-!
Matrices: one resource for each combination of options, one from each dimension. An option has a key,
for ids and references, and a value, for the body of the resource.
-/
namespace Shorthand

structure Dimension where
  name : String
  /-- Keys with their values, in order. -/
  options : List (String × String)

namespace Dimension

/-- Options that come as a list are numbered from one. -/
def numbered (values : List String) : List (String × String) :=
  values.zipIdx.map fun (value, i) => (toString (i + 1), value)

def readOptions (context : String) (params : Parameters) : Node → Except Error (List (String × String))
  | .list items => .ok (numbered (items.map Node.plainText))
  | .map [("Ref", .text param)] =>
    match Table.get? params param with
    | some value =>
      .ok (numbered
        (((Text.split ',' value.toList).map Text.trim).filter (fun item => !item.isEmpty)
          |>.map String.ofList))
    | none => .error (.parameter (.undefined context param))
  | .map entries => .ok (entries.map fun (key, value) => (key, value.plainText))
  | other =>
    .error (.malformed context
      s!"options must be a list, a mapping or a parameter Ref, got {other.json}")

def ofNode (matrix : String) (params : Parameters) (name : String) (node : Node) :
    Except Error Dimension := do
  let context := s!"matrix '{matrix}' dimension '{name}'"
  let options ← readOptions context params node
  if options.isEmpty then .error (.malformed context "has no options") else .ok ⟨name, options⟩

end Dimension

/-- One combination: its keys by dimension, the values by dimension name, and the id made of the keys. -/
structure MatrixEntry where
  keys : List String
  values : Table String
  id : String

structure Matrix where
  id : String
  pattern : String
  dimensions : List Dimension
  entries : List MatrixEntry

namespace Matrix

/-- One option from each dimension, in all ways; the first dimension changes slowest. -/
def combinations : List Dimension → List (List (String × String))
  | [] => [[]]
  | d :: ds => d.options.flatMap fun option => (combinations ds).map (option :: ·)

/-- Replaces each dimension's placeholder, with a lead before its name, one dimension after another. -/
def substitute (lead : String) (names replacements : List String) (s : String) : String :=
  String.ofList ((names.zip replacements).foldl
    (fun cs (name, new) =>
      Text.replace ('$' :: '{' :: (lead.toList ++ name.toList ++ ['}'])) new.toList cs)
    s.toList)

/-- The entry of one combination. Its id has letters and digits only, and at least one. -/
def entryOf (matrix pattern : String) (dimensions : List Dimension) (choice : List (String × String)) :
    Except Error MatrixEntry :=
  let names := dimensions.map Dimension.name
  let keys := choice.map Prod.fst
  let id := substitute "" names keys pattern
  if id.toList.isEmpty || !id.toList.all Char.isAlphanum then
    .error (.malformed s!"matrix '{matrix}'"
      s!"LogicalId '{id}' is not alphanumeric for keys {Text.quotedList keys}")
  else .ok ⟨keys, Table.ofList (names.zip (choice.map Prod.snd)), id⟩

def new (id pattern : String) (dimensions : List Dimension) : Except Error Matrix := do
  let entries ← (combinations dimensions).mapM (entryOf id pattern dimensions)
  .ok ⟨id, pattern, dimensions, entries⟩

/-- The id with a placeholder for each dimension. -/
def defaultPattern (id : String) (dimensions : List Dimension) : String :=
  dimensions.foldl (fun s d => s ++ "$\x7b" ++ d.name ++ "\x7d") id

/-- Checks a selector's pairs from left to right: each names a dimension, and none twice. -/
def checkPairs (m : Matrix) (text : String) (seen : List String) :
    List (String × String) → Except Error Unit
  | [] => .ok ()
  | (name, _) :: pairs =>
    if !(m.dimensions.map Dimension.name).contains name then
      .error (.unknownReference text s!"matrix '{m.id}' has no dimension '{name}'")
    else if seen.contains name then
      .error (.unknownReference text s!"dimension '{name}' selected twice")
    else checkPairs m text (name :: seen) pairs

/-- The key that a selector gives for a dimension. -/
def chosenKey (text : String) (pairs : List (String × String)) (d : Dimension) : Except Error String :=
  match Table.get? pairs d.name with
  | none => .error (.unknownReference text s!"selector is missing dimension '{d.name}'")
  | some key =>
    if (Table.has d.options key) then .ok key
    else .error (.unknownReference text s!"dimension '{d.name}' has no option '{key}'")

/-- The entry with the selected keys. -/
def select (m : Matrix) (text : String) (pairs : List (String × String)) : Except Error MatrixEntry := do
  m.checkPairs text [] pairs
  let keys ← m.dimensions.mapM (chosenKey text pairs)
  match m.entries.find? fun e => e.keys == keys with
  | some entry => .ok entry
  | none => .error (.unknownReference text "no such entry")

def eachLead : String := "Each:"

mutual
/-- The body of a resource with the values of one entry put into its texts. -/
def stamp (values : Table String) : Node → Node
  | .text s =>
    if Text.isSubstring ('$' :: '{' :: eachLead.toList) s.toList then
      .text (substitute eachLead (Table.keys values) (Table.values values) s)
    else .text s
  | .list items => .list (stampItems values items)
  | .map entries => .map (stampEntries values entries)
  | scalar => scalar

def stampItems (values : Table String) : List Node → List Node
  | [] => []
  | item :: items => stamp values item :: stampItems values items

def stampEntries (values : Table String) : List (String × Node) → List (String × Node)
  | [] => []
  | (key, value) :: entries => (key, stamp values value) :: stampEntries values entries
end

/-- The dimensions that a text asks for. -/
def dimensionsIn (s : String) : List String :=
  (Template.placeholders s).filterMap fun body =>
    (Text.after? eachLead.toList body.toList).map String.ofList

mutual
/-- The dimensions that a tree asks for, with repetitions. -/
def askedFor : Node → List String
  | .text s => dimensionsIn s
  | .list items => askedForInItems items
  | .map entries => askedForInEntries entries
  | _ => []

def askedForInItems : List Node → List String
  | [] => []
  | item :: items => askedFor item ++ askedForInItems items

def askedForInEntries : List (String × Node) → List String
  | [] => []
  | (_, value) :: entries => askedFor value ++ askedForInEntries entries
end

/-- The dimensions that a tree asks for, in order of their first place. -/
def referencedDimensions (node : Node) : List String := (askedFor node).foldl addOnce []

end Matrix

/-- The matrices declared so far, and all ids issued, also by declarations that failed later on. -/
structure Matrices where
  table : Table Matrix := []
  issued : List String := []

namespace Matrices

def count (ms : Matrices) : Nat := ms.table.length

/-- A declaration taken apart, before its entries are issued. -/
structure Plan where
  matrix : Matrix
  body : Node

/-- The first dimension asked for that is not declared. -/
def undeclared? (dimensions : List Dimension) (body : Node) : Option String :=
  (Matrix.referencedDimensions body).find? fun name => !(dimensions.map Dimension.name).contains name

def plan (params : Parameters) (id : String) (declaration : Node) : Except Error Plan := do
  let context := s!"matrix '{id}'"
  if !declaration.isMap then .error (.malformed context "declaration must be a mapping")
  let (dimensions, rest) := Table.take declaration.entries "Dimensions"
  let (pattern, rest) := Table.take rest "LogicalId"
  let (body, rest) := Table.take rest "Resource"
  match rest with
  | (key, _) :: _ => .error (.malformed context s!"unknown key '{key}'")
  | [] => pure ()
  let dimensions ← match dimensions with
    | some (.map (entry :: entries)) =>
      (entry :: entries).mapM fun (name, node) => Dimension.ofNode id params name node
    | _ => .error (.malformed context "Dimensions must be a non-empty mapping")
  let pattern ← match pattern with
    | none => .ok (Matrix.defaultPattern id dimensions)
    | some (.text pattern) => .ok pattern
    | some _ => .error (.malformed context "LogicalId must be a string")
  let body ← match body with
    | some body => .ok body
    | none => .error (.malformed context "missing Resource")
  match undeclared? dimensions body with
  | some name =>
    .error (.malformed context
      ("Resource uses $\x7bEach:" ++ name ++ "\x7d but no such dimension is declared"))
  | none => pure ()
  let matrix ← Matrix.new id pattern dimensions
  .ok ⟨matrix, body⟩

/-- Issues the entries' ids one by one, each before its definition is read. -/
def issue (body : Node) : List MatrixEntry → List String → Except Error (List Definition) × List String
  | [], issued => (.ok [], issued)
  | entry :: entries, issued =>
    if issued.contains entry.id then (.error (.duplicateLogicalId entry.id), issued)
    else
      let issued := issued ++ [entry.id]
      match Definition.ofNode entry.id (Matrix.stamp entry.values body) with
      | .error e => (.error e, issued)
      | .ok d =>
        match issue body entries issued with
        | (.ok ds, issued) => (.ok (d :: ds), issued)
        | failure => failure

/-- Declares one matrix. -/
def declare (ms : Matrices) (params : Parameters) (id : String) (declaration : Node) :
    Except Error (List Definition) × Matrices :=
  if Table.has ms.table id then (.error (.duplicateLogicalId id), ms)
  else match plan params id declaration with
    | .error e => (.error e, ms)
    | .ok ⟨matrix, body⟩ =>
      match issue body matrix.entries ms.issued with
      | (.error e, issued) => (.error e, { ms with issued := issued })
      | (.ok ds, issued) => (.ok ds, ⟨Table.put ms.table id matrix, issued⟩)

/-- Declares matrices in order, up to the first that is refused. -/
def declareAll (params : Parameters) :
    List (String × Node) → Matrices → Except Error (List Definition) × Matrices
  | [], ms => (.ok [], ms)
  | (id, declaration) :: rest, ms =>
    match ms.declare params id declaration with
    | (.error e, ms) => (.error e, ms)
    | (.ok ds, ms) =>
      match declareAll params rest ms with
      | (.ok more, ms) => (.ok (ds ++ more), ms)
      | failure => failure

/-- Declares a whole section. -/
def expandSection (ms : Matrices) (params : Parameters) : Node → Except Error (List Definition) × Matrices
  | .map entries => declareAll params entries ms
  | _ => (.error (.malformed "matrix section" "must be a mapping of matrix ids"), ms)

def find (ms : Matrices) (text : String) (ref : MatrixReference) : Except Error Matrix :=
  match Table.get? ms.table ref.matrix with
  | some matrix => .ok matrix
  | none => .error (.unknownReference text s!"no matrix '{ref.matrix}'")

def lookup (ms : Matrices) (text : String) : Except Error Target := do
  let ref ← MatrixReference.parse text
  let matrix ← ms.find text ref
  match ref.selector with
  | none => .error (.unknownReference text "a matrix reference needs a [Name=key,...] selector")
  | some pairs => do
    let entry ← matrix.select text pairs
    .ok ((Target.resource entry.id).withAttribute ref.attr)

def symbols (ms : Matrices) : SymbolTable := ⟨MatrixReference.claims, ms.lookup⟩

/-- The positions of a matrix's entries, for a reference to the matrix as a whole. -/
def length (ms : Matrices) (text : String) : Except Error Node := do
  let ref ← MatrixReference.parse text
  if ref.selector.isSome || ref.attr.isSome then
    .error (.unknownReference text "Fn::Length takes a bare matrix reference")
  let matrix ← ms.find text ref
  .ok (.call Call.length (.list ((List.range matrix.entries.length).map Node.whole)))

def expand (ms : Matrices) (name : String) (arg : Node) : Except Error Node :=
  match arg with
  | .text ref =>
    if name = Call.length ∧ MatrixReference.claims ref = true then ms.length ref
    else ms.symbols.rewriteCall name arg
  | _ => ms.symbols.rewriteCall name arg

def resolver (ms : Matrices) : Resolver :=
  { name := "matrix"
    handles := fun name =>
      name == Call.ref || name == Call.getAtt || name == Call.sub || name == Call.length
    expand := ms.expand }

end Matrices
end Shorthand
