import Shorthand.Table

/-!
TOML documents: values, and the tables into which keys and headers put them. A table remembers how it
came about, for that decides who may add to it.
-/
namespace Shorthand.Toml

/-- How a table came about: written between braces, by a dotted key, on the way to another header, or by
a header of its own. -/
inductive Origin
  | braces
  | dottedKey
  | passing
  | header
  deriving DecidableEq

/-- Booleans, floats, dates and times are read and not kept. -/
inductive Value
  | text (value : String)
  | whole (value : Int)
  | other
  | list (items : List Value)
  | table (origin : Origin) (entries : List (String × Value))
  /-- The tables under a header in double brackets, the last one first. -/
  | tables (last : List (String × Value)) (earlier : List (List (String × Value)))

abbrev Entries := List (String × Value)

/-- Adds one key that is new. A table that a dotted key leads to has come about by dotted keys. -/
def addKey (origin : Origin) (isDotted : Bool) (key : String) (value : Value) (t : Entries) :
    Option Entries :=
  if (origin == .dottedKey) != isDotted then none
  else if Table.has t key then none
  else some (Table.put t key value)

/-- Adds a value under a dotted key. It may pass through tables that no header or braces have defined. -/
def addDotted (origin : Origin) (isDotted : Bool) (path : List String) (key : String) (value : Value)
    (t : Entries) : Option Entries :=
  match path with
  | [] => addKey origin isDotted key value t
  | name :: path =>
    match Table.get? t name with
    | none => do
      let inner ← addDotted .dottedKey true path key value []
      some (Table.put t name (.table .dottedKey inner))
    | some (.table origin inner) =>
      if origin = .dottedKey ∨ origin = .passing then do
        let inner ← addDotted origin true path key value inner
        some (Table.put t name (.table origin inner))
      else none
    | some (.tables last earlier) => do
      let last ← addDotted .header true path key value last
      some (Table.put t name (.tables last earlier))
    | some _ => none

/-- Goes along a header's path and changes the table at its end. -/
def alongHeader (change : Entries → Option Entries) : (path : List String) → Entries → Option Entries
  | [], t => change t
  | name :: path, t =>
    match Table.get? t name with
    | none => do
      let inner ← alongHeader change path []
      some (Table.put t name (.table .passing inner))
    | some (.table .braces _) => none
    | some (.table origin inner) => do
      let inner ← alongHeader change path inner
      some (Table.put t name (.table origin inner))
    | some (.tables last earlier) => do
      let last ← alongHeader change path last
      some (Table.put t name (.tables last earlier))
    | some _ => none

/-- Opens a table by its header: a new one, or one that other headers have only passed through. -/
def openTable (key : String) (t : Entries) : Option Entries :=
  match Table.get? t key with
  | none => some (Table.put t key (.table .header []))
  | some (.table .passing entries) => some (Table.put t key (.table .header entries))
  | some _ => none

/-- Opens one more table of a list of tables. -/
def openElement (key : String) (t : Entries) : Option Entries :=
  match Table.get? t key with
  | none => some (Table.put t key (.tables [] []))
  | some (.tables last earlier) => some (Table.put t key (.tables [] (last :: earlier)))
  | some _ => none

/-- What a line of a document says. The path of a key or a header is all of it but the last name. -/
inductive Line
  | blank
  | entry (path : List String) (key : String) (value : Value)
  | header (path : List String) (key : String)
  | element (path : List String) (key : String)

/-- The tables read so far, and the path of the one that entries go to. -/
structure Document where
  root : Entries := []
  current : List String := []

def Document.add (d : Document) : Line → Option Document
  | .blank => some d
  | .entry path key value => do
    let root ← alongHeader (addDotted .header false path key value) d.current d.root
    some { d with root := root }
  | .header path key => do
    let root ← alongHeader (openTable key) path d.root
    some ⟨root, path ++ [key]⟩
  | .element path key => do
    let root ← alongHeader (openElement key) path d.root
    some ⟨root, path ++ [key]⟩

/-- The table that braces enclose. -/
def inlineTable (entries : List (List String × String × Value)) : Option Value := do
  let t ← entries.foldlM (fun t (path, key, value) => addDotted .header false path key value t) []
  some (.table .braces t)

end Shorthand.Toml
