import Shorthand.Error
import Shorthand.Table
import Shorthand.Text.Basic

/-!
Names of files, and a working directory held in memory, in which texts are read and written by path.
-/
namespace Shorthand

namespace FilePath

/-- The parts of a path that name something. -/
def parts (path : String) : List (List Char) :=
  (Text.split '/' path.toList).filter fun part => !part.isEmpty

def isAbsolute (path : String) : Bool := path.toList.head? == some '/'

/-- Whether a path says that it leads to a directory. -/
def endsInSlash (path : String) : Bool := path.toList.getLast? == some '/'

/-- The name that a path ends in; dots alone are no name. -/
def fileName? (path : String) : Option (List Char) :=
  match ((parts path).filter (· != ['.'])).getLast? with
  | some ['.', '.'] => none
  | name => name

/-- What follows the last point of a name, unless the name begins there. -/
def extension? (path : String) : Option String := do
  let name ← fileName? path
  let ending := name.reverse.takeWhile (· != '.')
  if name.length ≤ ending.length + 1 then none else some (String.ofList ending.reverse)

end FilePath

/-- Where a path leads: to a place in the working directory, to a directory around it, of which nothing else
is known, or to something else outside. -/
inductive Place
  | inside (parts : List (List Char))
  | around
  | outside
  deriving DecidableEq

namespace Place

/-- The directory in which a path begins. -/
def start (path : String) : Place := if FilePath.isAbsolute path then around else inside []

/-- How many bytes a name may have. -/
def nameLimit : Nat := 255

/-- What a directory has by a name. -/
def step (place : Place) (name : List Char) : Except FileFault Place :=
  if name = ['.'] then .ok place
  else if name = ['.', '.'] then
    .ok (match place with
      | inside [] => around
      | inside parts => inside parts.dropLast
      | place => place)
  else if nameLimit < Text.utf8Length name then .error .nameTooLong
  else
    .ok (match place with
      | inside parts => inside (parts ++ [name])
      | _ => outside)

end Place

/-- The texts of a directory by their paths. What such a path leads through is a directory. -/
structure Files where
  texts : List (List (List Char) × String) := []

namespace Files

def ofTable (table : Table String) : Files := ⟨table.map fun (path, text) => (FilePath.parts path, text)⟩

/-- The texts in the order of their paths. -/
def toTable (files : Files) : Table String :=
  (files.texts.map fun (parts, text) => ("/".intercalate (parts.map String.ofList), text)).mergeSort
    fun a b => decide (a.1 ≤ b.1)

def isDirectory (files : Files) : Place → Bool
  | .inside parts =>
    parts.isEmpty ||
      files.texts.any fun (longer, _) => parts.length < longer.length && longer.take parts.length == parts
  | .around => true
  | .outside => false

def text? (files : Files) : Place → Option String
  | .inside parts => Table.get? files.texts parts
  | _ => none

/-- Names are looked up in directories only. -/
def enter (files : Files) (place : Place) : Except FileFault Unit :=
  if files.isDirectory place then .ok ()
  else if (files.text? place).isSome then .error .notDirectory
  else .error .notFound

/-- Where names lead to one after another. -/
def follow (files : Files) : Place → List (List Char) → Except FileFault Place
  | place, [] => .ok place
  | place, name :: names => do
    files.enter place
    files.follow (← place.step name) names

/-- A path has less bytes than this. -/
def pathLimit : Nat := 4096

/-- What no path may be, wherever it leads. -/
def check (path : String) : Except FileFault Unit :=
  if path.toList.contains '\x00' then .error .nulInName
  else if pathLimit ≤ path.utf8ByteSize then .error .nameTooLong
  else .ok ()

def read (files : Files) (path : String) : Except FileFault String := do
  check path
  let place ← files.follow (.start path) (FilePath.parts path)
  if files.isDirectory place then .error .isDirectory
  else match files.text? place with
    | some text => if FilePath.endsInSlash path then .error .notDirectory else .ok text
    | none => .error .notFound

/-- A path that says that it leads to a directory is refused before its last name is looked up. What is
written outside the working directory is not kept. -/
def write (files : Files) (path text : String) : Except FileFault Files := do
  check path
  if FilePath.endsInSlash path then
    files.enter (← files.follow (.start path) (FilePath.parts path).dropLast)
    .error .isDirectory
  else
    let place ← files.follow (.start path) (FilePath.parts path)
    if files.isDirectory place then .error .isDirectory
    else match place with
      | .inside parts => .ok ⟨Table.put files.texts parts text⟩
      | _ => .ok files

/-- The texts that another directory has not got, or has otherwise. -/
def changedFrom (files before : Files) : Files :=
  ⟨files.texts.filter fun (parts, text) => Table.get? before.texts parts != some text⟩

end Files
end Shorthand
