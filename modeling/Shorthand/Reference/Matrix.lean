import Shorthand.Reference.Api

/-!
References to the entries of a matrix: `Matrix:` id, then optionally a selector in brackets, then
optionally `.` attribute. A selector is a list of `name=key` with commas between.
-/
namespace Shorthand

structure MatrixReference where
  matrix : String
  /-- Absent in a reference to the matrix as a whole. -/
  selector : Option (List (String × String))
  attr : Option String
  deriving DecidableEq

namespace MatrixReference

def lead : String := "Matrix:"

/-- Whether a text is written as a reference to a matrix, well or badly. -/
def claims (text : String) : Bool := (Text.after? lead.toList text.toList).isSome

/-- The parts of a reference as they are written. -/
structure Spelling where
  matrix : List Char
  selector : Option (List Char)
  attr : Option (List Char)

def spelling? (text : String) : Option Spelling := do
  let cs ← Text.after? lead.toList text.toList
  let matrix := cs.takeWhile Char.isAlphanum
  if matrix.isEmpty then none else
  match cs.dropWhile Char.isAlphanum with
  | '[' :: cs => do
    let (selector, rest) ← Text.splitFirst? ']' cs
    let attr ← ApiReference.ending? rest
    some ⟨matrix, some selector, attr⟩
  | rest => do
    let attr ← ApiReference.ending? rest
    some ⟨matrix, none, attr⟩

/-- One `name=key`; white space around the two does not count. -/
def pairOf (text : String) (pair : List Char) : Except Error (String × String) :=
  match Text.splitFirst? '=' pair with
  | some (name, key) => .ok (String.ofList (Text.trim name), String.ofList (Text.trim key))
  | none => .error (.unknownReference text s!"selector '{String.ofList pair}' is not name=key")

/-- Blank pieces between commas do not count. -/
def pairsOf (text : String) (selector : List Char) : Except Error (List (String × String)) :=
  (((Text.split ',' selector).map Text.trim).filter fun pair => !pair.isEmpty).mapM (pairOf text)

def parse (text : String) : Except Error MatrixReference :=
  match spelling? text with
  | none => .error (.unknownReference text "not a valid Matrix reference")
  | some s => do
    let selector ← match s.selector with
      | none => .ok none
      | some selector => (pairsOf text selector).map some
    .ok ⟨String.ofList s.matrix, selector, s.attr.map String.ofList⟩

end MatrixReference
end Shorthand
