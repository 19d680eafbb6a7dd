import Shorthand.Definition
import Shorthand.Digest.Blake3

/-!
Digests of texts and of sets of definitions. The digest of definitions does not depend on the order in
which they were made.
-/
namespace Shorthand.Digest

def ofText (text : String) : String := "blake3:" ++ Blake3.hex text

/-- A definition's line: its id, a zero byte and its JSON text. -/
def line (d : Definition) : String := d.id ++ "\x00" ++ d.toNode.json ++ "\n"

/-- Ids in order of their characters. -/
def inOrder (ds : List Definition) : List Definition :=
  ds.mergeSort fun a b => decide (a.id ≤ b.id)

/-- What is hashed. -/
def canonicalText (ds : List Definition) : String := String.join ((inOrder ds).map line)

def ofDefinitions (ds : List Definition) : String := Blake3.hex (canonicalText ds)

/-- So many hexadecimal digits of the digest, but no fewer than four and no more than there are. -/
def suffix (ds : List Definition) (length : Nat) : String :=
  let digits := (ofDefinitions ds).toList
  String.ofList (digits.take (max 4 (min length digits.length)))

end Shorthand.Digest
