import Shorthand.Double.Decimal
import Shorthand.Node

/-!
JSON texts of nodes: the compact one, which is also how a node is shown in a message and fed to a
digest, and the indented one.
-/
namespace Shorthand

/-- Positional from five decimal places to sixteen digits; the plus of an exponent is written. -/
def Json.decimals : Double.DecimalStyle := ⟨-5, 15, true⟩

def wholeChars : Int → List Char
  | .ofNat n => Nat.toDigits 10 n
  | .negSucc n => '-' :: Nat.toDigits 10 (n + 1)

def Number.chars : Number → List Char
  | .whole n => wholeChars n
  | .double x => Json.decimals.chars x

namespace Json

/-- The quote, the backslash and the characters below the blank are escaped, and nothing else. -/
def escape (c : Char) : List Char :=
  if c = '"' then ['\\', '"']
  else if c = '\\' then ['\\', '\\']
  else if c = '\n' then ['\\', 'n']
  else if c = '\r' then ['\\', 'r']
  else if c = '\t' then ['\\', 't']
  else if c = '\x08' then ['\\', 'b']
  else if c = '\x0c' then ['\\', 'f']
  else if c.toNat < 0x20 then
    ['\\', 'u', '0', '0', Nat.digitChar (c.toNat / 16), Nat.digitChar (c.toNat % 16)]
  else [c]

def quoted (s : String) : List Char := '"' :: (s.toList.flatMap escape ++ ['"'])

end Json

namespace Node

mutual
def chars : Node → List Char
  | null => ['n', 'u', 'l', 'l']
  | bool true => ['t', 'r', 'u', 'e']
  | bool false => ['f', 'a', 'l', 's', 'e']
  | number n => n.chars
  | text s => Json.quoted s
  | list items => '[' :: (charsOfItems items ++ [']'])
  | map entries => '{' :: (charsOfEntries entries ++ ['}'])

def charsOfItems : List Node → List Char
  | [] => []
  | [item] => chars item
  | item :: items => chars item ++ ',' :: charsOfItems items

def charsOfEntries : List (String × Node) → List Char
  | [] => []
  | [(key, value)] => Json.quoted key ++ ':' :: chars value
  | (key, value) :: entries => Json.quoted key ++ ':' :: (chars value ++ ',' :: charsOfEntries entries)
end

/-- The compact JSON text. -/
def json (node : Node) : String := String.ofList node.chars

private def newLine (indent : Nat) : List Char := '\n' :: List.replicate (2 * indent) ' '

mutual
/-- An empty list or mapping stays on its line; any other has a line for each of its items. -/
def indentedChars (indent : Nat) : Node → List Char
  | list [] => ['[', ']']
  | list (item :: items) =>
    '[' :: (newLine (indent + 1) ++ (indentedChars (indent + 1) item ++
      (indentedItems (indent + 1) items ++ (newLine indent ++ [']']))))
  | map [] => ['{', '}']
  | map ((key, value) :: entries) =>
    '{' :: (newLine (indent + 1) ++ (Json.quoted key ++ ':' :: ' ' ::
      (indentedChars (indent + 1) value ++
        (indentedEntries (indent + 1) entries ++ (newLine indent ++ ['}'])))))
  | scalar => scalar.chars

def indentedItems (indent : Nat) : List Node → List Char
  | [] => []
  | item :: items =>
    ',' :: (newLine indent ++ (indentedChars indent item ++ indentedItems indent items))

def indentedEntries (indent : Nat) : List (String × Node) → List Char
  | [] => []
  | (key, value) :: entries =>
    ',' :: (newLine indent ++ (Json.quoted key ++ ':' :: ' ' ::
      (indentedChars indent value ++ indentedEntries indent entries)))
end

/-- The JSON text with two blanks of indentation a level, and a newline at the end. -/
def indentedJson (node : Node) : String := String.ofList (node.indentedChars 0 ++ ['\n'])

mutual
/-- A scalar as plain text: null is empty, a list is its items with commas between, a mapping is its
JSON text. -/
def plainText : Node → String
  | null => ""
  | bool b => if b then "true" else "false"
  | number n => String.ofList n.chars
  | text s => s
  | list items => ",".intercalate (plainTexts items)
  | map entries => json (map entries)

def plainTexts : List Node → List String
  | [] => []
  | item :: items => plainText item :: plainTexts items
end

end Node
end Shorthand
