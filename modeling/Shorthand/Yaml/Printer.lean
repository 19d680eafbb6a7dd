import Shorthand.Yaml.Cursor
import Shorthand.Yaml.Plain

/-!
YAML texts of nodes: blocks with two blanks of indentation, lists flush with the mapping around them, and
each scalar in the first of its styles that can hold it.
-/
namespace Shorthand.Yaml

namespace Written

/-! ## What a text allows -/

/-- The characters that may stand unescaped. -/
def isPrintable (c : Char) : Bool :=
  let n := c.toNat
  n = 0xA || (0x20 ≤ n && n ≤ 0x7E) || (0xA0 ≤ n && n ≤ 0xD7FF) || (0xE000 ≤ n && n ≤ 0xFFFD && n != 0xFEFF) ||
    0x10000 ≤ n

/-- The characters with which no plain scalar begins. -/
def isReserved (c : Char) : Bool :=
  ['#', ',', '[', ']', '{', '}', '&', '*', '!', '|', '>', '\x27', '"', '%', '@', '\x60'].contains c

def isSpaceNext (cs : List Char) : Bool := cs.head?.all isSpace

/-- Whether a text begins with what would be read as something else than a scalar. -/
def startsIndicated : List Char → Bool
  | [] => false
  | c :: cs =>
    isReserved c || ((c = '?' || c = ':' || c = '-') && isSpaceNext cs) ||
      (c :: cs).take 3 == ['-', '-', '-'] || (c :: cs).take 3 == ['.', '.', '.']

/-- Whether the rest of a text holds a colon before white space, or a number sign after it. -/
def holdsIndicator : (afterSpace : Bool) → List Char → Bool
  | _, [] => false
  | afterSpace, c :: cs =>
    (c = ':' && isSpaceNext cs) || (c = '#' && afterSpace) || holdsIndicator (isSpace c) cs

/-- Whether two neighbours in a text satisfy a relation. -/
def hasNeighbours (r : Char → Char → Bool) : List Char → Bool
  | a :: b :: cs => r a b || hasNeighbours r (b :: cs)
  | _ => false

def hasBreak (cs : List Char) : Bool := cs.any isBreak

/-- Texts that only double quotes can hold. -/
def needsEscapes (cs : List Char) : Bool :=
  cs.any (fun c => !isPrintable c) || hasNeighbours (fun a b => a = ' ' && isBreak b) cs

def allowsSingle (cs : List Char) : Bool :=
  !needsEscapes cs && !hasNeighbours (fun a b => isBreak a && b = ' ') cs

def allowsBlock (cs : List Char) : Bool := !needsEscapes cs && cs.getLast? != some ' '

def allowsPlain (cs : List Char) : Bool :=
  !needsEscapes cs && !hasBreak cs && cs.head? != some ' ' && cs.getLast? != some ' ' &&
    !startsIndicated cs && !holdsIndicator (cs.head?.any isSpace) (cs.drop 1)

/-! ## Styles -/

inductive Style
  | plain
  | single
  | double
  | literal
  deriving DecidableEq

/-- The style of a text: texts of several lines stand in a block, and texts that would be read as something
else in quotes. -/
def style (cs : List Char) : Style :=
  if cs.contains '\n' then if allowsBlock cs then .literal else .double
  else if Plain.of cs = .text && !Plain.isPadded cs && allowsPlain cs then .plain
  else if allowsSingle cs then .single
  else .double

def spaces (n : Nat) : List Char := List.replicate n ' '

/-- A text over several lines, whose lines but the first are indented. After a break comes the indentation,
unless another break does. -/
def indentLines (indent : Nat) : (atStart : Bool) → List Char → List Char
  | _, [] => []
  | atStart, c :: cs =>
    if isBreak c then c :: indentLines indent true cs
    else (if atStart then spaces indent else []) ++ c :: indentLines indent false cs

def doubleQuotes (cs : List Char) : List Char := cs.flatMap fun c => if c = '\x27' then [c, c] else [c]

/-- A text in single quotes. A break before the closing quote is followed by the indentation too. -/
def single (indent : Nat) (cs : List Char) : List Char :=
  let closing := if cs.getLast?.any isBreak then spaces indent else []
  '\x27' :: (indentLines indent false (doubleQuotes cs) ++ closing ++ ['\x27'])

/-- Letters of short escapes. -/
def shortEscape? (c : Char) : Option Char :=
  match c with
  | '\x00' => some '0'
  | '\x07' => some 'a'
  | '\x08' => some 'b'
  | '\t' => some 't'
  | '\n' => some 'n'
  | '\x0b' => some 'v'
  | '\x0c' => some 'f'
  | '\r' => some 'r'
  | '\x1b' => some 'e'
  | '"' => some '"'
  | '\\' => some '\\'
  | '\u0085' => some 'N'
  | '\u2028' => some 'L'
  | '\u2029' => some 'P'
  | _ => none

/-- So many hexadecimal digits. -/
def hexDigits : (length : Nat) → Nat → List Char
  | 0, _ => []
  | length + 1, n => hexDigits length (n / 16) ++ [(Nat.digitChar (n % 16)).toUpper]

/-- What stands for a character in double quotes. Those of more than four digits need no escape. -/
def escape (c : Char) : List Char :=
  if isPrintable c && !isBreak c && c != '"' && c != '\\' then [c]
  else match shortEscape? c with
    | some e => ['\\', e]
    | none =>
      let n := c.toNat
      if n ≤ 0xFF then '\\' :: 'x' :: hexDigits 2 n else '\\' :: 'u' :: hexDigits 4 n

def double (cs : List Char) : List Char := '"' :: (cs.flatMap escape ++ ['"'])

/-- What the last breaks of a block need to be kept as they are. -/
def chomping (cs : List Char) : List Char :=
  match cs.reverse with
  | [] => ['-']
  | [c] => if isBreak c then ['+'] else ['-']
  | c :: d :: _ => if !isBreak c then ['-'] else if isBreak d then ['+'] else []

/-- A block whose lines stand as they are. The indentation is told where the text does not show it. -/
def literal (indent : Nat) (cs : List Char) : List Char :=
  let told := if cs.head?.any fun c => c = ' ' || isBreak c then ['2'] else []
  '|' :: (told ++ chomping cs ++ '\n' :: indentLines indent true cs)

def text (indent : Nat) (s : String) : List Char :=
  let cs := s.toList
  match style cs with
  | .plain => cs
  | .single => single indent cs
  | .double => double cs
  | .literal => literal indent cs

/-! ## Nodes -/

/-- Ends a line that has not ended. -/
def endLine (cs : List Char) : List Char := if cs.getLast?.any isBreak then cs else cs ++ ['\n']

/-- Whether a key may stand before its colon: in one line, of at most 128 bytes. -/
def isShortKey (key : String) : Bool := !hasBreak key.toList && key.utf8ByteSize ≤ 128

def scalar (indent : Nat) : Node → List Char
  | .null => ['n', 'u', 'l', 'l']
  | .bool b => if b then ['t', 'r', 'u', 'e'] else ['f', 'a', 'l', 's', 'e']
  | .number n => numberChars n
  | .text s => text indent s
  | .list _ => ['[', ']']
  | .map _ => ['{', '}']

/-- An entry of a mapping. What follows the colon depends on whether the key is short. -/
def entry (indent : Nat) (key : String) (value : (isShort : Bool) → List Char) : List Char :=
  if isShortKey key then text (indent + 2) key ++ ':' :: value true
  else
    '?' :: ' ' :: (endLine (text (indent + 2) key) ++ (spaces indent ++ ':' :: ' ' :: value false))

mutual
/-- Whole lines of a node that begins in the column of its indentation. -/
def block (indent : Nat) : Node → List Char
  | .list (item :: items) => '-' :: ' ' :: (block (indent + 2) item ++ moreItems indent items)
  | .map ((key, node) :: entries) =>
    entry indent key (fun isShort => if isShort then value indent node else block (indent + 2) node) ++
      moreEntries indent entries
  | node => endLine (scalar indent node)

/-- Whole lines of a node after the colon of a short key. -/
def value (indent : Nat) : Node → List Char
  | .list (item :: items) =>
    '\n' :: (spaces indent ++ '-' :: ' ' :: (block (indent + 2) item ++ moreItems indent items))
  | .map ((key, node) :: entries) =>
    let inner := indent + 2
    '\n' :: (spaces inner ++
      (entry inner key (fun isShort => if isShort then value inner node else block (inner + 2) node) ++
        moreEntries inner entries))
  | node => ' ' :: endLine (scalar (indent + 2) node)

def moreItems (indent : Nat) : List Node → List Char
  | [] => []
  | item :: items => spaces indent ++ '-' :: ' ' :: (block (indent + 2) item ++ moreItems indent items)

def moreEntries (indent : Nat) : List (String × Node) → List Char
  | [] => []
  | (key, node) :: entries =>
    spaces indent ++
      (entry indent key (fun isShort => if isShort then value indent node else block (indent + 2) node) ++
        moreEntries indent entries)
end

end Written

/-- The YAML text of a node, newline at its end included. A scalar that stands alone is indented like an
entry of a mapping. -/
def render (node : Node) : String :=
  String.ofList (match node with
    | .list _ | .map _ => Written.block 0 node
    | scalar => Written.endLine (Written.scalar 2 scalar))

end Shorthand.Yaml
