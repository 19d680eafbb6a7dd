import Shorthand.Text.Basic

/-!
A place in a YAML text: what remains of it, and where that begins.
-/
namespace Shorthand.Yaml

/-- The characters that a text may hold. -/
def isAllowed (c : Char) : Bool :=
  let n := c.toNat
  n = 9 || n = 0xA || n = 0xD || (0x20 ≤ n && n ≤ 0x7E) || n = 0x85 || (0xA0 ≤ n && n ≤ 0xD7FF) ||
    (0xE000 ≤ n && n ≤ 0xFFFD) || 0x10000 ≤ n

def isBlank (c : Char) : Bool := c = ' ' || c = '\t'

def isBreak (c : Char) : Bool :=
  c = '\n' || c = '\r' || c = '\u0085' || c = '\u2028' || c = '\u2029'

def isSpace (c : Char) : Bool := isBlank c || isBreak c

/-- The characters of anchors and of the handles of tags. -/
def isWord (c : Char) : Bool := c.isAlphanum || c = '_' || c = '-'

structure Cursor where
  rest : List Char
  /-- The length of the whole text, which bounds the steps of every loop over it. -/
  size : Nat
  /-- How many bytes of the text come before, in UTF-8. -/
  offset : Nat := 0
  line : Nat := 0
  column : Nat := 0

namespace Cursor

/-- The beginning of a text. -/
def start (cs : List Char) : Cursor := { rest := cs, size := cs.length }

def peek? (c : Cursor) : Option Char := c.rest.head?

def isAt (c : Cursor) (char : Char) : Bool := c.peek? == some char

/-- Whether the character so many places further is a blank, a break or the end. -/
def isSpaceAt (c : Cursor) (n : Nat) : Bool := (c.rest[n]?).all isSpace

def isBreakOrEnd (c : Cursor) : Bool := c.peek?.all isBreak

/-- Goes on by characters that are no breaks. -/
def skip (c : Cursor) (n : Nat) : Cursor :=
  { c with
    rest := c.rest.drop n
    offset := c.offset + Text.utf8Length (c.rest.take n)
    column := c.column + n }

def skipWhile (c : Cursor) (p : Char → Bool) : Cursor := c.skip (c.rest.takeWhile p).length

/-- The beginning of the next line, after a break of so many characters. -/
def startLine (c : Cursor) (length : Nat) : Cursor := { c.skip length with line := c.line + 1, column := 0 }

/-- Goes on to the next line, and gives what the break counts for: a line feed, but for the two
separators, which stay what they are. -/
def readBreak (c : Cursor) : List Char × Cursor :=
  match c.rest with
  | '\r' :: '\n' :: _ => (['\n'], c.startLine 2)
  | char :: _ =>
    if char = '\n' || char = '\r' || char = '\u0085' then (['\n'], c.startLine 1)
    else if isBreak char then ([char], c.startLine 1)
    else ([], c)
  | [] => ([], c)

/-- Whether a line begins here with a marker of the start or the end of a document. -/
def isAtMarker (c : Cursor) : Bool :=
  c.column == 0 && (c.rest.take 3 == ['-', '-', '-'] || c.rest.take 3 == ['.', '.', '.']) && c.isSpaceAt 3

end Cursor
end Shorthand.Yaml
