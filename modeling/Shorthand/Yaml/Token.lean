import Shorthand.Text.Basic
import Shorthand.Yaml.Scalar
import Shorthand.Yaml.Tag

/-!
Tokens of YAML texts. Indentation and keys that are only known by the colon after them become tokens of
their own, so that what remains to be read is free of context.
-/
namespace Shorthand.Yaml

/-- The handle of a tag is empty for a tag that stands for itself. -/
inductive Token
  | version (major minor : Nat)
  | tagDirective (handle : List Char) (lead : Tag)
  | documentStart
  | documentEnd
  | blockSequenceStart
  | blockMappingStart
  | blockEnd
  | flowSequenceStart
  | flowSequenceEnd
  | flowMappingStart
  | flowMappingEnd
  | blockEntry
  | flowEntry
  | key
  | value
  | reference (name : List Char)
  | anchor (name : List Char)
  | tag (handle : List Char) (suffix : Tag)
  | scalar (plain : Bool) (text : List Char)
  deriving DecidableEq

/-- A place at which a key without a mark of its own may have begun, and how many tokens stand before it.
One that stands at the indentation is required to be a key. -/
structure PossibleKey where
  required : Bool
  tokens : Nat
  offset : Nat
  line : Nat
  column : Nat

/-- The state of the reading of tokens. Indentations are counted from one, zero being outside all
blocks. The possible keys are those of the levels of brackets, the innermost first. -/
structure Scanner where
  cursor : Cursor
  indents : List Nat := [0]
  keyAllowed : Bool := true
  keys : List (Option PossibleKey) := [none]
  /-- The last token first. -/
  tokens : List Token := []
  /-- How many tokens there are. -/
  count : Nat := 0

namespace Scanner

def inFlow (s : Scanner) : Bool := s.keys.length > 1

def indent (s : Scanner) : Nat := s.indents.headD 0

def push (s : Scanner) (t : Token) : Scanner := { s with tokens := t :: s.tokens, count := s.count + 1 }

/-- Puts a token before which so many others stand. -/
def insert (s : Scanner) (before : Nat) (t : Token) : Scanner :=
  let (later, earlier) := s.tokens.splitAt (s.count - before)
  { s with tokens := later ++ t :: earlier, count := s.count + 1 }

def moveTo (s : Scanner) (c : Cursor) : Scanner := { s with cursor := c }

def allowKey (s : Scanner) (allowed : Bool) : Scanner := { s with keyAllowed := allowed }

/-- Opens a block whose column is right of the indentation. -/
def openBlock (s : Scanner) (column : Nat) (before : Nat) (t : Token) : Scanner :=
  if s.inFlow || column + 1 ≤ s.indent then s
  else { s with indents := (column + 1) :: s.indents }.insert before t

/-- Closes the blocks that are right of a column, which counts from one. -/
def closeBlocks (s : Scanner) (column : Nat) : Scanner :=
  if s.inFlow then s
  else
    let closed := s.indents.takeWhile fun i => decide (column < i)
    { s with
      indents := s.indents.drop closed.length
      tokens := List.replicate closed.length .blockEnd ++ s.tokens
      count := closed.length + s.count }

/-- A key is possible no more on a later line or after 1024 bytes. -/
def isStale (c : Cursor) (k : PossibleKey) : Bool := k.line < c.line || k.offset + 1024 < c.offset

/-- Forgets the keys that are possible no more; none of them may be required. -/
def dropStale (s : Scanner) : Option Scanner := do
  let keys ← s.keys.mapM fun key =>
    match key with
    | some k => if isStale s.cursor k then if k.required then none else some none else some (some k)
    | none => some none
  some { s with keys := keys }

/-- Forgets the innermost possible key. -/
def dropKey (s : Scanner) : Option Scanner :=
  match s.keys with
  | some k :: keys => if k.required then none else some { s with keys := none :: keys }
  | _ => some s

/-- Notes that a key may begin here. -/
def noteKey (s : Scanner) : Option Scanner :=
  if s.keyAllowed then do
    let s ← s.dropKey
    let c := s.cursor
    let k : PossibleKey :=
      ⟨!s.inFlow && s.indent == c.column + 1, s.count, c.offset, c.line, c.column⟩
    some { s with keys := some k :: s.keys.drop 1 }
  else some s

/-- Skips blanks, comments and breaks. Tabs count as blanks only where no key may begin. -/
def skipSpace : Nat → Scanner → Scanner
  | 0, s => s
  | steps + 1, s =>
    let c := s.cursor
    let c := if c.column = 0 && c.isAt '\ufeff' then c.skip 1 else c
    let c := c.skipWhile fun char => char = ' ' || (char = '\t' && (s.inFlow || !s.keyAllowed))
    let c := if c.isAt '#' then c.skipWhile fun char => !isBreak char else c
    if c.peek?.any isBreak then
      skipSpace steps ((s.moveTo c.readBreak.2).allowKey (s.keyAllowed || !s.inFlow))
    else s.moveTo c

/-! ## Directives -/

def number? (c : Cursor) : Option (Nat × Cursor) :=
  let ds := c.rest.takeWhile Char.isDigit
  if ds.isEmpty || 9 < ds.length then none else some (Json.natOfDigits ds, c.skip ds.length)

/-- A run of word characters between exclamation marks. As a handle of a directive it has both marks,
unless it is a single one. -/
def tagHandle (directive : Bool) (c : Cursor) : Option (List Char × Cursor) :=
  if c.isAt '!' then
    let word := (c.skip 1).rest.takeWhile isWord
    let after := c.skip (1 + word.length)
    if after.isAt '!' then some ('!' :: (word ++ ['!']), after.skip 1)
    else if directive && !word.isEmpty then none
    else some ('!' :: word, after)
  else none

def isUriChar (verbatim : Bool) (c : Char) : Bool :=
  isWord c || [';', '/', '?', ':', '@', '&', '=', '+', '$', '.', '!', '~', '*', '\x27', '(', ')'].contains c ||
    (verbatim && (c = ',' || c = '[' || c = ']'))

/-- An octet, by its digits after a per cent sign. -/
def octet? : List Char → Option UInt8
  | '%' :: a :: b :: _ => do
    let a ← Json.hexDigit? a
    let b ← Json.hexDigit? b
    some (UInt8.ofNat (a * 16 + b))
  | _ => none

/-- So many octets that go on with a character, each with six bits of it. -/
def trailingOctets? : Nat → List Char → Option (List UInt8)
  | 0, _ => some []
  | more + 1, cs => do
    let o ← octet? cs
    if o / 64 = 2 then (o :: ·) <$> trailingOctets? more (cs.drop 3) else none

/-- The octets of a character. The first of them tells how many there are, and no more is asked of them. -/
def octets? (cs : List Char) : Option (List UInt8) := do
  let o ← octet? cs
  let more ←
    if o < 0x80 then some 0
    else if o / 32 = 6 then some 1
    else if o / 16 = 14 then some 2
    else if o / 8 = 30 then some 3
    else none
  (o :: ·) <$> trailingOctets? more (cs.drop 3)

def uriOctets (verbatim : Bool) : Nat → Cursor → Option (List UInt8 × Cursor)
  | 0, c => some ([], c)
  | steps + 1, c =>
    match c.peek? with
    | none => some ([], c)
    | some char =>
      if char = '%' then do
        let os ← octets? c.rest
        let (more, c) ← uriOctets verbatim steps (c.skip (3 * os.length))
        some (os ++ more, c)
      else if isUriChar verbatim char then do
        let (more, c) ← uriOctets verbatim steps (c.skip 1)
        some (String.utf8EncodeChar char ++ more, c)
      else some ([], c)

/-- The rest of a tag after `head`, whose exclamation mark is left out; the two together are not empty. -/
def tagUri (verbatim : Bool) (head : List Char) (c : Cursor) : Option (Tag × Cursor) := do
  let (os, c) ← uriOctets verbatim (c.size + 1) c
  if head.isEmpty && os.isEmpty then none else some (Tag.beforeZero (Tag.ofChars (head.drop 1) ++ os), c)

def versionDirective (c : Cursor) : Option (Token × Cursor) := do
  let (major, c) ← number? (c.skipWhile isBlank)
  if !c.isAt '.' then none else
  let (minor, c) ← number? (c.skip 1)
  some (.version major minor, c)

def tagDirective (c : Cursor) : Option (Token × Cursor) := do
  let (handle, c) ← tagHandle true (c.skipWhile isBlank)
  if !c.peek?.any isBlank then none else
  let (lead, c) ← tagUri true [] (c.skipWhile isBlank)
  if !c.isSpaceAt 0 then none else
  some (.tagDirective handle lead, c)

/-- A directive, with the rest of its line. -/
def directive (c : Cursor) : Option (Token × Cursor) := do
  let name := (c.skip 1).rest.takeWhile isWord
  let c := c.skip (1 + name.length)
  if !c.isSpaceAt 0 then none else
  let (t, c) ←
    if name = ['Y', 'A', 'M', 'L'] then versionDirective c
    else if name = ['T', 'A', 'G'] then tagDirective c
    else none
  let c := c.skipWhile isBlank
  let c := if c.isAt '#' then c.skipWhile fun char => !isBreak char else c
  if c.isBreakOrEnd then some (t, c.readBreak.2) else none

/-! ## Properties -/

/-- An anchor's or an alias's name, and what may follow it. -/
def name? (c : Cursor) : Option (List Char × Cursor) :=
  let name := (c.skip 1).rest.takeWhile isWord
  let c := c.skip (1 + name.length)
  let ends := c.isSpaceAt 0 ||
    c.peek?.any fun char => ['?', ':', ',', ']', '}', '%', '@', '\x60'].contains char
  if name.isEmpty || !ends then none else some (name, c)

/-- The handle and the suffix of a tag. -/
def tagParts (c : Cursor) : Option ((List Char × Tag) × Cursor) :=
  if c.rest[1]? == some '<' then do
    let (suffix, c) ← tagUri true [] (c.skip 2)
    if c.isAt '>' then some (([], suffix), c.skip 1) else none
  else do
    let (handle, c) ← tagHandle false c
    if 1 < handle.length && handle.getLast? == some '!' then
      let (suffix, c) ← tagUri false [] c
      some ((handle, suffix), c)
    else
      let (suffix, c) ← tagUri false handle c
      some (if suffix.isEmpty then ([], Tag.mark) else (['!'], suffix), c)

def tag (inFlow : Bool) (c : Cursor) : Option (Token × Cursor) := do
  let ((handle, suffix), c) ← tagParts c
  if c.isSpaceAt 0 || (inFlow && c.isAt ',') then some (.tag handle suffix, c) else none

/-! ## One token after another -/

def mark (s : Scanner) (t : Token) (length : Nat) : Scanner := (s.moveTo (s.cursor.skip length)).push t

/-- Outside all blocks: where a directive or a marker of a document stands. -/
def outside (s : Scanner) : Option Scanner := do
  let s ← (s.closeBlocks 0).dropKey
  some (s.allowKey false)

def fetchDirective (s : Scanner) : Option Scanner := do
  let s ← s.outside
  let (t, c) ← directive s.cursor
  some ((s.moveTo c).push t)

def fetchMarker (s : Scanner) (t : Token) : Option Scanner := do
  let s ← s.outside
  some (s.mark t 3)

def openFlow (s : Scanner) (t : Token) : Option Scanner := do
  let s ← s.noteKey
  some (({ s with keys := none :: s.keys }.allowKey true).mark t 1)

def closeFlow (s : Scanner) (t : Token) : Option Scanner := do
  let s ← s.dropKey
  let keys := match s.keys with
    | _ :: key :: keys => key :: keys
    | keys => keys
  some (({ s with keys := keys }.allowKey false).mark t 1)

def fetchFlowEntry (s : Scanner) : Option Scanner := do
  let s ← s.dropKey
  some ((s.allowKey true).mark .flowEntry 1)

/-- An entry or an explicit key in a block begins only where a key may. -/
def openIndicated (s : Scanner) (start : Token) : Option Scanner :=
  if s.inFlow then some s
  else if s.keyAllowed then some (s.openBlock s.cursor.column s.count start)
  else none

def fetchBlockEntry (s : Scanner) : Option Scanner := do
  let s ← s.openIndicated .blockSequenceStart
  let s ← s.dropKey
  some ((s.allowKey true).mark .blockEntry 1)

def fetchKey (s : Scanner) : Option Scanner := do
  let s ← s.openIndicated .blockMappingStart
  let s ← s.dropKey
  some ((s.allowKey (!s.inFlow)).mark .key 1)

/-- A colon makes a key of what was possible as one. -/
def fetchValue (s : Scanner) : Option Scanner :=
  match s.keys with
  | some k :: keys =>
    let s := (s.insert k.tokens .key).openBlock k.column k.tokens .blockMappingStart
    some (({ s with keys := none :: keys }.allowKey false).mark .value 1)
  | _ => do
    let s ← s.openIndicated .blockMappingStart
    some ((s.allowKey (!s.inFlow)).mark .value 1)

def fetchName (s : Scanner) (t : List Char → Token) : Option Scanner := do
  let s ← s.noteKey
  let (name, c) ← name? s.cursor
  some (((s.allowKey false).moveTo c).push (t name))

def fetchTag (s : Scanner) : Option Scanner := do
  let s ← s.noteKey
  let (t, c) ← tag s.inFlow s.cursor
  some (((s.allowKey false).moveTo c).push t)

def fetchBlock (s : Scanner) (literal : Bool) : Option Scanner := do
  let s ← s.dropKey
  let (text, c) ← Scalar.block literal s.indent s.cursor
  some (((s.allowKey true).moveTo c).push (.scalar false text))

def fetchQuoted (s : Scanner) (quote : Char) : Option Scanner := do
  let s ← s.noteKey
  let (text, c) ← Scalar.quoted quote s.cursor
  some (((s.allowKey false).moveTo c).push (.scalar false text))

/-- After a plain scalar that a break follows a key may begin. -/
def fetchPlain (s : Scanner) : Option Scanner := do
  let s ← s.noteKey
  let (text, broken, c) ← Scalar.plain s.inFlow s.indent s.cursor
  some (((s.allowKey broken).moveTo c).push (.scalar true text))

def isIndicator (c : Char) : Bool :=
  ['-', '?', ':', ',', '[', ']', '{', '}', '#', '&', '*', '!', '|', '>', '\x27', '"', '%', '@', '\x60'].contains c

/-- Whether a plain scalar may begin here. -/
def beginsPlain (s : Scanner) (char : Char) : Bool :=
  !(isIndicator char || isSpace char) ||
    (char = '-' && !(s.cursor.rest[1]?).any isBlank) ||
    (!s.inFlow && (char = '?' || char = ':') && !s.cursor.isSpaceAt 1)

/-- Reads the token that a character begins. -/
def fetch (s : Scanner) (char : Char) : Option Scanner :=
  let c := s.cursor
  if c.column = 0 && char = '%' then s.fetchDirective
  else if c.isAtMarker then s.fetchMarker (if char = '-' then .documentStart else .documentEnd)
  else if char = '[' then s.openFlow .flowSequenceStart
  else if char = '{' then s.openFlow .flowMappingStart
  else if char = ']' then s.closeFlow .flowSequenceEnd
  else if char = '}' then s.closeFlow .flowMappingEnd
  else if char = ',' then s.fetchFlowEntry
  else if char = '-' && c.isSpaceAt 1 then s.fetchBlockEntry
  else if char = '?' && (s.inFlow || c.isSpaceAt 1) then s.fetchKey
  else if char = ':' && (s.inFlow || c.isSpaceAt 1) then s.fetchValue
  else if char = '*' then s.fetchName .reference
  else if char = '&' then s.fetchName .anchor
  else if char = '!' then s.fetchTag
  else if char = '|' && !s.inFlow then s.fetchBlock true
  else if char = '>' && !s.inFlow then s.fetchBlock false
  else if char = '\x27' || char = '"' then s.fetchQuoted char
  else if s.beginsPlain char then s.fetchPlain
  else none

/-- Reads all tokens; the blocks that are open at the end are closed there. -/
def run : Nat → Scanner → Option (List Token)
  | 0, _ => none
  | steps + 1, s => do
    let s ← (s.skipSpace (s.cursor.size + 1)).dropStale
    match s.cursor.peek? with
    | none =>
      let s ← (s.closeBlocks 0).dropKey
      some s.tokens.reverse
    | some char =>
      let s ← (s.closeBlocks (s.cursor.column + 1)).fetch char
      run steps s

end Scanner

/-- The tokens of a text. -/
def Token.ofText? (text : String) : Option (List Token) :=
  let cs := text.toList
  if cs.all isAllowed then Scanner.run (cs.length + 2) { cursor := .start cs } else none

end Shorthand.Yaml
