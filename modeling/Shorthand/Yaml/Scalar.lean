import Shorthand.Json.Parser
import Shorthand.Yaml.Cursor

/-!
The texts of scalars: plain, in quotes, and in blocks. Each function reads one scalar and gives its text
with the place after it, or nothing where the scalar is malformed.
-/
namespace Shorthand.Yaml.Scalar

/-! ## Gaps within a scalar -/

/-- White space between two words. Of a gap with breaks in it only the breaks count. -/
inductive Gap
  | blanks (chars : List Char)
  | breaks (first more : List Char)

namespace Gap

/-- What a gap is folded to: one break to a blank, more breaks to all but the first. -/
def fold : Gap → List Char
  | blanks cs => cs
  | breaks first more =>
    if first = ['\n'] then if more.isEmpty then [' '] else more else first ++ more

def hasBreak : Gap → Bool
  | blanks _ => false
  | breaks .. => true

/-- Reads on over blanks and breaks. Below the indentation no tab may follow a break. -/
def read (indent : Nat) : Nat → Gap → Cursor → Option (Gap × Cursor)
  | 0, gap, c => some (gap, c)
  | steps + 1, gap, c =>
    match c.peek? with
    | none => some (gap, c)
    | some char =>
      if isBlank char then
        match gap with
        | blanks cs => read indent steps (blanks (cs ++ [char])) (c.skip 1)
        | breaks .. =>
          if char = '\t' ∧ c.column < indent then none else read indent steps gap (c.skip 1)
      else if isBreak char then
        let (lineBreak, c) := c.readBreak
        match gap with
        | blanks _ => read indent steps (breaks lineBreak []) c
        | breaks first more => read indent steps (breaks first (more ++ lineBreak)) c
      else some (gap, c)

end Gap

/-! ## Plain scalars -/

def isFlowIndicator (c : Char) : Bool := c = ',' || c = '[' || c = ']' || c = '{' || c = '}'

/-- The rest of a word of a plain scalar: up to white space, or a colon before white space, or, inside
brackets, an indicator. There a colon may stand before no indicator. -/
def plainWord (inFlow : Bool) : List Char → Option (List Char)
  | [] => some []
  | c :: cs =>
    if isSpace c then some []
    else if inFlow && c = ':' && cs.head?.any (fun d => isFlowIndicator d || d = '?') then none
    else if c = ':' && cs.head?.all isSpace then some []
    else if inFlow && isFlowIndicator c then some []
    else (plainWord inFlow cs).map (c :: ·)

/-- Words with the gaps between them. The last gap belongs to the scalar no more; it is given too. -/
def plainWords (inFlow : Bool) (indent : Nat) : Nat → Gap → Cursor → Option (List Char × Gap × Cursor)
  | 0, gap, c => some ([], gap, c)
  | steps + 1, gap, c =>
    if c.isAtMarker || c.isAt '#' then some ([], gap, c)
    else do
      let word ← plainWord inFlow c.rest
      if word.isEmpty then some ([], gap, c)
      else
        let c := c.skip word.length
        let (next, c) ← Gap.read indent c.size (.blanks []) c
        let (more, last, c) ←
          match next with
          | .blanks [] => some ([], next, c)
          | _ =>
            if !inFlow && c.column < indent then some ([], next, c)
            else plainWords inFlow indent steps next c
        some (gap.fold ++ word ++ more, last, c)

/-- A plain scalar, and whether the white space after it has a break in it. -/
def plain (inFlow : Bool) (indent : Nat) (c : Cursor) : Option (List Char × Bool × Cursor) := do
  let (text, gap, c) ← plainWords inFlow indent (c.size + 1) (.blanks []) c
  some (text, gap.hasBreak, c)

/-! ## Quoted scalars -/

/-- The characters of escapes of one letter. -/
def escaped? : Char → Option Char
  | '0' => some '\x00'
  | 'a' => some '\x07'
  | 'b' => some '\x08'
  | 't' | '\t' => some '\t'
  | 'n' => some '\n'
  | 'v' => some '\x0b'
  | 'f' => some '\x0c'
  | 'r' => some '\r'
  | 'e' => some '\x1b'
  | ' ' => some ' '
  | '"' => some '"'
  | '/' => some '/'
  | '\\' => some '\\'
  | 'N' => some '\u0085'
  | '_' => some '\u00a0'
  | 'L' => some '\u2028'
  | 'P' => some '\u2029'
  | _ => none

def codeLength? : Char → Option Nat
  | 'x' => some 2
  | 'u' => some 4
  | 'U' => some 8
  | _ => none

/-- The character of an escape after its backslash, and how many characters the escape takes there. -/
def escape? (c : Char) (cs : List Char) : Option (Char × Nat) :=
  match escaped? c with
  | some char => some (char, 1)
  | none => do
    let length ← codeLength? c
    let ds ← (cs.take length).mapM Json.hexDigit?
    let n := ds.foldl (fun n d => n * 16 + d) 0
    if ds.length = length ∧ n.isValidChar then some (Char.ofNat n, length + 1) else none

/-- How a run of characters that are no white space ends: before white space or the closing quote, or with
a break that a backslash stands before. -/
structure Word where
  chars : List Char
  escapedBreak : Bool
  next : Cursor

/-- Characters of a quoted scalar up to white space or the closing quote. -/
def quotedWord (quote : Char) : Nat → Cursor → Option Word
  | 0, c => some ⟨[], false, c⟩
  | steps + 1, c =>
    match c.rest with
    | [] => some ⟨[], false, c⟩
    | char :: rest =>
      if isSpace char then some ⟨[], false, c⟩
      else if char = quote then
        if quote = '\x27' && rest.head? == some '\x27' then add '\x27' steps (c.skip 2)
        else some ⟨[], false, c⟩
      else if char = '\\' && quote = '"' then
        match rest with
        | [] => none
        | e :: more =>
          if isBreak e then some ⟨[], true, (c.skip 1).readBreak.2⟩
          else do
            let (char, length) ← escape? e more
            add char steps (c.skip (length + 1))
      else add char steps (c.skip 1)
where
  add (char : Char) (steps : Nat) (c : Cursor) : Option Word := do
    let word ← quotedWord quote steps c
    some { word with chars := char :: word.chars }

/-- The words of a quoted scalar, up to its closing quote. -/
def quotedWords (quote : Char) : Nat → Cursor → Option (List Char × Cursor)
  | 0, _ => none
  | steps + 1, c =>
    if c.isAtMarker || c.rest.isEmpty then none
    else do
      let word ← quotedWord quote c.size c
      if word.next.isAt quote then some (word.chars, word.next.skip 1)
      else
        let gap := if word.escapedBreak then Gap.breaks [] [] else Gap.blanks []
        let (gap, c) ← gap.read 0 c.size word.next
        let (more, c) ← quotedWords quote steps c
        some (word.chars ++ gap.fold ++ more, c)

/-- A scalar in quotes; the place is at the opening one. -/
def quoted (quote : Char) (c : Cursor) : Option (List Char × Cursor) :=
  quotedWords quote (c.size + 1) (c.skip 1)

/-! ## Block scalars -/

/-- What becomes of the breaks at the end of a block. -/
inductive Chomping
  | strip
  | clip
  | keep

def chomping? : Char → Option Chomping
  | '+' => some .keep
  | '-' => some .strip
  | _ => none

/-- Nothing for a zero, which is no indentation. -/
def indentDigit? (c : Char) : Option Nat := if c.isDigit then some (c.toNat - 48) else none

/-- The indicators after the bar or the angle bracket, in either order. -/
def blockHeader (c : Cursor) : Option (Chomping × Nat × Cursor) :=
  match c.peek?.bind chomping?, c.peek?.bind indentDigit? with
  | some chomping, _ =>
    let c := c.skip 1
    match c.peek?.bind indentDigit? with
    | some 0 => none
    | some n => some (chomping, n, c.skip 1)
    | none => some (chomping, 0, c)
  | none, some 0 => none
  | none, some n =>
    let c := c.skip 1
    match c.peek?.bind chomping? with
    | some chomping => some (chomping, n, c.skip 1)
    | none => some (.clip, n, c)
  | none, none => some (.clip, 0, c)

/-- Reads over empty lines and indentation, up to the indentation of the block where that is known (and
not zero). Gives the breaks, the deepest column reached, and the place. -/
def blockBreaks (indent : Nat) : Nat → Nat → Cursor → Option (List Char × Nat × Cursor)
  | 0, deepest, c => some ([], deepest, c)
  | steps + 1, deepest, c =>
    let blanks := (c.rest.takeWhile (· == ' ')).length
    let c := c.skip (if indent = 0 then blanks else min blanks (indent - c.column))
    let deepest := max deepest c.column
    if (indent = 0 || c.column < indent) && c.isAt '\t' then none
    else if c.peek?.any isBreak then do
      let (lineBreak, c) := c.readBreak
      let (breaks, deepest, c) ← blockBreaks indent steps deepest c
      some (lineBreak ++ breaks, deepest, c)
    else some ([], deepest, c)

/-- What stands between two lines of a folded block. -/
def foldedBreak (first more : List Char) (leadingBlank nextBlank : Bool) : List Char :=
  if first = ['\n'] && !leadingBlank && !nextBlank then
    if more.isEmpty then [' '] else more
  else first ++ more

/-- The lines of a block. `first` is the break before the line at hand and `more` the empty lines after
that break; of the last line both are given. -/
def blockLines (literal : Bool) (indent : Nat) : Nat → (first more : List Char) → (leadingBlank : Bool) →
    Cursor → Option (List Char × List Char × List Char × Cursor)
  | 0, first, more, _, c => some ([], first, more, c)
  | steps + 1, first, more, leadingBlank, c =>
    if c.column = indent && !c.rest.isEmpty then do
      let blank := c.peek?.any isBlank
      let between := if literal then first ++ more else foldedBreak first more leadingBlank blank
      let line := c.rest.takeWhile fun char => !isBreak char
      let (first, c) := (c.skip line.length).readBreak
      let (more, _, c) ← blockBreaks indent c.size 0 c
      let (text, first, more, c) ← blockLines literal indent steps first more blank c
      some (between ++ line ++ text, first, more, c)
    else some ([], first, more, c)

/-- A block scalar; the place is at its indicator. `parent` is one more than the indentation around it. -/
def block (literal : Bool) (parent : Nat) (c : Cursor) : Option (List Char × Cursor) := do
  let (chomping, increment, c) ← blockHeader (c.skip 1)
  let c := c.skipWhile isBlank
  let c := if c.isAt '#' then c.skipWhile fun char => !isBreak char else c
  if !c.isBreakOrEnd then none else
  let c := c.readBreak.2
  let asked := if increment = 0 then 0 else (parent - 1) + increment
  let (more, deepest, c) ← blockBreaks asked (c.size + 1) 0 c
  let indent := if asked = 0 then max (max deepest parent) 1 else asked
  let (text, first, more, c) ← blockLines literal indent (c.size + 1) [] more false c
  some (match chomping with
    | .strip => text
    | .clip => text ++ first
    | .keep => text ++ first ++ more, c)

end Shorthand.Yaml.Scalar
