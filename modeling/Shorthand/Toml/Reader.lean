import Shorthand.Json.Parser
import Shorthand.Text.Basic
import Shorthand.Toml.Document

/-!
Reading TOML texts. Each function takes the characters that remain and gives what it read with the rest.
-/
namespace Shorthand.Toml

def isBlank (c : Char) : Bool := c = ' ' || c = '\t'

def skipBlanks (cs : List Char) : List Char := cs.dropWhile isBlank

/-- Characters that may stand in comments and in literal texts, where they do not end these. -/
def isPlain (c : Char) : Bool := c = '\t' || (0x20 ≤ c.toNat && c.toNat ≠ 0x7F)

def newline? : List Char → Option (List Char)
  | '\n' :: cs => some cs
  | '\r' :: '\n' :: cs => some cs
  | _ => none

/-- What may stand before the end of a line. -/
def skipComment (cs : List Char) : List Char :=
  match skipBlanks cs with
  | '#' :: cs => cs.dropWhile isPlain
  | cs => cs

def lineEnd? (cs : List Char) : Option (List Char) :=
  match skipComment cs with
  | [] => some []
  | cs => newline? cs

/-- Skips blanks, comments and ends of lines. -/
def skipSpace : Nat → List Char → List Char
  | 0, cs => cs
  | steps + 1, cs =>
    match newline? (skipComment cs) with
    | some cs => skipSpace steps cs
    | none => skipComment cs

/-! ## Texts -/

def hexCharacter (digits : Nat) (cs : List Char) : Option (Char × List Char) := do
  let ds ← (cs.take digits).mapM Json.hexDigit?
  let n := ds.foldl (fun n d => n * 16 + d) 0
  if ds.length = digits ∧ n.isValidChar then some (Char.ofNat n, cs.drop digits) else none

/-- The character of an escape, after the backslash. -/
def escape? : List Char → Option (Char × List Char)
  | 'b' :: cs => some ('\x08', cs)
  | 't' :: cs => some ('\t', cs)
  | 'n' :: cs => some ('\n', cs)
  | 'f' :: cs => some ('\x0c', cs)
  | 'r' :: cs => some ('\r', cs)
  | '"' :: cs => some ('"', cs)
  | '\\' :: cs => some ('\\', cs)
  | 'u' :: cs => hexCharacter 4 cs
  | 'U' :: cs => hexCharacter 8 cs
  | _ => none

/-- The rest of a text in double quotes, on one line. -/
def basicTail : Nat → List Char → Option (List Char × List Char)
  | 0, _ => none
  | _, [] => none
  | _ + 1, '"' :: cs => some ([], cs)
  | steps + 1, '\\' :: cs => do
    let (c, cs) ← escape? cs
    let (s, cs) ← basicTail steps cs
    some (c :: s, cs)
  | steps + 1, c :: cs =>
    if isPlain c then do
      let (s, cs) ← basicTail steps cs
      some (c :: s, cs)
    else none

/-- The rest of a text in single quotes, on one line: no escapes. -/
def literalTail : List Char → Option (List Char × List Char)
  | [] => none
  | '\x27' :: cs => some ([], cs)
  | c :: cs =>
    if isPlain c then do
      let (s, cs) ← literalTail cs
      some (c :: s, cs)
    else none

/-- From three quotes on a text over several lines ends; up to two more belong to it. -/
def closing? (quote : Char) (cs : List Char) : Option (List Char × List Char) :=
  let run := cs.takeWhile (· == quote)
  if 3 ≤ run.length then
    let own := min (run.length - 3) 2
    some (List.replicate own quote, cs.drop (own + 3))
  else none

/-- After a backslash at the end of a line: blanks and further ends of lines are skipped. -/
def continuation? (cs : List Char) : Option (List Char) :=
  (newline? (skipBlanks cs)).map fun cs => cs.dropWhile fun c => isBlank c || c = '\n' || c = '\r'

/-- The rest of a text over several lines. -/
def longTail (quote : Char) : Nat → List Char → Option (List Char × List Char)
  | 0, _ => none
  | _, [] => none
  | steps + 1, c :: cs =>
    if c = quote then
      match closing? quote (c :: cs) with
      | some closed => some closed
      | none => keep steps c cs
    else if c = '\\' ∧ quote = '"' then
      match continuation? cs with
      | some cs => longTail quote steps cs
      | none => do
        let (c, cs) ← escape? cs
        keep steps c cs
    else
      match newline? (c :: cs) with
      | some cs => keep steps '\n' cs
      | none => if isPlain c then keep steps c cs else none
where
  keep (steps : Nat) (c : Char) (cs : List Char) : Option (List Char × List Char) := do
    let (s, cs) ← longTail quote steps cs
    some (c :: s, cs)

/-- An end of line right after the opening quotes does not count. -/
def openLong (cs : List Char) : List Char := (newline? cs).getD cs

def readText : List Char → Option (String × List Char)
  | '"' :: '"' :: '"' :: cs => pack (longTail '"' (cs.length + 1) (openLong cs))
  | '\x27' :: '\x27' :: '\x27' :: cs => pack (longTail '\x27' (cs.length + 1) (openLong cs))
  | '"' :: cs => pack (basicTail (cs.length + 1) cs)
  | '\x27' :: cs => pack (literalTail cs)
  | _ => none
where
  pack (r : Option (List Char × List Char)) : Option (String × List Char) :=
    r.map fun (s, cs) => (String.ofList s, cs)

/-! ## Keys -/

/-- How many names a key may have, and how deep values may nest. -/
def depthLimit : Nat := 79

def isBare (c : Char) : Bool := c.isAlphanum || c = '_' || c = '-'

def readName (cs : List Char) : Option (String × List Char) :=
  match cs with
  | '"' :: rest => (basicTail (rest.length + 1) rest).map fun (s, rest) => (String.ofList s, rest)
  | '\x27' :: rest => (literalTail rest).map fun (s, rest) => (String.ofList s, rest)
  | _ =>
    let bare := cs.takeWhile isBare
    if bare.isEmpty then none else some (String.ofList bare, cs.dropWhile isBare)

/-- At most so many names with points between, blanks around the points; the last name stands apart. -/
def readNames : Nat → List Char → Option ((List String × String) × List Char)
  | 0, _ => none
  | names + 1, cs => do
    let (name, rest) ← readName cs
    match skipBlanks rest with
    | '.' :: rest => do
      let ((path, key), rest) ← readNames names (skipBlanks rest)
      some ((name :: path, key), rest)
    | rest => some (([], name), rest)

def readKey (cs : List Char) : Option ((List String × String) × List Char) := readNames depthLimit cs

/-! ## Numbers and times -/

/-- Digits of one kind, an underscore allowed between two of them. -/
def digitsFrom (isDigit : Char → Bool) : (afterDigit : Bool) → List Char → List Char × List Char
  | _, [] => ([], [])
  | afterDigit, c :: cs =>
    if isDigit c then
      let (ds, rest) := digitsFrom isDigit true cs
      (c :: ds, rest)
    else if afterDigit && c = '_' && cs.head?.any isDigit then digitsFrom isDigit false cs
    else ([], c :: cs)

def digitRun (isDigit : Char → Bool) (cs : List Char) : List Char × List Char :=
  digitsFrom isDigit false cs

def isOctal (c : Char) : Bool := '0' ≤ c && c ≤ '7'

def isBinary (c : Char) : Bool := c = '0' || c = '1'

def isHex (c : Char) : Bool := (Json.hexDigit? c).isSome

/-- Signed numbers of 64 bits. -/
def wholeValue (n : Int) : Option Value :=
  if Int64.minValue.toInt ≤ n ∧ n ≤ Int64.maxValue.toInt then some (.whole n) else none

def inBase (base : Nat) (isDigit : Char → Bool) (cs : List Char) : Option (Value × List Char) := do
  let (ds, rest) := digitRun isDigit cs
  if ds.isEmpty then none else
  let n := ds.foldl (fun n d => n * base + (Json.hexDigit? d).getD 0) 0
  let value ← wholeValue n
  some (value, rest)

/-- The fraction and the exponent of a float, which has one of them at least. -/
def floatTail? (cs : List Char) : Option (List Char × List Char × List Char) :=
  match cs with
  | '.' :: rest =>
    let (fraction, rest) := digitRun Char.isDigit rest
    if fraction.isEmpty then none
    else match exponent? rest with
      | some (e, rest) => some (fraction, e, rest)
      | none => some (fraction, [], rest)
  | _ => (exponent? cs).map fun (e, rest) => ([], e, rest)
where
  exponent? : List Char → Option (List Char × List Char)
    | 'e' :: cs | 'E' :: cs =>
      let (sign, cs) := match cs with
        | '+' :: cs => ([], cs)
        | '-' :: cs => (['-'], cs)
        | cs => ([], cs)
      let (ds, rest) := digitRun Char.isDigit cs
      if ds.isEmpty then none else some (sign ++ ds, rest)
    | _ => none

/-- Whether a float is too large for a double and has no minus sign. -/
def tooLarge (whole fraction exponent : List Char) : Bool :=
  let m := Json.natOfDigits (whole ++ fraction)
  let e : Int := match exponent with
    | '-' :: ds => -(Json.natOfDigits ds : Int)
    | ds => Json.natOfDigits ds
  if m = 0 then false
  else if 1000 < e then decide ((whole.length + fraction.length : Nat) < e - 400)
  else (Double.ofScientific false m (e - fraction.length)).isInfinite

def decimal (negative : Bool) (cs : List Char) : Option (Value × List Char) :=
  let (ds, rest) := digitRun Char.isDigit cs
  let (ds, rest) := match ds with
    | '0' :: _ :: _ => (['0'], cs.drop 1)
    | ds => (ds, rest)
  if ds.isEmpty then none else
  match floatTail? rest with
  | some (fraction, exponent, rest) =>
    if !negative && tooLarge ds fraction exponent then none else some (.other, rest)
  | none => do
    let n : Int := Json.natOfDigits ds
    let value ← wholeValue (if negative then -n else n)
    some (value, rest)

def word? (word : String) (cs : List Char) : Option (List Char) := Text.after? word.toList cs

def unsigned (negative : Bool) (cs : List Char) : Option (Value × List Char) :=
  match word? "inf" cs, word? "nan" cs with
  | some rest, _ | _, some rest => some (.other, rest)
  | none, none => decimal negative cs

/-- Two digits within bounds. -/
def twoDigits (low high : Nat) : List Char → Option (Nat × List Char)
  | a :: b :: cs =>
    if a.isDigit && b.isDigit then
      let n := Json.natOfDigits [a, b]
      if low ≤ n ∧ n ≤ high then some (n, cs) else none
    else none
  | _ => none

def char? (c : Char) : List Char → Option (List Char)
  | d :: cs => if c = d then some cs else none
  | [] => none

def daysIn (year month : Nat) : Nat :=
  if month = 2 then
    if year % 4 = 0 ∧ (year % 100 ≠ 0 ∨ year % 400 = 0) then 29 else 28
  else if [4, 6, 9, 11].contains month then 30 else 31

def date? (cs : List Char) : Option (List Char) := do
  let year := cs.take 4
  if year.length = 4 && year.all Char.isDigit then
    let rest ← char? '-' (cs.drop 4)
    let (month, rest) ← twoDigits 1 12 rest
    let rest ← char? '-' rest
    let (_, rest) ← twoDigits 1 (daysIn (Json.natOfDigits year) month) rest
    some rest
  else none

def time? (cs : List Char) : Option (List Char) := do
  let (_, rest) ← twoDigits 0 23 cs
  let rest ← char? ':' rest
  let (_, rest) ← twoDigits 0 59 rest
  let rest ← char? ':' rest
  let (_, rest) ← twoDigits 0 60 rest
  match rest with
  | '.' :: d :: more =>
    if d.isDigit then some (more.dropWhile Char.isDigit) else some rest
  | _ => some rest

def offset? : List Char → Option (List Char)
  | 'Z' :: cs | 'z' :: cs => some cs
  | '+' :: cs | '-' :: cs => do
    let (_, rest) ← twoDigits 0 23 cs
    let rest ← char? ':' rest
    let (_, rest) ← twoDigits 0 59 rest
    some rest
  | _ => none

/-- A date, a time, or a date with a time and maybe an offset. -/
def moment? (cs : List Char) : Option (List Char) :=
  match date? cs with
  | none => time? cs
  | some rest =>
    let timed := match rest with
      | 'T' :: more | 't' :: more | ' ' :: more => time? more
      | _ => none
    match timed with
    | none => some rest
    | some rest => some ((offset? rest).getD rest)

def readNumber (cs : List Char) : Option (Value × List Char) :=
  match moment? cs with
  | some rest => some (.other, rest)
  | none =>
    match cs with
    | '0' :: 'x' :: rest => inBase 16 isHex rest
    | '0' :: 'o' :: rest => inBase 8 isOctal rest
    | '0' :: 'b' :: rest => inBase 2 isBinary rest
    | '+' :: rest => unsigned false rest
    | '-' :: rest => unsigned true rest
    | _ => unsigned false cs

/-! ## Values -/

/-- Values between brackets, with blanks, comments and ends of lines around them. -/
def readItems (value : List Char → Option (Value × List Char)) :
    Nat → List Char → Option (List Value × List Char)
  | 0, _ => none
  | steps + 1, cs =>
    match skipSpace cs.length cs with
    | ']' :: rest => some ([], rest)
    | cs => do
      let (item, rest) ← value cs
      match skipSpace rest.length rest with
      | ',' :: rest => do
        let (items, rest) ← readItems value steps rest
        some (item :: items, rest)
      | ']' :: rest => some ([item], rest)
      | _ => none

/-- A key, an equals sign and a value. -/
def readPair (value : List Char → Option (Value × List Char)) (cs : List Char) :
    Option ((List String × String × Value) × List Char) := do
  let ((path, key), rest) ← readKey cs
  let rest ← char? '=' rest
  let (item, rest) ← value (skipBlanks rest)
  some ((path, key, item), skipBlanks rest)

/-- Pairs between braces, on one line. -/
def readPairs (value : List Char → Option (Value × List Char)) :
    Nat → List Char → Option (List (List String × String × Value) × List Char)
  | 0, _ => none
  | steps + 1, cs => do
    let (pair, rest) ← readPair value (skipBlanks cs)
    match rest with
    | ',' :: rest => do
      let (pairs, rest) ← readPairs value steps rest
      some (pair :: pairs, rest)
    | '}' :: rest => some ([pair], rest)
    | _ => none

/-- A value, in which lists and inline tables nest at most `depth` deep. -/
def readValue : (depth : Nat) → List Char → Option (Value × List Char)
  | depth, cs =>
    match cs with
    | '"' :: _ | '\x27' :: _ => (readText cs).map fun (s, rest) => (.text s, rest)
    | '[' :: rest =>
      match depth with
      | 0 => none
      | depth + 1 =>
        (readItems (readValue depth) (rest.length + 1) rest).map fun (items, rest) => (.list items, rest)
    | '{' :: rest =>
      match depth with
      | 0 => none
      | depth + 1 =>
        match skipBlanks rest with
        | '}' :: rest => some (.table .braces [], rest)
        | _ => do
          let (pairs, rest) ← readPairs (readValue depth) (rest.length + 1) rest
          let table ← inlineTable pairs
          some (table, rest)
    | _ =>
      match word? "true" cs, word? "false" cs with
      | some rest, _ | _, some rest => some (.other, rest)
      | none, none => readNumber cs

/-! ## Lines -/

def readHeader (cs : List Char) : Option ((List String × String) × List Char) := readKey (skipBlanks cs)

def readLine (cs : List Char) : Option (Line × List Char) :=
  match skipBlanks cs with
  | '[' :: '[' :: rest => do
    let ((path, key), rest) ← readHeader rest
    let rest ← char? ']' rest
    let rest ← char? ']' rest
    let rest ← lineEnd? rest
    some (.element path key, rest)
  | '[' :: rest => do
    let ((path, key), rest) ← readHeader rest
    let rest ← char? ']' rest
    let rest ← lineEnd? rest
    some (.header path key, rest)
  | cs =>
    match lineEnd? cs with
    | some rest => some (.blank, rest)
    | none => do
      let ((path, key, value), rest) ← readPair (readValue depthLimit) cs
      let rest ← lineEnd? rest
      some (.entry path key value, rest)

def readLines : Nat → List Char → Document → Option Document
  | _, [], d => some d
  | 0, _, _ => none
  | steps + 1, cs, d => do
    let (line, rest) ← readLine cs
    let d ← d.add line
    readLines steps rest d

/-- The root table of a text. A byte order mark may stand first. -/
def parse? (text : String) : Option Entries :=
  let cs := match text.toList with
    | '\ufeff' :: cs => cs
    | cs => cs
  (readLines (cs.length + 1) cs {}).map Document.root

end Shorthand.Toml
