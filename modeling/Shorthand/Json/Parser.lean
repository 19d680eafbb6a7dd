import Shorthand.Node

/-!
Reading JSON texts, order of keys kept. Each function takes the characters that remain and gives what
it read with the rest; nothing is refused silently and nothing after the value is left over.
-/
namespace Shorthand.Json

def isBlank (c : Char) : Bool := c = ' ' || c = '\n' || c = '\r' || c = '\t'

def skipBlanks (cs : List Char) : List Char := cs.dropWhile isBlank

def hexDigit? (c : Char) : Option Nat :=
  if c.isDigit then some (c.toNat - 48)
  else if 'a' ≤ c ∧ c ≤ 'f' then some (c.toNat - 87)
  else if 'A' ≤ c ∧ c ≤ 'F' then some (c.toNat - 55)
  else none

/-- The number of four hexadecimal digits. -/
def hexUnit? (a b c d : Char) : Option Nat := do
  let a ← hexDigit? a
  let b ← hexDigit? b
  let c ← hexDigit? c
  let d ← hexDigit? d
  some (((a * 16 + b) * 16 + c) * 16 + d)

/-- The first halves of characters that two escapes give together. -/
def isHighHalf (unit : Nat) : Bool := 0xD800 ≤ unit && unit ≤ 0xDBFF

def isLowHalf (unit : Nat) : Bool := 0xDC00 ≤ unit && unit ≤ 0xDFFF

/-- The character of an escape, after the first half of it if there is one. -/
def unitChar? : (high : Option Nat) → Nat → Option Char
  | none, unit => if isLowHalf unit then none else some (Char.ofNat unit)
  | some high, unit =>
    if isLowHalf unit then some (Char.ofNat (0x10000 + (high - 0xD800) * 0x400 + (unit - 0xDC00))) else none

def shortEscape? : Char → Option Char
  | '"' => some '"'
  | '\\' => some '\\'
  | '/' => some '/'
  | 'b' => some '\x08'
  | 'f' => some '\x0c'
  | 'n' => some '\n'
  | 'r' => some '\r'
  | 't' => some '\t'
  | _ => none

/-- The rest of a quoted text, after its opening quote. After the first half of a character nothing but its
second half may follow. -/
def quotedTail : (high : Option Nat) → List Char → Option (List Char × List Char)
  | high, '\\' :: 'u' :: a :: b :: c :: d :: rest => do
    let unit ← hexUnit? a b c d
    if high.isNone && isHighHalf unit then quotedTail (some unit) rest
    else do
      let char ← unitChar? high unit
      let (cs, rest) ← quotedTail none rest
      some (char :: cs, rest)
  | none, '"' :: rest => some ([], rest)
  | none, '\\' :: e :: rest => do
    let char ← shortEscape? e
    let (cs, rest) ← quotedTail none rest
    some (char :: cs, rest)
  | none, char :: rest =>
    if char.toNat < 0x20 || char = '\\' then none else do
      let (cs, rest) ← quotedTail none rest
      some (char :: cs, rest)
  | _, _ => none

def readQuoted (cs : List Char) : Option (String × List Char) := do
  let (s, rest) ← quotedTail none cs
  some (String.ofList s, rest)

/-- What a number token holds: the whole part, the fraction's digits, the exponent, each where given. -/
structure NumberToken where
  negative : Bool
  whole : List Char
  fraction : Option (List Char)
  exponent : Option (Bool × List Char)

/-- A whole part has no leading zero; a point and an exponent are followed by digits. -/
def numberToken (cs : List Char) : Option (NumberToken × List Char) := do
  let (negative, cs) := match cs with
    | '-' :: rest => (true, rest)
    | _ => (false, cs)
  let whole := cs.takeWhile Char.isDigit
  let rest := cs.dropWhile Char.isDigit
  if whole.isEmpty || (whole.length > 1 && whole.head? == some '0') then none else
  let (fraction, rest) := match rest with
    | '.' :: more => (some (more.takeWhile Char.isDigit), more.dropWhile Char.isDigit)
    | _ => (none, rest)
  if fraction == some [] then none else
  let (exponent, rest) := match rest with
    | 'e' :: '+' :: more | 'E' :: '+' :: more =>
      (some (false, more.takeWhile Char.isDigit), more.dropWhile Char.isDigit)
    | 'e' :: '-' :: more | 'E' :: '-' :: more =>
      (some (true, more.takeWhile Char.isDigit), more.dropWhile Char.isDigit)
    | 'e' :: more | 'E' :: more =>
      (some (false, more.takeWhile Char.isDigit), more.dropWhile Char.isDigit)
    | _ => (none, rest)
  match exponent with
  | some (_, []) => none
  | _ => some (⟨negative, whole, fraction, exponent⟩, rest)

def natOfDigits (ds : List Char) : Nat := ds.foldl (fun n d => n * 10 + (d.toNat - 48)) 0

/-- Takes digits while the number they form fits in 64 bits: that number, and how many were left. -/
def boundedDigits : Nat → List Char → Nat × Nat
  | n, [] => (n, 0)
  | n, d :: ds =>
    let next := n * 10 + (d.toNat - 48)
    if next < UInt64.size then boundedDigits next ds else (n, ds.length + 1)

/-- One product or quotient of doubles by a power of ten. Below the least power the number is first
brought down by `10 ^ 308`; above the greatest it is out of range. -/
def scaled : Nat → Double → Int → Option Double
  | 0, x, _ => some x
  | steps + 1, x, e =>
    if e.natAbs ≤ 308 then
      if 0 ≤ e then
        let y := x.mul (Double.ofNat (Nat.pow 10 e.natAbs))
        if y.isInfinite then none else some y
      else some (x.div (Double.ofNat (Nat.pow 10 e.natAbs)))
    else if x.significand = 0 then some x
    else if 0 ≤ e then none
    else scaled steps (x.div (Double.ofNat (Nat.pow 10 308))) (e + 308)

/-- As many leading digits as 64 bits hold, scaled by the decimal exponent. -/
def NumberToken.double (t : NumberToken) : Option Double :=
  let fraction := t.fraction.getD []
  let (m, left) := boundedDigits 0 t.whole
  let (m, dropped) := boundedDigits m fraction
  let e : Int := match t.exponent with
    | none => 0
    | some (negative, ds) => if negative then -(natOfDigits ds : Int) else natOfDigits ds
  let e := e + left - (fraction.length - dropped : Nat)
  let x := Double.ofNat m
  let y := if m = 0 then some x else if e > 308 then none else scaled 8 x (max e (-2000))
  y.map fun y => if t.negative then y.neg else y

/-- A token without fraction and exponent is whole if 64 bits hold it, but for a negative zero; any
other is a double. -/
def NumberToken.value (t : NumberToken) : Option Number :=
  let n := natOfDigits t.whole
  if t.fraction.isSome || t.exponent.isSome then t.double.map .double
  else if t.negative then
    if 0 < n && n ≤ UInt64.size / 2 then some (.whole (-n)) else t.double.map .double
  else if n < UInt64.size then some (.whole n)
  else t.double.map .double

def readNumber (cs : List Char) : Option (Number × List Char) := do
  let (token, rest) ← numberToken cs
  let n ← token.value
  some (n, rest)

/-- Items after an opening bracket, read by `value`, up to the closing one. -/
def readItems (value : List Char → Option (Node × List Char)) :
    Nat → List Char → Option (List Node × List Char)
  | 0, _ => none
  | steps + 1, cs => do
    let (item, rest) ← value cs
    match skipBlanks rest with
    | ',' :: rest => do
      let (items, rest) ← readItems value steps rest
      some (item :: items, rest)
    | ']' :: rest => some ([item], rest)
    | _ => none

/-- Entries after an opening brace, in the order of the text, repeated keys included. -/
def readEntries (value : List Char → Option (Node × List Char)) :
    Nat → List Char → Option (List (String × Node) × List Char)
  | 0, _ => none
  | steps + 1, cs =>
    match skipBlanks cs with
    | '"' :: rest => do
      let (key, rest) ← readQuoted rest
      match skipBlanks rest with
      | ':' :: rest => do
        let (item, rest) ← value rest
        match skipBlanks rest with
        | ',' :: rest => do
          let (entries, rest) ← readEntries value steps rest
          some ((key, item) :: entries, rest)
        | '}' :: rest => some ([(key, item)], rest)
        | _ => none
      | _ => none
    | _ => none

/-- One value, in which lists and mappings are nested at most `depth` deep. Of two entries under one key
the later wins, at the place of the earlier. -/
def readValue : (depth : Nat) → List Char → Option (Node × List Char)
  | depth, cs =>
    match skipBlanks cs with
    | 'n' :: 'u' :: 'l' :: 'l' :: rest => some (.null, rest)
    | 't' :: 'r' :: 'u' :: 'e' :: rest => some (.bool true, rest)
    | 'f' :: 'a' :: 'l' :: 's' :: 'e' :: rest => some (.bool false, rest)
    | '"' :: rest => (readQuoted rest).map fun (s, rest) => (.text s, rest)
    | '[' :: rest =>
      match depth with
      | 0 => none
      | depth + 1 =>
        match skipBlanks rest with
        | ']' :: rest => some (.list [], rest)
        | _ => (readItems (readValue depth) (rest.length + 1) rest).map
            fun (items, rest) => (.list items, rest)
    | '{' :: rest =>
      match depth with
      | 0 => none
      | depth + 1 =>
        match skipBlanks rest with
        | '}' :: rest => some (.map [], rest)
        | _ => (readEntries (readValue depth) (rest.length + 1) rest).map
            fun (entries, rest) => (.map (Table.ofList entries), rest)
    | cs => (readNumber cs).map fun (n, rest) => (.number n, rest)

/-- How deep a text may nest. -/
def depthLimit : Nat := 127

/-- The node of a whole text. -/
def parseWithin? (depth : Nat) (s : String) : Option Node :=
  match readValue depth s.toList with
  | some (node, rest) => if (skipBlanks rest).isEmpty then some node else none
  | none => none

def parse? (s : String) : Option Node := parseWithin? depthLimit s

end Shorthand.Json
