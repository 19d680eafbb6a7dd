import Shorthand.Json.Parser
import Shorthand.Json.Printer

/-!
What plain scalars stand for: null, booleans, numbers, and texts for all the rest. `Plain.of` serves the
reading of a scalar and the decision whether a text may be written without quotes.
-/
namespace Shorthand.Yaml

/-- The meaning of a plain scalar. Whole numbers of more than 64 bits and up to 128 are recognised and have
no value. -/
inductive Plain
  | null
  | bool (value : Bool)
  | number (value : Number)
  | wide
  | text
  deriving DecidableEq

namespace Plain

def isNull (s : String) : Bool := ["null", "Null", "NULL", "~"].contains s

def bool? (s : String) : Option Bool :=
  if ["true", "True", "TRUE"].contains s then some true
  else if ["false", "False", "FALSE"].contains s then some false
  else none

/-! ## Numbers -/

/-- Whether a number is negative, and what follows its one sign. -/
def splitSign : List Char → Bool × List Char
  | '-' :: cs => (true, cs)
  | '+' :: cs => (false, cs)
  | cs => (false, cs)

/-- Digits only, of which the first of several is a zero: such a text is no number. -/
def isPadded (cs : List Char) : Bool :=
  let ds := (splitSign cs).2
  1 < ds.length && ds.head? == some '0' && ds.all Char.isDigit

def digit? (base : Nat) (c : Char) : Option Nat := (Json.hexDigit? c).filter (· < base)

def natural? (base : Nat) (cs : List Char) : Option Nat :=
  if cs.isEmpty then none else (cs.mapM (digit? base)).map fun ds => ds.foldl (fun n d => n * base + d) 0

/-- The magnitude of a whole number, in the base that its first two characters tell. -/
def magnitude? : List Char → Option Nat
  | '0' :: 'x' :: cs => natural? 16 cs
  | '0' :: 'o' :: cs => natural? 8 cs
  | '0' :: 'b' :: cs => natural? 2 cs
  | cs => natural? 10 cs

def whole? (cs : List Char) : Option Plain := do
  if isPadded cs then none
  let (negative, cs) := splitSign cs
  let n ← magnitude? cs
  if negative then
    if n ≤ UInt64.size / 2 then some (.number (.whole (-n)))
    else if n ≤ UInt64.size * UInt64.size / 2 then some .wide
    else none
  else if n < UInt64.size then some (.number (.whole n))
  else if n < UInt64.size * UInt64.size then some .wide
  else none

/-- Digits, a point among them or not, and an exponent or none. -/
def decimal? (negative : Bool) (cs : List Char) : Option Double := do
  let whole := cs.takeWhile Char.isDigit
  let (fraction, rest) := match cs.dropWhile Char.isDigit with
    | '.' :: more => (more.takeWhile Char.isDigit, more.dropWhile Char.isDigit)
    | rest => ([], rest)
  if whole.isEmpty && fraction.isEmpty then none
  let e ← match rest with
    | [] => some (0 : Int)
    | c :: more =>
      if c = 'e' || c = 'E' then do
        let (down, ds) := splitSign more
        let n ← natural? 10 ds
        some (if down then -(n : Int) else n)
      else none
  let x := Double.ofScientific negative (Json.natOfDigits (whole ++ fraction)) (e - fraction.length)
  if x.isFinite then some x else none

/-- A double. One beyond the range is none, and not infinite. -/
def double? (cs : List Char) : Option Double :=
  let (negative, body) := splitSign cs
  let word := String.ofList body
  if [".inf", ".Inf", ".INF"].contains word then some (Double.infinity negative)
  else if [".nan", ".NaN", ".NAN"].contains (String.ofList cs) then some Double.nan
  else decimal? negative body

def of (cs : List Char) : Plain :=
  let s := String.ofList cs
  if cs.isEmpty || isNull s then .null
  else match bool? s with
    | some b => .bool b
    | none => match whole? cs with
      | some meaning => meaning
      | none => if isPadded cs then .text else ((double? cs).map (.number ∘ .double)).getD .text

end Plain

/-- Positional from five decimal places to sixteen digits; an exponent has no plus. -/
def decimals : Double.DecimalStyle := ⟨-5, 15, false⟩

def numberChars : Number → List Char
  | .whole n => wholeChars n
  | .double x =>
    if x.isNan then ['.', 'n', 'a', 'n']
    else if x.isInfinite then (if x.isNegative then ['-'] else []) ++ ['.', 'i', 'n', 'f']
    else decimals.chars x

end Shorthand.Yaml
