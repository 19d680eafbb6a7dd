import Shorthand.Double

/-!
Decimal texts of doubles: the fewest digits that read back the same, and how they are laid out.
-/
namespace Shorthand.Double

/-- A positive double in quarters of its grid, with the bounds of the numbers that round to it, all
over one denominator. The bounds themselves round to it when the significand is even. -/
structure Basin where
  low : Nat
  value : Nat
  high : Nat
  unit : Nat
  closed : Bool

def basin (x : Double) : Basin :=
  let m := x.significand
  let (up, down) := powTwo (x.exponent - 2)
  let below := if m = leadingBit ∧ x.exponent > -1074 then 1 else 2
  { low := (4 * m - below) * up
    value := 4 * m * up
    high := (4 * m + 2) * up
    unit := down
    closed := m % 2 == 0 }

/-- A decimal `digits * 10 ^ scale`. -/
structure Decimal where
  digits : Nat
  scale : Int

namespace Basin

/-- The better of the value's two neighbours on the grid of step `10 ^ scale`, if one of them lies
inside; of two at the same distance the even one. -/
def pick? (b : Basin) (scale : Int) : Option Nat :=
  let fine := Nat.pow 10 (-scale).toNat
  let step := b.unit * Nat.pow 10 scale.toNat
  let value := b.value * fine
  let c := value / step
  let inside (p : Nat) : Bool :=
    if b.closed then b.low * fine ≤ p * step && p * step ≤ b.high * fine
    else b.low * fine < p * step && p * step < b.high * fine
  let down := value - c * step
  let up := (c + 1) * step - value
  match inside c && c != 0, inside (c + 1) with
  | true, true => some (if down < up || (down == up && c % 2 == 0) then c else c + 1)
  | true, false => some c
  | false, true => some (c + 1)
  | false, false => none

/-- One more than the exponent of the value's leading digit, or two more. -/
def above (b : Basin) : Int :=
  ((b.value.log2 : Int) - b.unit.log2 + 1) * 30103 / 100000 + 2

/-- The coarsest decimal grid with a point inside, from `scale` down. -/
def coarsest (b : Basin) : Nat → Int → Decimal
  | 0, scale => ⟨b.value * Nat.pow 10 (-scale).toNat / (b.unit * Nat.pow 10 scale.toNat), scale⟩
  | steps + 1, scale =>
    match b.pick? scale with
    | some digits => ⟨digits, scale⟩
    | none => coarsest b steps (scale - 1)

end Basin

/-- The shortest decimal that reads back as a positive double, and the nearest of those. -/
def shortest (x : Double) : Decimal := x.basin.coarsest 24 x.basin.above

/-- How digits are laid out: positional while the exponent of the leading digit is from `least` to
`most`, else scientific with the exponent's plus sign written or not. -/
structure DecimalStyle where
  least : Int
  most : Int
  plus : Bool

def dropTrailingZeros (ds : List Char) : List Char :=
  (ds.reverse.dropWhile (· == '0')).reverse

/-- Digits with the exponent of the first of them. A whole number keeps one zero after its point. -/
def DecimalStyle.layOut (style : DecimalStyle) (ds : List Char) (e : Int) : List Char :=
  if style.least ≤ e ∧ e ≤ style.most then
    if e < 0 then
      '0' :: '.' :: (List.replicate (-e - 1).toNat '0' ++ ds)
    else
      let whole := e.toNat + 1
      let after := ds.drop whole
      ds.take whole ++ List.replicate (whole - ds.length) '0' ++ '.' ::
        (if after.isEmpty then ['0'] else after)
  else
    let mantissa := match ds with
      | d :: d' :: rest => d :: '.' :: d' :: rest
      | short => short
    let sign := if e < 0 then ['-'] else if style.plus then ['+'] else []
    mantissa ++ 'e' :: (sign ++ Nat.toDigits 10 e.natAbs)

/-- The text of a finite double. -/
def DecimalStyle.chars (style : DecimalStyle) (x : Double) : List Char :=
  let sign := if x.isNegative then ['-'] else []
  if x.significand = 0 then sign ++ ['0', '.', '0'] else
    let d := x.shortest
    let ds := Nat.toDigits 10 d.digits
    sign ++ style.layOut (dropTrailingZeros ds) (d.scale + ds.length - 1)

end Shorthand.Double
