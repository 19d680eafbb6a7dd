/-!
Double-precision numbers by their 64 bits: what a bit pattern stands for, and rounding a quotient of
naturals to the nearest double, a half going to the even neighbour.
-/
namespace Shorthand

/-- A binary64 number: a sign bit, eleven bits of exponent, fifty-two of fraction. -/
structure Double where
  bits : UInt64
  deriving DecidableEq, Inhabited

namespace Double

/-- The bit that negative numbers have. -/
def signBit : Nat := Nat.pow 2 63

/-- The leading bit of a normal significand, which is not written. -/
def leadingBit : Nat := Nat.pow 2 52

def isNegative (x : Double) : Bool := x.bits.toNat / signBit == 1

def exponentField (x : Double) : Nat := x.bits.toNat / leadingBit % 2048

def fraction (x : Double) : Nat := x.bits.toNat % leadingBit

def isNan (x : Double) : Bool := x.exponentField == 2047 && x.fraction != 0

def isInfinite (x : Double) : Bool := x.exponentField == 2047 && x.fraction == 0

def isFinite (x : Double) : Bool := x.exponentField != 2047

/-- A finite double is `significand * 2 ^ exponent`, up to its sign. -/
def significand (x : Double) : Nat :=
  if x.exponentField = 0 then x.fraction else leadingBit + x.fraction

def exponent (x : Double) : Int := max x.exponentField 1 - 1075

def ofMagnitude (negative : Bool) (magnitude : Nat) : Double :=
  ⟨UInt64.ofNat (magnitude + if negative then signBit else 0)⟩

def infinity (negative : Bool) : Double := ofMagnitude negative (2047 * leadingBit)

def nan : Double := ⟨0x7ff8000000000000⟩

def neg (x : Double) : Double := ofMagnitude (!x.isNegative) (x.bits.toNat % signBit)

/-- The nearest natural to a quotient; a half goes to the even one. -/
def roundQuotient (num den : Nat) : Nat :=
  let q := num / den
  let r := num % den
  if 2 * r < den then q else if den < 2 * r then q + 1 else q + q % 2

/-- The factors that bring `2 ^ e` into a quotient. -/
def powTwo (e : Int) : Nat × Nat := (Nat.pow 2 e.toNat, Nat.pow 2 (-e).toNat)

/-- The double nearest to `num / den`. The grid is the finest whose rounded count stays below
`2 ^ 53`; a count of exactly `2 ^ 53` carries into the exponent field by itself. -/
def ofQuotient (negative : Bool) (num den : Nat) : Double :=
  if num = 0 then ofMagnitude negative 0 else
    let lead : Int := num.log2 - den.log2
    let grid (q : Int) : Nat × Nat :=
      let (up, down) := powTwo q
      (num * down, den * up)
    let q := max (lead - 53) (-1074)
    let q := if (grid q).1 < (grid q).2 * (2 * leadingBit) then q else q + 1
    let count := roundQuotient (grid q).1 (grid q).2
    if q > 971 then infinity negative else
      ofMagnitude negative (min ((q + 1074).toNat * leadingBit + count) (2047 * leadingBit))

def ofNat (n : Nat) : Double := ofQuotient false n 1

/-- The double nearest to `m * 10 ^ e`. -/
def ofScientific (negative : Bool) (m : Nat) (e : Int) : Double :=
  if m = 0 then ofMagnitude negative 0
  else if e > 400 then infinity negative
  else if e + Nat.log2 m < -1500 then ofMagnitude negative 0
  else ofQuotient negative (m * Nat.pow 10 e.toNat) (Nat.pow 10 (-e).toNat)

/-- Product and quotient of finite doubles, rounded once. A quotient by zero is taken as zero. -/
def mul (x y : Double) : Double :=
  let (up, down) := powTwo (x.exponent + y.exponent)
  ofQuotient (x.isNegative != y.isNegative) (x.significand * y.significand * up) down

def div (x y : Double) : Double :=
  let (up, down) := powTwo (x.exponent - y.exponent)
  ofQuotient (x.isNegative != y.isNegative) (x.significand * up) (y.significand * down)

/-- Equality as numbers: the two zeros are one, and so are all that are no number. -/
def same (x y : Double) : Bool :=
  if x.isNan then y.isNan
  else x.bits == y.bits || (x.bits.toNat % signBit == 0 && y.bits.toNat % signBit == 0)

end Double
end Shorthand
