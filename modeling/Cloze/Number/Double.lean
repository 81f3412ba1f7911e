import Cloze.Number.Decimal

/-!
# Numbers of double precision

Numbers with a mantissa of 53 bits. A decimal fraction is read as the nearest of them, and of two
equally near as the one with the even mantissa. A number is written with the fewest digits that
are read back as the same number, and never with an exponent.
-/

namespace Cloze.Number

inductive Double where
  /-- The number `± mantissa * 2 ^ exponent`. -/
  | finite (negative : Bool) (mantissa : Nat) (exponent : Int)
  | infinite (negative : Bool)
  | nan
deriving DecidableEq

namespace Double

/-- The natural number nearest to `a / b`; of two the even one. -/
def roundDiv (a b : Nat) : Nat :=
  let q := a / b
  let r := a % b
  if 2 * r < b then q
  else if 2 * r > b then q + 1
  else if q % 2 = 0 then q else q + 1

/-- `num / den * base ^ power` as a quotient. -/
def scale (num den base : Nat) (power : Int) : Nat × Nat :=
  if power ≥ 0 then (num * base.pow power.toNat, den) else (num, den * base.pow (-power).toNat)

/-- The value of the first of the 53 bits of a mantissa. -/
def hidden : Nat := Nat.pow 2 52

/-- The exponent that gives `a / b` a mantissa of 53 bits, or the least one there is. -/
def exponentFor (a b : Nat) : Int :=
  let e : Int := (Nat.log2 a : Int) - Nat.log2 b - 52
  let (num, den) := scale a b 2 (-e)
  max (-1074) (if num < den * hidden then e - 1 else e)

/-- The number nearest to the quotient `a / b` of positive numbers. -/
def ofQuotient (negative : Bool) (a b : Nat) : Double :=
  let e := exponentFor a b
  let (num, den) := scale a b 2 (-e)
  let m := roundDiv num den
  let (m, e) := if m = 2 * hidden then (hidden, e + 1) else (m, e)
  if e > 971 then .infinite negative else .finite negative m e

/-- The number nearest to a decimal fraction. -/
def ofDecimal (x : Decimal) : Double :=
  let length : Int := (Nat.toDigits 10 x.digits).length
  if x.digits = 0 || length + x.power < -400 then .finite x.negative 0 (-1074)
  else if length + x.power > 400 then .infinite x.negative
  else
    let (num, den) := scale x.digits 1 10 x.power
    ofQuotient x.negative num den

/-- The number of digits of `a / b` before the point, or minus the zeros behind it. -/
def magnitude (a b : Nat) : Int :=
  let k : Int := (Nat.toDigits 10 a).length - (Nat.toDigits 10 b).length
  let (num, den) := scale a b 10 (-k)
  if num ≥ den then k + 1 else k

/-- Of the two decimal fractions around `a / b` with `places` digits, the nearer one that is read
back as `x`. -/
def fit? (x : Double) (a b places : Nat) : Option (Nat × Int) :=
  let power : Int := magnitude a b - places
  let (num, den) := scale a b 10 (-power)
  let low := num / den
  let nearFirst := if 2 * (num % den) ≤ den then [low, low + 1] else [low + 1, low]
  (nearFirst.find? fun digits => ofDecimal ⟨false, digits, power⟩ == x).map (·, power)

/-- The fewest digits that are read back as `mantissa * 2 ^ exponent`, and their power of ten. -/
def shortest (mantissa : Nat) (exponent : Int) : Nat × Int :=
  let (a, b) := scale mantissa 1 2 exponent
  let x := Double.finite false mantissa exponent
  ((List.range' 1 17).findSome? (fit? x a b)).getD (mantissa, 0)

/-- Digits with a power of ten, written without one. -/
def positional (digits : Nat) (power : Int) : String :=
  let text := Nat.toDigits 10 digits
  if power ≥ 0 then
    String.ofList (text ++ List.replicate power.toNat '0')
  else
    let places := (-power).toNat
    let padded := List.replicate (places + 1 - text.length) '0' ++ text
    let whole := padded.take (padded.length - places)
    let fraction := (padded.drop (padded.length - places)).reverse.dropWhile (· == '0')
    String.ofList (whole ++ (if fraction.isEmpty then [] else '.' :: fraction.reverse))

def text : Double → String
  | nan => "NaN"
  | infinite negative => if negative then "-inf" else "inf"
  | finite negative mantissa exponent =>
    let sign := if negative then "-" else ""
    if mantissa = 0 then
      sign ++ "0"
    else
      let (digits, power) := shortest mantissa exponent
      sign ++ positional digits power

def isZero : Double → Bool
  | finite _ mantissa _ => mantissa == 0
  | infinite _ | nan => false

def maxWord : Nat := Nat.pow 2 64 - 1

/-- The nearest natural number of 64 bits; a half goes up, and what is out of range goes to the
nearer end of it. -/
def toWord : Double → Nat
  | nan => 0
  | infinite negative => if negative then 0 else maxWord
  | finite true _ _ => 0
  | finite false mantissa exponent =>
    let (num, den) := scale mantissa 1 2 exponent
    min maxWord ((2 * num + den) / (2 * den))

end Double

end Cloze.Number
