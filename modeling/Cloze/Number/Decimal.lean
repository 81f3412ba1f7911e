/-!
# Decimal fractions

A decimal fraction is a sign, a natural number and a power of ten. Here are also the digits from
which numbers are read.
-/

namespace Cloze.Number

/-- The number `± digits * 10 ^ power`. -/
structure Decimal where
  negative : Bool
  digits : Nat
  power : Int
deriving DecidableEq

def isDigit (c : Char) : Bool :=
  '0' ≤ c && c ≤ '9'

/-- The value of a digit, up to base sixteen. -/
def digitValue? (c : Char) : Option Nat :=
  if isDigit c then some (c.toNat - '0'.toNat)
  else if 'a' ≤ c && c ≤ 'f' then some (c.toNat - 'a'.toNat + 10)
  else if 'A' ≤ c && c ≤ 'F' then some (c.toNat - 'A'.toNat + 10)
  else none

/-- Reads on after digits worth `n`; all that is left has to be digits of the base. -/
def naturalFrom? (base : Nat) : (n : Nat) → List Char → Option Nat
  | n, [] => some n
  | n, c :: cs =>
    match digitValue? c with
    | none => none
    | some v => if v < base then naturalFrom? base (n * base + v) cs else none

/-- One or more digits of a base, read as a number. -/
def natural? (base : Nat) (cs : List Char) : Option Nat :=
  if cs.isEmpty then none else naturalFrom? base 0 cs

/-- The sign at the start of a text, and the rest. -/
def splitSign : List Char → Option Char × List Char
  | '+' :: cs => (some '+', cs)
  | '-' :: cs => (some '-', cs)
  | cs => (none, cs)

/-- The power of ten that a text gives behind its `e`; nothing is the power 0. -/
def exponent? : List Char → Option Int
  | [] => some 0
  | c :: cs =>
    if c = 'e' || c = 'E' then
      let (sign, digits) := splitSign cs
      (natural? 10 digits).map fun n => if sign = some '-' then -(n : Int) else n
    else
      none

/-- A decimal fraction with an optional sign and exponent. One side of the point may be empty, and
the point may be left out. -/
def Decimal.read? (cs : List Char) : Option Decimal := do
  let (sign, unsigned) := splitSign cs
  let whole := unsigned.takeWhile isDigit
  let behind := unsigned.dropWhile isDigit
  let (places, rest) := match behind with
    | '.' :: more => (more.takeWhile isDigit, more.dropWhile isDigit)
    | _ => ([], behind)
  let digits ← natural? 10 (whole ++ places)
  let power ← exponent? rest
  pure ⟨sign = some '-', digits, power - places.length⟩

end Cloze.Number
