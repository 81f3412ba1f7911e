import Cloze.Toml.Value

/-!
# Numbers, dates and truth values of TOML

A scalar without quotes is one run of letters, digits and signs, except that a date may have a
space before its time. Underscores may part the digits of a number.
-/

namespace Cloze.Toml

open Number

/-! ### Numbers -/

/-- One or more digits without the underscores among them. An underscore has a digit on both
sides. -/
def plainDigits? (isDigit : Char → Bool) : List Char → Option (List Char)
  | [] => none
  | [c] => if isDigit c then some [c] else none
  | c :: '_' :: cs =>
    if isDigit c then (plainDigits? isDigit cs).map (c :: ·) else none
  | c :: cs => if isDigit c then (plainDigits? isDigit cs).map (c :: ·) else none

/-- A whole number of 64 bits. -/
def word? (n : Int) : Option Value :=
  if -0x8000000000000000 ≤ n ∧ n < 0x8000000000000000 then some (.integer n) else none

/-- Decimal digits that start with no zero, unless it is the only digit. -/
def wholeDigits? (cs : List Char) : Option (List Char) := do
  match ← plainDigits? isDigit cs with
  | '0' :: _ :: _ => none
  | digits => some digits

def inBase (base : Nat) (c : Char) : Bool :=
  (digitValue? c).any (· < base)

def based? (base : Nat) (cs : List Char) : Option Value := do
  let n ← natural? base (← plainDigits? (inBase base) cs)
  word? n

def integer? (cs : List Char) : Option Value :=
  match cs with
  | '0' :: 'x' :: digits => based? 16 digits
  | '0' :: 'o' :: digits => based? 8 digits
  | '0' :: 'b' :: digits => based? 2 digits
  | _ => do
    let (sign, digits) := splitSign cs
    let n ← natural? 10 (← wholeDigits? digits)
    word? (if sign = some '-' then -(n : Int) else n)

/-- The digits behind the point, if there is one, without underscores. -/
def places? : List Char → Option (List Char)
  | [] => some []
  | '.' :: cs => plainDigits? isDigit cs
  | _ => none

/-- The exponent, if there is one, without underscores. -/
def power? : List Char → Option Int
  | [] => some 0
  | _ :: cs => do
    let (sign, digits) := splitSign cs
    let n ← natural? 10 (← plainDigits? isDigit digits)
    pure (if sign = some '-' then -(n : Int) else n)

/-- A fraction or a number with an exponent; one that is too large is none. -/
def fraction? (cs : List Char) : Option Value := do
  let (sign, unsigned) := splitSign cs
  let isMark (c : Char) : Bool := c == 'e' || c == 'E'
  let base := unsigned.takeWhile (!isMark ·)
  let whole ← wholeDigits? (base.takeWhile (· != '.'))
  let places ← places? (base.dropWhile (· != '.'))
  let power ← power? (unsigned.dropWhile (!isMark ·))
  let digits ← natural? 10 (whole ++ places)
  match Double.ofDecimal ⟨sign = some '-', digits, power - places.length⟩ with
  | .infinite false => none
  | x => some (.float x)

def special? (cs : List Char) : Option Value :=
  let (sign, name) := splitSign cs
  if name = ['i', 'n', 'f'] then some (.float (.infinite (sign = some '-')))
  else if name = ['n', 'a', 'n'] then some (.float .nan)
  else none

/-! ### Dates and times -/

/-- A number of exactly so many digits, within bounds, and the rest. -/
def field? (width low high : Nat) (cs : List Char) : Option (List Char × List Char) := do
  if cs.length < width then none
  let digits := cs.take width
  if !digits.all isDigit then none
  let n ← natural? 10 digits
  if low ≤ n ∧ n ≤ high then some (digits, cs.drop width) else none

def daysIn (year month : Nat) : Nat :=
  if month = 2 then
    if year % 4 = 0 ∧ (year % 100 ≠ 0 ∨ year % 400 = 0) then 29 else 28
  else if month = 4 ∨ month = 6 ∨ month = 9 ∨ month = 11 then 30
  else 31

/-- `YYYY-MM-DD`, and the rest. -/
def day? (cs : List Char) : Option (List Char × List Char) := do
  let (year, cs) ← field? 4 0 9999 cs
  let '-' :: cs := cs | none
  let (month, cs) ← field? 2 1 12 cs
  let '-' :: cs := cs | none
  let y ← natural? 10 year
  let m ← natural? 10 month
  let (day, cs) ← field? 2 1 (daysIn y m) cs
  pure (year ++ ['-'] ++ month ++ ['-'] ++ day, cs)

/-- The part of a second behind the point, to nine places and without zeros at the end. -/
def secondPart? : List Char → Option (List Char × List Char)
  | '.' :: cs =>
    let digits := cs.takeWhile isDigit
    if digits.isEmpty then
      none
    else
      let kept := (((digits.take 9).reverse).dropWhile (· == '0')).reverse
      some (if kept.isEmpty then [] else '.' :: kept, cs.dropWhile isDigit)
  | cs => some ([], cs)

/-- `HH:MM:SS` with a fraction, and the rest. -/
def clock? (cs : List Char) : Option (List Char × List Char) := do
  let (hour, cs) ← field? 2 0 23 cs
  let ':' :: cs := cs | none
  let (minute, cs) ← field? 2 0 59 cs
  let ':' :: cs := cs | none
  let (second, cs) ← field? 2 0 60 cs
  let (part, cs) ← secondPart? cs
  pure (hour ++ [':'] ++ minute ++ [':'] ++ second ++ part, cs)

/-- The distance to universal time, which ends the text. -/
def offset? : List Char → Option (List Char)
  | [] => some []
  | ['Z'] | ['z'] => some ['Z']
  | c :: cs => do
    if c != '+' && c != '-' then none
    let (hour, cs) ← field? 2 0 23 cs
    let ':' :: cs := cs | none
    let (minute, cs) ← field? 2 0 59 cs
    if cs.isEmpty then some (c :: (hour ++ [':'] ++ minute)) else none

/-- A date, a time or both. -/
def date? (cs : List Char) : Option Value :=
  match day? cs with
  | some (day, []) => some (.date (String.ofList day))
  | some (day, c :: rest) => do
    if c != 'T' && c != 't' && c != ' ' then none
    let (clock, rest) ← clock? rest
    let offset ← offset? rest
    pure (.date (String.ofList (day ++ ['T'] ++ clock ++ offset)))
  | none => do
    let (clock, rest) ← clock? cs
    if rest.isEmpty then some (.date (String.ofList clock)) else none

/-! ### Scalars -/

def isScalarChar (c : Char) : Bool :=
  ('a' ≤ c && c ≤ 'z') || ('A' ≤ c && c ≤ 'Z') || isDigit c
    || c == '+' || c == '-' || c == '_' || c == '.' || c == ':'

/-- Whether a space and a time come next. -/
def timeFollows : List Char → Bool
  | ' ' :: a :: b :: ':' :: _ => isDigit a && isDigit b
  | _ => false

/-- The run of characters that make up a scalar. -/
def scalarText : Reader (List Char) := do
  let first ← Reader.takeWhile isScalarChar
  let rest ← get
  if (day? first).any (·.2.isEmpty) && timeFollows rest then
    set (rest.drop 1)
    let time ← Reader.takeWhile isScalarChar
    pure (first ++ ' ' :: time)
  else
    pure first

def boolean? (cs : List Char) : Option Value :=
  if cs = "true".toList then some (.boolean true)
  else if cs = "false".toList then some (.boolean false)
  else none

/-- A scalar without quotes. -/
def scalar : Reader Value := do
  let cs ← scalarText
  (boolean? cs <|> integer? cs <|> date? cs <|> special? cs <|> fraction? cs : Option Value)

end Cloze.Toml
