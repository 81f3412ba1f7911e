import Cloze.Number.Double
import Cloze.View.Diagram

/-!
# Documents as YAML

YAML in block style: a field or item a line, the dashes of a list below the name of its field.
A text stands plain unless it would be read as something else; then it stands in single quotes.
Texts are taken to be printable and on one line.
-/

namespace Cloze.Document.Yaml

open Number

/-! ### Texts that read as numbers -/

/-- The base that a leading `0x`, `0o` or `0b` announces, and the digits behind it. -/
def radix? : List Char → Option (Nat × List Char)
  | '0' :: 'x' :: cs => some (16, cs)
  | '0' :: 'o' :: cs => some (8, cs)
  | '0' :: 'b' :: cs => some (2, cs)
  | _ => none

/-- A leading zero with more digits behind it, which makes no number. -/
def isZeroPadded (cs : List Char) : Bool :=
  match (splitSign cs).2 with
  | '0' :: rest => !rest.isEmpty && rest.all isDigit
  | _ => false

/-- A whole number of at most 128 bits, in base ten or one that is announced. -/
def isInteger (cs : List Char) : Bool :=
  let (sign, digits) := splitSign cs
  let fits (n : Nat) : Bool := if sign = some '-' then n ≤ Nat.pow 2 127 else n < Nat.pow 2 128
  match radix? digits with
  | some (base, digits) => (natural? base digits).any fits
  | none => !isZeroPadded cs && (natural? 10 digits).any fits

/-- A decimal fraction that is no larger than numbers of double precision are. -/
def isFraction (cs : List Char) : Bool :=
  match (Decimal.read? cs).map Double.ofDecimal with
  | some (.finite _ _ _) => true
  | some (.infinite _) | some .nan | none => false

def infinities : List String :=
  [".inf", ".Inf", ".INF", "+.inf", "+.Inf", "+.INF", "-.inf", "-.Inf", "-.INF"]

def isNumber (text : String) : Bool :=
  let cs := text.toList
  isInteger cs || isZeroPadded cs || isFraction cs || infinities.contains text
    || [".nan", ".NaN", ".NAN"].contains text

/-- Texts that are read as no value or as a truth value. -/
def isConstant (text : String) : Bool :=
  ["null", "Null", "NULL", "~", "true", "True", "TRUE", "false", "False", "FALSE"].contains text

/-! ### Texts that read as structure -/

/-- Characters that no plain text starts with. -/
def indicators : List Char :=
  ['#', ',', '[', ']', '{', '}', '&', '*', '!', '|', '>', '\'', '"', '%', '@', '\x60']

/-- Nothing or a space comes next. -/
def endsOrSpaces : List Char → Bool
  | [] => true
  | c :: _ => c == ' '

/-- A colon before a space or the end, or a `#` behind a space. -/
def breaksOff : (spaceBefore : Bool) → List Char → Bool
  | _, [] => false
  | spaceBefore, c :: rest =>
    (c == ':' && endsOrSpaces rest) || (c == '#' && spaceBefore) || breaksOff (c == ' ') rest

/-- The start of a text is read as structure. -/
def startsStructure : List Char → Bool
  | [] => true
  | '-' :: '-' :: '-' :: _ => true
  | '.' :: '.' :: '.' :: _ => true
  | c :: rest =>
    indicators.contains c || c == ' '
      || ((c == '?' || c == ':' || c == '-') && endsOrSpaces rest)

def needsQuotes (text : String) : Bool :=
  let cs := text.toList
  startsStructure cs || cs.getLast? == some ' '
    || breaksOff false cs.tail
    || isConstant text || isNumber text

/-- A text as a scalar. -/
def scalar (text : String) : String :=
  if needsQuotes text then
    let quoted := text.toList.flatMap fun c => if c = '\'' then ['\'', '\''] else [c]
    String.ofList ('\'' :: (quoted ++ ['\'']))
  else
    text

/-! ### Blocks -/

/-- Lines behind the dash of a list item. -/
def dashed : List String → List String
  | [] => []
  | line :: rest => ("- " ++ line) :: rest.map ("  " ++ ·)

mutual

/-- The lines of a document. -/
def lines : Document → List String
  | .text value => [scalar value]
  | .number value => [Nat.repr value]
  | .list [] => ["[]"]
  | .list (item :: items) => dashed (lines item) ++ itemLines items
  | .record [] => ["\x7b\x7d"]
  | .record ((name, value) :: fields) => fieldBlock name value ++ fieldLines fields

def itemLines : List Document → List String
  | [] => []
  | item :: items => dashed (lines item) ++ itemLines items

def fieldLines : List (String × Document) → List String
  | [] => []
  | (name, value) :: fields => fieldBlock name value ++ fieldLines fields

/-- The lines of one field. -/
def fieldBlock (name : String) : Document → List String
  | .text value => [name ++ ": " ++ scalar value]
  | .number value => [name ++ ": " ++ Nat.repr value]
  | .list [] => [name ++ ": []"]
  | .list (item :: items) => (name ++ ":") :: (dashed (lines item) ++ itemLines items)
  | .record [] => [name ++ ": \x7b\x7d"]
  | .record ((inner, value) :: fields) =>
    (name ++ ":") :: (fieldBlock inner value ++ fieldLines fields).map ("  " ++ ·)

end

/-- The document as YAML text. -/
def render (doc : Document) : String :=
  String.join ((lines doc).map (· ++ "\n"))

end Cloze.Document.Yaml
