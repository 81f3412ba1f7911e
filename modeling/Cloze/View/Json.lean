import Cloze.View.Diagram

/-!
# Documents as JSON

JSON with two spaces per level, one item or field a line. Empty lists and records stay on one
line. Only quotes, backslashes and control characters below U+0020 are escaped.
-/

namespace Cloze.Document.Json

/-- The character as it stands between quotes. -/
def escapeChar (c : Char) : List Char :=
  if c = '"' then ['\\', '"']
  else if c = '\\' then ['\\', '\\']
  else if c.toNat = 8 then ['\\', 'b']
  else if c.toNat = 12 then ['\\', 'f']
  else if c = '\n' then ['\\', 'n']
  else if c = '\r' then ['\\', 'r']
  else if c = '\t' then ['\\', 't']
  else if c.toNat < 32 then
    ['\\', 'u', '0', '0'] ++ [Nat.digitChar (c.toNat / 16), Nat.digitChar (c.toNat % 16)]
  else [c]

def quote (text : String) : String :=
  String.ofList ('"' :: (text.toList.flatMap escapeChar ++ ['"']))

/-- The lines of several parts, with a comma behind all but the last part. -/
def separate : List (List String) → List String
  | [] => []
  | [part] => part
  | part :: parts => part.dropLast ++ part.getLast?.toList.map (· ++ ",") ++ separate parts

/-- Lines between brackets, one level further in. -/
def enclose (opening closing : String) (inner : List String) : List String :=
  if inner.isEmpty then [opening ++ closing]
  else opening :: inner.map ("  " ++ ·) ++ [closing]

/-- Puts a text before the first of some lines. -/
def lead (text : String) : List String → List String
  | [] => [text]
  | line :: rest => (text ++ line) :: rest

mutual

/-- The lines of a document. -/
def lines : Document → List String
  | .text value => [quote value]
  | .number value => [Nat.repr value]
  | .list items => enclose "[" "]" (separate (itemLines items))
  | .record fields => enclose "\x7b" "\x7d" (separate (fieldLines fields))

def itemLines : List Document → List (List String)
  | [] => []
  | item :: items => lines item :: itemLines items

def fieldLines : List (String × Document) → List (List String)
  | [] => []
  | (name, value) :: fields => lead (quote name ++ ": ") (lines value) :: fieldLines fields

end

/-- The document as JSON text. -/
def render (doc : Document) : String :=
  "\n".intercalate (lines doc)

end Cloze.Document.Json
