import Cloze.Settings.Value

/-!
# Paths to values

A path names a value inside nested tables and lists, as in `hints.functions[0]`. A name is one or
more letters, digits, spaces, `_` and `-`, all of them ASCII. A negative index counts from the end.
-/

namespace Cloze.Settings

open Number

inductive PathStep where
  | name (name : String)
  | index (index : Int)
deriving DecidableEq

/-- The steps to a value, of which there is at least one. -/
structure Path where
  first : String
  rest : List PathStep
deriving DecidableEq

namespace Path

def isNameChar (c : Char) : Bool :=
  ('a' ≤ c && c ≤ 'z') || ('A' ≤ c && c ≤ 'Z') || isDigit c || c == ' ' || c == '_' || c == '-'

def readName? (cs : List Char) : Option (String × List Char) :=
  let name := cs.takeWhile isNameChar
  if name.isEmpty then none else some (String.ofList name, cs.dropWhile isNameChar)

/-- An index with its closing bracket, and the rest. -/
def readIndex? (cs : List Char) : Option (Int × List Char) := do
  let isGap (c : Char) : Bool := c == ' ' || c == '\t'
  let cs := cs.dropWhile isGap
  let (negative, cs) := match cs with
    | '-' :: cs => (true, cs)
    | cs => (false, cs)
  let n ← natural? 10 (cs.takeWhile isDigit)
  if n ≥ 0x8000000000000000 + (if negative then 1 else 0) then none
  match (cs.dropWhile isDigit).dropWhile isGap with
  | ']' :: cs => some (if negative then -(n : Int) else n, cs)
  | _ => none

/-- The steps a text goes on with, at most `bound` of them. -/
def readSteps? : (bound : Nat) → List Char → Option (List PathStep)
  | _, [] => some []
  | 0, _ => none
  | bound + 1, '.' :: cs => do
    let (name, cs) ← readName? cs
    let rest ← readSteps? bound cs
    pure (.name name :: rest)
  | bound + 1, '[' :: cs => do
    let (index, cs) ← readIndex? cs
    let rest ← readSteps? bound cs
    pure (.index index :: rest)
  | _ + 1, _ => none

def read? (text : String) : Option Path := do
  let cs := text.toList
  let (first, cs) ← readName? cs
  let rest ← readSteps? cs.length cs
  pure ⟨first, rest⟩

end Path

namespace Value

/-- The place an index stands for in a list. -/
def position (index : Int) (length : Nat) : Nat :=
  if index ≥ 0 then index.toNat else length - (-index).toNat

/-- Changes an item of a list, which is first made long enough. -/
def alterItem (index : Int) (f : Value → Value) (v : Value) : Value :=
  let k := position index v.items.length
  let padded := v.items ++ List.replicate (k + 1 - v.items.length) null
  .list (padded.modify k f) v.origin

/-- Puts a value where the steps lead. What stands in the way is replaced by a table or list. -/
def putAlong (value : Value) : List PathStep → Value → Value
  | [], _ => value
  | [.name name], root => root.put name value
  | .name name :: steps, root =>
    .table (alter name.toLower (fun old => putAlong value steps (old.getD null)) root.entries)
  | .index k :: steps, root => root.alterItem k (putAlong value steps)

/-- Puts a value where a path leads. -/
def putAt (root : Value) (path : Path) (value : Value) : Value :=
  putAlong value (.name path.first :: path.rest) root

end Value

end Cloze.Settings
