import Cloze.Draft.Basic
import Cloze.Settings.Path
import Cloze.Toml.Reader

/-!
# Loading settings

Settings are read from layers: the ones built in, then files in order, then single values given by
path. Each layer overrides those before it, value by value. A value of another kind than wanted is
taken for what it stands for, where it stands for anything: numbers and truth values as texts,
texts as numbers and truth values.
-/

namespace Cloze.Settings

open Number

/-- What a value of the wrong kind is. -/
inductive Unexpected where
  | boolean (value : Bool)
  | integer (value : Int)
  | word (value : Nat)
  | float (value : Double)
  | text (value : String)
  | unit
  | sequence
  | map

inductive LoadError where
  | badPath
  /-- A file that is no TOML document. -/
  | badFile (file : String)
  | missingFile (file : String)
  | wrongType (found : Unexpected) (expected key : String) (origin : Option String)
  /-- Something else stands where a list or table has to. -/
  | wrongShape (message : String)

/-- A text in quotes, with escapes for what cannot be shown. -/
def showQuoted (text : String) : String :=
  let escape (c : Char) : List Char :=
    if c = '"' then ['\\', '"']
    else if c = '\\' then ['\\', '\\']
    else if c = '\n' then ['\\', 'n']
    else if c = '\r' then ['\\', 'r']
    else if c = '\t' then ['\\', 't']
    else if c.toNat = 0 then ['\\', '0']
    else if c.toNat < 32 ∨ c.toNat = 127 then
      "\\u\x7b".toList ++ Nat.toDigits 16 c.toNat ++ ['\x7d']
    else [c]
  String.ofList ('"' :: (text.toList.flatMap escape ++ ['"']))

def showBool (b : Bool) : String :=
  if b then "true" else "false"

def Unexpected.message : Unexpected → String
  | boolean value => s!"boolean \x60{showBool value}\x60"
  | integer value => s!"64-bit integer \x60{Int.repr value}\x60"
  | word value => s!"64-bit unsigned integer \x60{value}\x60"
  | float value => s!"floating point \x60{value.text}\x60"
  | text value => s!"string {showQuoted value}"
  | unit => "unit value"
  | sequence => "sequence"
  | map => "map"

def LoadError.message : LoadError → String
  | badPath => "invalid path expression"
  | badFile file => s!"invalid TOML document in {file}"
  | missingFile file => s!"configuration file \"{file}\" not found"
  | wrongType found expected key origin =>
    let place := match origin with
      | none => ""
      | some file => s!" in {file}"
    s!"invalid type: {found.message}, expected {expected} for key \x60{key}\x60{place}"
  | wrongShape message => message

/-! ### Taking values for what they stand for -/

/-- What a value is, to be told to the user. -/
def Value.found : Value → Unexpected
  | .scalar .null _ => .unit
  | .scalar (.boolean value) _ => .boolean value
  | .scalar (.integer value) _ => .integer value
  | .scalar (.float value) _ => .float value
  | .scalar (.text value) _ => .text value
  | .list _ _ => .sequence
  | .table _ => .map

def Value.mismatch {α : Type} (v : Value) (expected key : String) : Except LoadError α :=
  .error (.wrongType v.found expected key v.origin)

/-- Words that stand for yes or no, in any case. -/
def yesNo? (text : String) : Option Bool :=
  if ["true", "on", "yes"].contains text.toLower then some true
  else if ["false", "off", "no"].contains text.toLower then some false
  else none

def readText (key : String) (v : Value) : Except LoadError String :=
  match v with
  | .scalar (.text value) _ => .ok value
  | .scalar (.boolean value) _ => .ok (showBool value)
  | .scalar (.integer value) _ => .ok (Int.repr value)
  | .scalar (.float value) _ => .ok value.text
  | .scalar .null _ | .list _ _ | .table _ => v.mismatch "a string" key

def readBool (key : String) (v : Value) : Except LoadError Bool :=
  match v with
  | .scalar (.boolean value) _ => .ok value
  | .scalar (.integer value) _ => .ok (value != 0)
  | .scalar (.float value) _ => .ok !value.isZero
  | .scalar (.text value) _ =>
    match yesNo? value with
    | some answer => .ok answer
    | none =>
      if value = "1" then .ok true
      else if value = "0" then .ok false
      else .error (.wrongType (.text value.toLower) "a boolean" key v.origin)
  | .scalar .null _ | .list _ _ | .table _ => v.mismatch "a boolean" key

/-- Digits with an optional `+` before them, of at most 64 bits. -/
def word? (text : String) : Option Nat :=
  let digits := match text.toList with
    | '+' :: cs => cs
    | cs => cs
  (natural? 10 digits).filter (· ≤ Double.maxWord)

/-- A natural number of 64 bits. -/
def readWord (key : String) (v : Value) : Except LoadError Nat :=
  match v with
  | .scalar (.integer value) _ =>
    if value < 0 then v.mismatch "an unsigned 64 bit or less integer" key else .ok value.toNat
  | .scalar (.boolean value) _ => .ok (if value then 1 else 0)
  | .scalar (.float value) _ => .ok value.toWord
  | .scalar (.text value) _ =>
    match yesNo? value with
    | some answer => .ok (if answer then 1 else 0)
    | none =>
      match word? value with
      | some n => .ok n
      | none => v.mismatch "an integer" key
  | .scalar .null _ | .list _ _ | .table _ => v.mismatch "an integer" key

/-- A color of 32 bits. -/
def readColor (key : String) (v : Value) : Except LoadError UInt32 := do
  let n ← readWord key v
  if n < UInt32.size then
    pure (UInt32.ofNat n)
  else
    throw (.wrongType (.word n) "an unsigned 32 bit or less integer" key none)

def readTexts (key : String) (v : Value) : Except LoadError (List String) :=
  match v with
  | .list items _ => items.mapM (readText key)
  | .scalar _ _ | .table _ =>
    .error (.wrongShape s!"invalid type: {v.found.message}, expected a sequence")

/-! ### Layers -/

/-- A field of a section: by its name in a table, by its place in a list. -/
def sectionField (v : Value) (place : Nat) (name : String) : Except LoadError Value :=
  match v with
  | .table entries =>
    match entries.lookup name with
    | some value => .ok value
    | none => .error (.wrongShape s!"missing field \x60{name}\x60")
  | .list items _ =>
    match items[place]? with
    | some value => .ok value
    | none => .error (.wrongShape s!"invalid length {place}, expected a longer section")
  | .scalar _ _ => .error (.wrongShape s!"invalid type: {v.found.message}, expected a section")

/-- Reads settings off the table of all layers. -/
def ofValue (v : Value) : Except LoadError Settings := do
  let engine ← sectionField v 0 "engine"
  let indentUnit ← readText "engine.indent_unit" (← sectionField engine 0 "indent_unit")
  let recursionLimit ←
    readWord "engine.recursion_limit" (← sectionField engine 1 "recursion_limit")
  let memoize ←
    readBool "engine.memoize_optionality" (← sectionField engine 2 "memoize_optionality")
  let hints ← sectionField v 1 "hints"
  let functionNames ← readTexts "hints.functions" (← sectionField hints 0 "functions")
  let variableNames ← readTexts "hints.variables" (← sectionField hints 1 "variables")
  let variableColor ← readColor "hints.var_color" (← sectionField hints 2 "var_color")
  let functionColor ← readColor "hints.func_color" (← sectionField hints 3 "func_color")
  pure {
    indentUnit, recursionLimit, memoize, functionNames, variableNames, variableColor,
    functionColor }

/-- Settings as a layer. -/
def toValue (s : Settings) : Value :=
  let text (value : String) : Value := .scalar (.text value) none
  let number (value : Nat) : Value := .scalar (.integer value) none
  .table [
    ("engine", .table [
      ("indent_unit", text s.indentUnit),
      ("recursion_limit", number s.recursionLimit),
      ("memoize_optionality", .scalar (.boolean s.memoize) none)]),
    ("hints", .table [
      ("functions", .list (s.functionNames.map text) none),
      ("variables", .list (s.variableNames.map text) none),
      ("var_color", number s.variableColor.toNat),
      ("func_color", number s.functionColor.toNat)])]

/-- A file of settings. -/
structure File where
  name : String
  /-- None if there is no such file. -/
  content : Option String
  required : Bool

/-- Lays the values of a document over a table. A name that reads as a path is taken for one. -/
def layDocument (root : Value) : List (String × Value) → Value
  | [] => root
  | (name, value) :: rest =>
    let root := match Path.read? name with
      | some path => root.putAt path value
      | none => root.put name value
    layDocument root rest

def layFile (root : Value) (file : File) : Except LoadError Value :=
  match file.content with
  | none => if file.required then .error (.missingFile file.name) else .ok root
  | some text =>
    match Toml.read? text with
    | none => .error (.badFile file.name)
    | some entries => .ok (layDocument root (Value.ofTomlEntries file.name entries))

/-- The paths of single values. -/
def readPaths (overrides : List (String × Value)) : Except LoadError (List (Path × Value)) :=
  overrides.mapM fun (key, value) =>
    match Path.read? key with
    | none => .error .badPath
    | some path => .ok (path, value)

/-- Settings from files and single values over the ones built in. -/
def load (files : List File) (overrides : List (String × Value)) : Except LoadError Settings := do
  let overrides ← readPaths overrides
  let layered ← files.foldlM layFile (toValue {})
  ofValue (overrides.foldl (fun root (path, value) => root.putAt path value) layered)

end Cloze.Settings
