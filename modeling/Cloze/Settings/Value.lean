import Cloze.Toml.Value

/-!
# Values that settings are read from

Settings are gathered from several sources into one table of values before they are read. Names
are put in without capitals. A table put where there is one already is merged into it; anything
else replaces what was there.
-/

namespace Cloze.Settings

open Number

inductive Scalar where
  | null
  | boolean (value : Bool)
  | integer (value : Int)
  | float (value : Double)
  | text (value : String)
deriving DecidableEq

/-- A value, with the name of the file it comes from if it comes from one. -/
inductive Value where
  | scalar (value : Scalar) (origin : Option String)
  | list (items : List Value) (origin : Option String)
  | table (entries : List (String × Value))

instance : Inhabited Value := ⟨.scalar .null none⟩

namespace Value

def null : Value := default

/-- The entries of a table; anything else has none. -/
def entries : Value → List (String × Value)
  | table entries => entries
  | scalar _ _ | list _ _ => []

/-- The items of a list; anything else has none. -/
def items : Value → List Value
  | list items _ => items
  | scalar _ _ | table _ => []

def origin : Value → Option String
  | scalar _ origin | list _ origin => origin
  | table _ => none

/-- Changes the entry of a name, which is added at the end if there is none. -/
def alter (name : String) (f : Option Value → Value) :
    List (String × Value) → List (String × Value)
  | [] => [(name, f none)]
  | (k, v) :: rest => if k = name then (k, f (some v)) :: rest else (k, v) :: alter name f rest

mutual

/-- Puts a value into a table under a name. What is no table becomes one. -/
def put (root : Value) (name : String) : Value → Value
  | .table fields =>
    .table (alter name.toLower (fun old => putAll (old.getD (.table [])) fields) root.entries)
  | .scalar value origin => .table (alter name.toLower (fun _ => .scalar value origin) root.entries)
  | .list items origin => .table (alter name.toLower (fun _ => .list items origin) root.entries)

/-- Puts several values into a table. -/
def putAll (root : Value) : List (String × Value) → Value
  | [] => root
  | (name, value) :: rest => putAll (root.put name value) rest

end

mutual

/-- A value read from the given file. -/
def ofToml (file : String) : Toml.Value → Value
  | .text value => .scalar (.text value) (some file)
  | .integer value => .scalar (.integer value) (some file)
  | .float value => .scalar (.float value) (some file)
  | .boolean value => .scalar (.boolean value) (some file)
  | .date text => .scalar (.text text) (some file)
  | .array items => .list (ofTomlItems file items) (some file)
  | .table entries => .table (ofTomlEntries file entries)

def ofTomlItems (file : String) : List Toml.Value → List Value
  | [] => []
  | item :: rest => ofToml file item :: ofTomlItems file rest

def ofTomlEntries (file : String) : List (String × Toml.Value) → List (String × Value)
  | [] => []
  | (name, value) :: rest => (name, ofToml file value) :: ofTomlEntries file rest

end

end Value

end Cloze.Settings
