import Cloze.Toml.Value

/-!
# Tables of TOML under construction

A table comes about by its own header, on the way to a header of a table inside it, or by a key
with dots. What may be added later hangs on that: a header gives a table its entries once, and
dotted keys extend only what dotted keys have made.
-/

namespace Cloze.Toml

/-- How a table came about. -/
inductive Making where
  /-- On the way to a table inside it. -/
  | implied
  /-- By its own header. -/
  | header
  | dotted
deriving DecidableEq

/-- What an entry holds while the document is read. -/
inductive Entry where
  | value (value : Value)
  | table (making : Making) (entries : List (String × Entry))
  /-- The tables of a list, each added by a header in double brackets; the last comes first. -/
  | tables (last : List (String × Entry)) (before : List (List (String × Entry)))

abbrev Entries := List (String × Entry)

/-- Replaces the entry of a key, or adds it at the end. -/
def put (entries : Entries) (key : String) (entry : Entry) : Entries :=
  if (entries.lookup key).isSome then
    entries.map fun (k, old) => if k = key then (k, entry) else (k, old)
  else
    entries ++ [(key, entry)]

/-- Changes the entries found by following a path of headers, making tables on the way. -/
def alongHeaders (f : Entries → Option Entries) : List String → Entries → Option Entries
  | [], entries => f entries
  | key :: path, entries => do
    let entry ← match entries.lookup key with
      | none => (alongHeaders f path []).map (Entry.table .implied)
      | some (.table making inner) => (alongHeaders f path inner).map (Entry.table making)
      | some (.tables last before) => (alongHeaders f path last).map (Entry.tables · before)
      | some (.value _) => none
    pure (put entries key entry)

/-- Starts the table of a header. -/
def startTable (key : String) (entries : Entries) : Option Entries :=
  match entries.lookup key with
  | none => some (put entries key (.table .header []))
  | some (.table .implied inner) => some (put entries key (.table .header inner))
  | some (.table .header _) | some (.table .dotted _) | some (.tables _ _) | some (.value _) =>
    none

/-- Starts one more table of a list. -/
def startListed (key : String) (entries : Entries) : Option Entries :=
  match entries.lookup key with
  | none => some (put entries key (.tables [] []))
  | some (.tables last before) => some (put entries key (.tables [] (last :: before)))
  | some (.table _ _) | some (.value _) => none

/-- Adds a value under a key with dots. `open?` says whether the table reached so far may take a
key of its own. -/
def addValue (value : Value) : (open? : Bool) → (first : String) → (path : List String) →
    Entries → Option Entries
  | open?, key, [], entries =>
    if !open? || (entries.lookup key).isSome then none
    else some (put entries key (.value value))
  | _, key, next :: path, entries => do
    let entry ← match entries.lookup key with
      | none => (addValue value true next path []).map (Entry.table .dotted)
      | some (.table .dotted inner) =>
        (addValue value true next path inner).map (Entry.table .dotted)
      | some (.table .implied inner) =>
        (addValue value false next path inner).map (Entry.table .implied)
      | some (.tables last before) =>
        (addValue value false next path last).map (Entry.tables · before)
      | some (.table .header _) | some (.value _) => none
    pure (put entries key entry)

mutual

/-- The value of a finished entry. -/
def Entry.finish : Entry → Value
  | .value value => value
  | .table _ entries => .table (finishAll entries)
  | .tables last before => .array ((Value.table (finishAll last) :: finishTables before).reverse)

def finishAll : List (String × Entry) → List (String × Value)
  | [] => []
  | (key, entry) :: rest => (key, entry.finish) :: finishAll rest

def finishTables : List (List (String × Entry)) → List Value
  | [] => []
  | entries :: rest => .table (finishAll entries) :: finishTables rest

end

end Cloze.Toml
