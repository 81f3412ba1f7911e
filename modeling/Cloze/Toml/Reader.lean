import Cloze.Toml.Scalar
import Cloze.Toml.Table
import Cloze.Toml.Text

/-!
# Documents of TOML

A document is a sequence of lines: headers, which say what table the following entries go to, and
entries. Brackets nest, so reading a value takes a bound on how deep; the length of the text is
one.
-/

namespace Cloze.Toml

/-- The values of an array behind its opening bracket, at most `bound` of them. -/
def arrayItems (item : Reader Value) : (bound : Nat) → Reader (List Value)
  | 0 => failure
  | bound + 1 => do
    skipLayout
    if ← Reader.accept [']'] then
      pure []
    else
      let first ← item
      skipLayout
      if ← Reader.accept [','] then
        let rest ← arrayItems item bound
        pure (first :: rest)
      else
        Reader.expect ']'
        pure [first]

/-- An entry of a table, added to those before it. -/
def entry (item : Reader Value) (entries : Entries) (place : Entries → (Entries → Option Entries) →
    Option Entries) : Reader Entries := do
  let (first, path) ← key
  Reader.expect '='
  skipSpaces
  let value ← item
  (place entries (addValue value true first path) : Option Entries)

/-- The entries of a table in braces behind the opening one, at most `bound` of them. -/
def inlineEntries (item : Reader Value) : (bound : Nat) → Entries → Reader Entries
  | 0, _ => failure
  | bound + 1, entries => do
    let entries ← entry item entries fun es f => f es
    skipSpaces
    if ← Reader.accept [','] then
      inlineEntries item bound entries
    else
      Reader.expect '\x7d'
      pure entries

def inlineTable (item : Reader Value) : Reader Value := do
  skipSpaces
  if ← Reader.accept ['\x7d'] then
    pure (.table [])
  else
    let entries ← inlineEntries item ((← get).length + 1) []
    pure (.table (finishAll entries))

/-- A value with brackets at most `bound` deep. -/
def value : (bound : Nat) → Reader Value
  | 0 => failure
  | bound + 1 => do
    match ← Reader.peek? with
    | some '"' => Value.text <$> quoted '"'
    | some '\'' => Value.text <$> quoted '\''
    | some '[' =>
      Reader.expect '['
      Value.array <$> arrayItems (value bound) ((← get).length + 1)
    | some '\x7b' =>
      Reader.expect '\x7b'
      inlineTable (value bound)
    | _ => scalar

/-- The end of a line, with a comment before it. -/
def lineEnd : Reader Unit := do
  skipSpaces
  skipComment
  if (← get).isEmpty then
    pure ()
  else if ← acceptLineEnd then
    pure ()
  else
    failure

/-- What has been read of a document: its entries and the header that holds. -/
structure Progress where
  entries : Entries := []
  header : List String := []

/-- A header behind its opening bracket. -/
def header (p : Progress) : Reader Progress := do
  let listed ← Reader.accept ['[']
  let (first, rest) ← key
  Reader.expect ']'
  if listed then Reader.expect ']'
  let path := first :: rest
  let start := if listed then startListed else startTable
  let entries ← (alongHeaders (start (path.getLast?.getD "")) path.dropLast p.entries :
    Option Entries)
  pure { entries, header := path }

/-- One line that is not empty. -/
def line (p : Progress) : Reader Progress := do
  if ← Reader.accept ['['] then
    header p
  else
    let entries ← entry (value ((← get).length + 1)) p.entries fun es f => alongHeaders f p.header es
    pure { p with entries }

/-- The rest of a document of at most `bound` lines. -/
def lines : (bound : Nat) → Progress → Reader Progress
  | 0, _ => failure
  | bound + 1, p => do
    skipLayout
    if (← get).isEmpty then
      pure p
    else
      let p ← line p
      lineEnd
      lines bound p

/-- The entries of a document; none if the text is no document. -/
def read? (text : String) : Option (List (String × Value)) := do
  let cs := match text.toList with
    | '\uFEFF' :: cs => cs
    | cs => cs
  let (p, _) ← (lines (cs.length + 1) {}).run cs
  pure (finishAll p.entries)

end Cloze.Toml
