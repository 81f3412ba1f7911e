import Cloze.View.Json
import Cloze.View.Outline
import Cloze.View.Source
import Cloze.View.Yaml

/-!
# The catalog of formats

The formats a draft can be written in, found by their names. A format entered twice counts as it
was entered last.
-/

namespace Cloze.View

inductive Encoding where
  | dot
  | json
  | yaml
deriving DecidableEq

inductive Format where
  | source
  | outline
  /-- A diagram of the whole draft, or of its placed nodes only. -/
  | diagram (encoding : Encoding) (onlyPlaced : Bool)
deriving DecidableEq

inductive FormatError where
  | notFound (name : String)
deriving DecidableEq

def FormatError.message : FormatError → String
  | notFound name => s!"Format '{name}' not found"

namespace Format

def name : Format → String
  | source => "source"
  | outline => "treeviz"
  | diagram .dot _ => "dot"
  | diagram .json _ => "json"
  | diagram .yaml _ => "yaml"

def description : Format → String
  | source => "Program text built so far"
  | outline => "Realized tree with box-drawing connectors and icons"
  | diagram .dot _ => "Graphviz digraph of the tree"
  | diagram .json _ => "Node/edge graph of the tree as JSON"
  | diagram .yaml _ => "Node/edge graph of the tree as YAML"

def encode (g : Diagram) : Encoding → String
  | .dot => g.toDot
  | .json => Document.Json.render g.toDocument
  | .yaml => Document.Yaml.render g.toDocument

/-- The draft in a format. -/
def render (d : Draft) : Format → String
  | source => View.source d
  | outline => View.outline d
  | diagram encoding onlyPlaced =>
    encode (if onlyPlaced then Diagram.placedOf d else Diagram.fullOf d) encoding

/-- Every format there is. -/
def all (onlyPlaced : Bool) : List Format :=
  [source, outline, diagram .dot onlyPlaced, diagram .json onlyPlaced, diagram .yaml onlyPlaced]

end Format

/-- The formats on offer, no two of one name. -/
structure Catalog where
  formats : List Format := []

namespace Catalog

/-- Enters a format in place of the one of its name. -/
def register (c : Catalog) (f : Format) : Catalog :=
  ⟨c.formats.filter (fun g => g.name != f.name) ++ [f]⟩

def complete (onlyPlaced : Bool) : Catalog :=
  (Format.all onlyPlaced).foldl register {}

def find? (c : Catalog) (name : String) : Option Format :=
  c.formats.find? fun f => f.name == name

/-- By name. -/
def sorted (c : Catalog) : List Format :=
  c.formats.mergeSort fun f g => f.name ≤ g.name

/-- The draft in the format of that name. -/
def render (c : Catalog) (d : Draft) (name : String) : Except FormatError String :=
  match c.find? name with
  | none => .error (.notFound name)
  | some f => .ok (f.render d)

end Catalog

end Cloze.View
