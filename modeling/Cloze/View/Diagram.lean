import Cloze.Draft.Basic

/-!
# Diagrams

A diagram is a list of numbered vertices with edges between them. A draft is drawn either with
its placed nodes only, each below the node that holds it, or in full: then choices, branches and
slots are vertices of their own, gaps are drawn too, and everything that is not part of the
program hangs on a dotted edge.

A diagram is written in the notation of graph-drawing programs, one statement a line and labels in
quotes, or as a document: plain data of texts, numbers, lists and records, as data formats carry it.
-/

namespace Cloze

namespace Diagram

inductive Style where
  | solid
  | dotted
deriving DecidableEq

def Style.name : Style → String
  | solid => "solid"
  | dotted => "dotted"

/-- Dotted unless the condition holds. -/
def Style.solidIf (condition : Bool) : Style :=
  if condition then solid else dotted

/-- How a vertex is drawn. -/
structure Look where
  label : String
  shape : String := "oval"
  color : String := "black"
  fill : Option String := none
deriving DecidableEq

structure Vertex where
  id : Nat
  look : Look
deriving DecidableEq

structure Edge where
  source : Nat
  target : Nat
  style : Style
deriving DecidableEq

end Diagram

open Diagram in
structure Diagram where
  label : String
  vertices : Array Vertex := #[]
  edges : Array Edge := #[]
deriving DecidableEq

namespace Diagram

/-- Adds a vertex, whose number is the number of vertices before it. -/
def addVertex (g : Diagram) (look : Look) : Diagram :=
  { g with vertices := g.vertices.push ⟨g.vertices.size, look⟩ }

def addEdge (g : Diagram) (source target : Nat) (style : Style) : Diagram :=
  { g with edges := g.edges.push ⟨source, target, style⟩ }

/-- A vertex with what hangs below it, and the style of the edge that leads to it. -/
inductive Sketch where
  | vertex (look : Look) (link : Style) (below : List Sketch)

mutual

/-- Adds a sketch below the vertex `parent`, each vertex before those below it. -/
def draw (parent : Nat) : Sketch → Diagram → Diagram
  | .vertex look link below, g =>
    drawAll g.vertices.size below ((g.addVertex look).addEdge parent g.vertices.size link)

def drawAll (parent : Nat) : List Sketch → Diagram → Diagram
  | [], g => g
  | s :: rest, g => drawAll parent rest (draw parent s g)

end

/-- The diagram of sketches that hang below one vertex. -/
def ofSketches (label : String) (below : List Sketch) : Diagram :=
  drawAll 0 below (addVertex { label } { label })

open Draft

/-- Nodes are boxes, references to rules blue and placed leaves filled. -/
def lookOf (d : Draft) (n : NodeId) : Look where
  label := d.caption n
  shape := "box"
  color := if (d.symbol n).isReference then "blue" else "black"
  fill := if d.isPlaced n && d.isLeaf n then some "orange" else none

/-- A node and the placed nodes under it, at most `bound` levels down. -/
def sketchPlaced (d : Draft) : (bound : Nat) → NodeId → Sketch
  | 0, n => .vertex (lookOf d n) (.solidIf (d.isPlaced n)) []
  | bound + 1, n =>
    .vertex (lookOf d n) (.solidIf (d.isPlaced n)) ((d.children n).map (sketchPlaced d bound))

/-- The nodes to be drawn in a slot: the gap, if the slot takes more, and the content. -/
def slotNodes (d : Draft) (s : SlotId) : List NodeId :=
  let gap := if d.isFull s then none else (d.slot s).gap.filter fun n => !d.isPlaced n
  gap.toList ++ (d.slot s).content

def sketchSlot (d : Draft) (inside : NodeId → Sketch) (s : SlotId) : Sketch :=
  let slot := d.slot s
  .vertex { label := s!"rep{slot.position}{(d.multiplicity s).suffix}" }
    (.solidIf !slot.content.isEmpty) ((slotNodes d s).map inside)

/-- A choice with all its branches. -/
def sketchChoice (d : Draft) (inside : NodeId → Sketch) (c : ChoiceId) (link : Style) : Sketch :=
  let choice := d.choice c
  .vertex { label := "alt" } link <| choice.branches.zipIdx.map fun (branch, k) =>
    .vertex { label := "conc" } (.solidIf (choice.chosen == some k))
      (branch.map (sketchSlot d inside))

/-- A node and all that was laid out under it, at most `bound` levels down. -/
def sketchFull (d : Draft) : (bound : Nat) → NodeId → Sketch
  | 0, n => .vertex (lookOf d n) (.solidIf (d.isPlaced n)) []
  | bound + 1, n =>
    let link := Style.solidIf (d.isPlaced n)
    .vertex (lookOf d n) link
      ((d.inner? n).toList.map fun c => sketchChoice d (sketchFull d bound) c link)

/-- The diagram of the placed nodes. -/
def placedOf (d : Draft) : Diagram :=
  ofSketches d.rootName (d.top.map (sketchPlaced d d.nodes.size))

/-- The diagram of the whole draft. -/
def fullOf (d : Draft) : Diagram :=
  ofSketches d.rootName
    [sketchChoice d (sketchFull d d.nodes.size) ⟨0⟩ (.solidIf d.root.chosen.isSome)]

/-! ### Digraphs -/

/-- A label between quotes: quotes and backslashes get a backslash before them. -/
def escapeLabel (label : String) : String :=
  String.ofList <| label.toList.flatMap fun c =>
    if c = '\\' then ['\\', '\\'] else if c = '"' then ['\\', '"'] else [c]

def Vertex.toDot (v : Vertex) : String :=
  let fill := match v.look.fill with
    | none => ""
    | some fill => s!",style=filled,fillcolor={fill}"
  s!"n{v.id} [label=\"{escapeLabel v.look.label}\",shape={v.look.shape},color={v.look.color}{fill}];\n"

def Edge.toDot (e : Edge) : String :=
  s!"n{e.source} -> n{e.target} [style={e.style.name}];\n"

def toDot (g : Diagram) : String :=
  "digraph G \x7b\n"
    ++ s!"labelloc=\"t\";fontsize=80;label=\"{escapeLabel g.label}\";\n"
    ++ String.join (g.vertices.toList.map Vertex.toDot)
    ++ String.join (g.edges.toList.map Edge.toDot)
    ++ "\x7d"

end Diagram

/-! ### Documents -/

/-- Plain data. The fields of a record keep their order. -/
inductive Document where
  | text (value : String)
  | number (value : Nat)
  | list (items : List Document)
  | record (fields : List (String × Document))

namespace Diagram

/-- A vertex without a fill has no field for it. -/
def Vertex.toDocument (v : Vertex) : Document :=
  .record <| [
    ("id", .number v.id), ("label", .text v.look.label), ("shape", .text v.look.shape),
    ("color", .text v.look.color)]
    ++ v.look.fill.toList.map fun fill => ("fill_color", .text fill)

def Edge.toDocument (e : Edge) : Document :=
  .record [("from", .number e.source), ("to", .number e.target), ("style", .text e.style.name)]

def toDocument (g : Diagram) : Document :=
  .record [
    ("label", .text g.label),
    ("nodes", .list (g.vertices.toList.map Vertex.toDocument)),
    ("edges", .list (g.edges.toList.map Edge.toDocument))]

end Diagram

end Cloze
