import Cloze.Draft.Walk
import Cloze.Text.White

/-!
# Outlines

One line for each placed node, below the node that holds it and to its right, with box-drawing
connectors, a sign for its kind and a label of at most thirty characters.
-/

namespace Cloze.View

open Draft

/-- At most `limit` characters of a text, with dots for the rest. -/
def shorten (limit : Nat) (text : String) : String :=
  let cs := text.toList
  if cs.length > limit then String.ofList (cs.take limit) ++ "..." else text

/-- The sign for the role or kind of a node. -/
def sign (d : Draft) (n : NodeId) : String :=
  match d.role? n, (d.symbol n).kind with
  | some .newline, _ => "↵"
  | some .indent, _ => "→"
  | some .dedent, _ => "←"
  | _, .rule _ => "§"
  | _, .group _ => "◇"
  | _, .option _ => "□"
  | _, .literal _ => "◦"
  | _, .category _ => "▪"

/-- What a node is called: a category with its value, if that is more than white space, and else the
caption. -/
def label (d : Draft) (n : NodeId) : String :=
  match d.category? n, d.token? n with
  | some category, some token =>
    if Text.allWhite token.toList then d.caption n else s!"{category} {token}"
  | _, _ => d.caption n

/-- The placed nodes under a node: the first, and those to the right of it one after the other. -/
def rowUnder (d : Draft) (n : NodeId) : List NodeId :=
  match d.firstChild n with
  | none => []
  | some m => m :: d.walk m .right

/-- Lists each node by `inside`, which is told whether the node is the last. -/
def outlineEach (inside : (last : Bool) → NodeId → List String) : List NodeId → List String
  | [] => []
  | n :: ns => inside ns.isEmpty n ++ outlineEach inside ns

/-- The lines for a node and what is under it, at most `bound` levels down. `margin` stands
before them. -/
def outlineWithin (d : Draft) : (bound : Nat) → (margin : String) → (last : Bool) → NodeId →
    List String
  | 0, _, _, _ => []
  | bound + 1, margin, last, n =>
    let connector := if last then "└─" else "├─"
    let inner := margin ++ (if last then "  " else "│ ")
    s!"{margin}{connector} {sign d n} {shorten 30 (label d n)}"
      :: outlineEach (outlineWithin d bound inner) (rowUnder d n)

def outlineLines (d : Draft) : List String :=
  s!"⧉ {shorten 30 d.rootName}" :: outlineEach (outlineWithin d d.nodes.size "") d.top

/-- The outline of a draft. -/
def outline (d : Draft) : String :=
  String.join ((outlineLines d).map (· ++ "\n"))

end Cloze.View
