import Cloze.Draft.Basic

/-!
# Walks over placed nodes

Steps lead from a node to a placed neighbour; only the node a walk sets out from may be a gap,
which stands before the node that is placed at its position. A walk repeats one step until there
is none. No step comes back, so a walk is no longer than there are nodes.
-/

namespace Cloze.Draft

variable (d : Draft)

def left (n : NodeId) : Option NodeId :=
  let node := d.node n
  let slot := d.slot node.slot
  let beside := if node.position = 0 then none else slot.content[node.position - 1]?
  beside <|> (d.slotsBefore node.slot).findSome? fun s => (d.slot s).content.getLast?

def right (n : NodeId) : Option NodeId :=
  let node := d.node n
  let slot := d.slot node.slot
  let beside := slot.content[if node.placed then node.position + 1 else node.position]?
  beside <|> (d.slotsAfter node.slot).findSome? fun s => (d.slot s).content.head?

def firstChild (n : NodeId) : Option NodeId :=
  (d.children n).head?

def lastChild (n : NodeId) : Option NodeId :=
  (d.children n).getLast?

/-- The leaf reached by repeating `step` from a node, at most `bound` times. -/
def descend (step : NodeId → Option NodeId) : (bound : Nat) → NodeId → Option NodeId
  | 0, _ => none
  | bound + 1, n => if d.isLeaf n then some n else (step n).bind (descend step bound)

/-- The placed leaf before a node, however far up the two part. -/
def leafBefore (n : NodeId) : Option NodeId :=
  ((d.lineage n).findSome? d.left).bind (d.descend d.lastChild d.nodes.size)

/-- The placed leaf behind a node, however far up the two part. -/
def leafAfter (n : NodeId) : Option NodeId :=
  ((d.lineage n).findSome? d.right).bind (d.descend d.firstChild d.nodes.size)

/-- The first node that is no leaf among those reached by repeating `step`, at most `bound`
times. -/
def firstInner (step : NodeId → Option NodeId) : (bound : Nat) → NodeId → Option NodeId
  | 0, _ => none
  | bound + 1, n =>
    match step n with
    | none => none
    | some m => if d.isLeaf m then firstInner step bound m else some m

/-- The placed node before a node that has `level` nodes above it, among the nodes of that level. -/
def levelBeforeWithin : (level : Nat) → NodeId → Option NodeId
  | 0, n => d.left n
  | level + 1, n =>
    match d.left n with
    | some m => some m
    | none =>
      ((d.holder? n).bind (d.firstInner (levelBeforeWithin level) d.nodes.size)).bind d.lastChild

/-- The placed node before a node among the nodes with as many nodes above them. -/
def levelBefore (n : NodeId) : Option NodeId :=
  d.levelBeforeWithin (d.ancestors n).length n

/-- The ways to step. -/
inductive Direction where
  | up
  | left
  | right
  | firstChild
  | lastChild
  | leafBefore
  | leafAfter
  | levelBefore
deriving DecidableEq

def step (n : NodeId) : Direction → Option NodeId
  | .up => d.holder? n
  | .left => d.left n
  | .right => d.right n
  | .firstChild => d.firstChild n
  | .lastChild => d.lastChild n
  | .leafBefore => d.leafBefore n
  | .leafAfter => d.leafAfter n
  | .levelBefore => d.levelBefore n

/-- The nodes reached by at most `bound` steps. -/
def walkWithin (direction : Direction) : (bound : Nat) → NodeId → List NodeId
  | 0, _ => []
  | bound + 1, n =>
    match d.step n direction with
    | none => []
    | some m => m :: walkWithin direction bound m

/-- The nodes reached by repeating a step, without the node set out from. -/
def walk (n : NodeId) (direction : Direction) : List NodeId :=
  d.walkWithin direction d.nodes.size n

/-- The nodes of a walk that have the role. -/
def walkTo (n : NodeId) (direction : Direction) (role : Role) : List NodeId :=
  (d.walk n direction).filter fun m => d.role? m == some role

end Cloze.Draft
